import Narjar.LabelledRuns
import Narjar.ObjectNames

/-!
# The index of NAR names

A publication has a record under its store hash, and an index leads from the name of a NAR file
to one store hash. A record that was noted as removed expires after a week. Record files are what
they decode to. Times are nanoseconds since the epoch, of which a record keeps the seconds.
-/
namespace PublicationIndex

open ByteCodecs NarFormat ManifestFormat ObjectNames TextFields LabelledRuns

def maxRecordBytes : ℕ := 4096
def nanoseconds : ℕ := 1000000000
def retention : ℕ := 7 * 24 * 60 * 60 * nanoseconds

structure PublicationRecord where
  storePath : Bytes
  publishedAt : ℕ
  writer : Option Bytes
  removedAt : Option ℕ
  narFile : Option NarFileName
  deriving DecidableEq

def unixSeconds (time : ℕ) : ℕ := time / nanoseconds

def expired (removedAt now : ℕ) : Bool := retention < now - removedAt * nanoseconds

def PublicationRecord.isExpired (record : PublicationRecord) (now : ℕ) : Bool :=
  record.removedAt.any fun removedAt => expired removedAt now

def singleLine (value : Bytes) : Bool :=
  !value.isEmpty && value.all fun byte => !([9, 10, 12, 13, 32] : Bytes).contains byte

def validLabel (label : Bytes) : Bool :=
  !label.isEmpty && label.all fun byte => isDigit byte || (65 ≤ byte && byte ≤ 90) ||
    (97 ≤ byte && byte ≤ 122) || (ascii ['.', '_', '-']).contains byte

/-- A field with its value, or the name of the field alone. -/
def fieldLine (name : List Char) (value : Option Bytes) : Bytes :=
  ascii name ++ value.elim [] (ascii [' '] ++ ·) ++ ascii ['\n']

def encodeRecord (record : PublicationRecord) : Except String Bytes :=
  let bytes := ascii ['v', '1', '\n'] ++ fieldLine ['p', 'a', 't', 'h'] (some record.storePath) ++
    fieldLine ['p', 'u', 'b', 'l', 'i', 's', 'h', 'e', 'd'] (some (decimal record.publishedAt)) ++
    fieldLine ['w', 'r', 'i', 't', 'e', 'r'] record.writer ++
    fieldLine ['r', 'e', 'm', 'o', 'v', 'e', 'd'] (record.removedAt.map decimal) ++
    fieldLine ['n', 'a', 'r'] (record.narFile.map NarFileName.asStr)
  if maxRecordBytes < bytes.length then .error "publication record exceeds its size limit"
  else .ok bytes

/-- The two directories. -/
structure Index where
  records : StoreHash → Option PublicationRecord
  narNames : NarFileName → Option StoreHash

namespace Index

def empty : Index := ⟨fun _ => none, fun _ => none⟩

def unlinkNarNameIfOwner (s : Index) (name : NarFileName) (store : StoreHash) : Index :=
  if s.narNames name = some store then
    { s with narNames := Function.update s.narNames name none }
  else s

def withRecord (s : Index) (store : StoreHash) (record : PublicationRecord) : Index :=
  { s with records := Function.update s.records store (some record) }

def writeRecord (s : Index) (store : StoreHash) (record : PublicationRecord) :
    Except String Unit × Index :=
  match encodeRecord record with
  | .error message => (.error message, s)
  | .ok _ => (.ok (), s.withRecord store record)

/-- An expired record is unlinked, and then its name. -/
def publicationRecord (s : Index) (store : StoreHash) (now : ℕ) :
    Option PublicationRecord × Index :=
  match s.records store with
  | none => (none, s)
  | some record =>
    if record.isExpired now then
      let unlinked := { s with records := Function.update s.records store none }
      (none, record.narFile.elim unlinked fun name => unlinked.unlinkNarNameIfOwner name store)
    else (some record, s)

/-- The listing is that of the record directory, in any order. -/
def expireElapsedRecords (s : Index) (listing : List StoreHash) (now : ℕ) : Index :=
  listing.foldl (fun s store => (s.publicationRecord store now).2) s

def recordedWriter (existing : Option PublicationRecord) : Option Bytes → Except String (Option Bytes)
  | some label =>
    if validLabel label then .ok (some label) else .error "publication writer label is invalid"
  | none => .ok (existing.bind PublicationRecord.writer)

/-- The index after a record was written for a publication with this NAR file. -/
def writeNarName (s : Index) (store : StoreHash) (previous : Option NarFileName)
    (name : NarFileName) : Index :=
  let written := { s with narNames := Function.update s.narNames name (some store) }
  (previous.filter (· ≠ name)).elim written fun previous =>
    written.unlinkNarNameIfOwner previous store

def rememberPublication (s : Index) (listing : List StoreHash) (store : StoreHash)
    (storePath : Bytes) (writer : Option Bytes) (narFile : Option NarFileName) (now : ℕ) :
    Except String Unit × Index :=
  if !singleLine storePath then (.error "publication store path is not a single line", s)
  else
    let s := s.expireElapsedRecords listing now
    let existing := s.records store
    let previous := existing.bind PublicationRecord.narFile
    match recordedWriter existing writer with
    | .error message => (.error message, s)
    | .ok writer =>
      match s.writeRecord store ⟨storePath, unixSeconds now, writer, none, narFile.or previous⟩ with
      | (.error message, s) => (.error message, s)
      | (.ok _, s) => (.ok (), narFile.elim s (s.writeNarName store previous))

def notePublicationRemoved (s : Index) (listing : List StoreHash) (store : StoreHash) (now : ℕ) :
    Except String Unit × Index :=
  let s := s.expireElapsedRecords listing now
  match s.records store with
  | none => (.ok (), s)
  | some record =>
    if record.removedAt.isNone then
      s.writeRecord store { record with removedAt := some (unixSeconds now) }
    else (.ok (), s)

def publishedStoreForNar (s : Index) (name : NarFileName) (now : ℕ) :
    Option (StoreHash × PublicationRecord) × Index :=
  match s.narNames name with
  | none => (none, s)
  | some store =>
    match s.publicationRecord store now with
    | (none, s) => (none, s.unlinkNarNameIfOwner name store)
    | (some record, s) =>
      if record.narFile ≠ some name then (none, s.unlinkNarNameIfOwner name store)
      else (some (store, record), s)

end Index

inductive Event where
  | remember (store : StoreHash) (storePath : Bytes) (writer : Option Bytes)
      (narFile : Option NarFileName)
  | noteRemoved (store : StoreHash)
  | expire
  | record (store : StoreHash)
  | owner (name : NarFileName)

structure Label where
  now : ℕ
  listing : List StoreHash
  event : Event

def next (s : Index) (l : Label) : Index :=
  match l.event with
  | .remember store storePath writer narFile =>
    (s.rememberPublication l.listing store storePath writer narFile l.now).2
  | .noteRemoved store => (s.notePublicationRemoved l.listing store l.now).2
  | .expire => s.expireElapsedRecords l.listing l.now
  | .record store => (s.publicationRecord store l.now).2
  | .owner name => (s.publishedStoreForNar name l.now).2

def Step (s : Index) (l : Label) (s' : Index) : Prop :=
  (∀ store, s.records store ≠ none → store ∈ l.listing) ∧ s' = next s l

/-- An unexpired record of the store names the NAR file. -/
def Index.Holds (s : Index) (now : ℕ) (store : StoreHash) (name : NarFileName) : Prop :=
  ∃ record, s.records store = some record ∧ record.isExpired now = false ∧
    record.narFile = some name

/-- The store is removed, or published with another NAR file. -/
def Event.Withdraws (store : StoreHash) (name : NarFileName) : Event → Prop
  | .remember store' _ _ narFile => store' = store ∧ ∃ other ∈ narFile, other ≠ name
  | .noteRemoved store' => store' = store
  | .expire | .record _ | .owner _ => False

/-- A store to which a NAR file leads is not withdrawn while another one has the NAR file too. -/
def SparingStep (s : Index) (l : Label) (s' : Index) : Prop :=
  Step s l s' ∧ ∀ store name, l.event.Withdraws store name → s.narNames name = some store →
    s.Holds l.now store name → ∀ other, s.Holds l.now other name → other = store

namespace Index

variable {s s' : Index} {store owner other : StoreHash} {name previous : NarFileName} {now : ℕ}
variable {record : PublicationRecord} {listing : List StoreHash}

def nameOf (s : Index) (store : StoreHash) : Option NarFileName :=
  (s.records store).bind PublicationRecord.narFile

def Removed (s : Index) (store : StoreHash) : Prop :=
  (s.records store).bind PublicationRecord.removedAt ≠ none

/-- A name leads to a store that has it, and to a removed one only if no other has it. Every name
of a record leads somewhere. -/
structure Indexed (s : Index) : Prop where
  owned : ∀ {name store}, s.narNames name = some store → s.nameOf store = some name
  found : ∀ {name store}, s.nameOf store = some name → ∃ owner, s.narNames name = some owner
  sole : ∀ {name store}, s.narNames name = some store → s.Removed store →
    ∀ other, s.nameOf other = some name → other = store

theorem indexed_empty : empty.Indexed := ⟨nofun, nofun, nofun⟩

theorem records_withRecord_self : (s.withRecord store record).records store = some record :=
  Function.update_self ..

theorem records_withRecord (h : other ≠ store) :
    (s.withRecord store record).records other = s.records other := Function.update_of_ne h ..

theorem records_unlink : (s.unlinkNarNameIfOwner name store).records = s.records := by
  rw [unlinkNarNameIfOwner]
  split <;> rfl

theorem narNames_unlink : (s.unlinkNarNameIfOwner previous store).narNames name = some owner ↔
    s.narNames name = some owner ∧ ¬(name = previous ∧ owner = store) := by
  rw [unlinkNarNameIfOwner]
  by_cases hp : s.narNames previous = some store
  · simp only [if_pos hp, Function.update_apply]
    by_cases hn : name = previous
    · subst hn
      simp [hp, eq_comm]
    · simp [hn]
  · rw [if_neg hp]
    refine ⟨fun h => ⟨h, ?_⟩, And.left⟩
    rintro ⟨rfl, rfl⟩
    exact hp h

/-- The record of one store goes or gets another name, and the index follows. -/
theorem Indexed.replace (h : s.Indexed) (store : StoreHash)
    (hs : ∀ other ≠ store, s'.records other = s.records other)
    (hd : ¬s'.Removed store) (hn : ∀ name owner, s'.narNames name = some owner ↔
      if s'.nameOf store = some name then owner = store
      else owner ≠ store ∧ s.narNames name = some owner)
    (ho : ∀ name other, s.narNames name = some store → s'.nameOf store ≠ some name →
      s.nameOf other = some name → other = store) : s'.Indexed := by
  refine ⟨fun {name owner} ha => ?_, fun {name other} ha => ?_, fun {name owner} ha hw other hb => ?_⟩
  · rw [hn] at ha
    split at ha
    · rwa [ha]
    · rw [nameOf, hs owner ha.1]
      exact h.owned ha.2
  · by_cases hf : s'.nameOf store = some name
    · exact ⟨store, (hn name store).2 (by rw [if_pos hf])⟩
    have hne : other ≠ store := fun he => hf (he ▸ ha)
    rw [nameOf, hs other hne] at ha
    obtain ⟨owner, hw⟩ := h.found ha
    refine ⟨owner, (hn name owner).2 ?_⟩
    rw [if_neg hf]
    refine ⟨?_, hw⟩
    rintro rfl
    exact hne (ho name other hw hf ha)
  · rw [hn] at ha
    split at ha
    · exact absurd (ha ▸ hw) hd
    · rename_i hf
      have ht : other ≠ store := fun he => hf (he ▸ hb)
      rw [Removed, hs owner ha.1] at hw
      rw [nameOf, hs other ht] at hb
      exact h.sole ha.2 hw other hb

theorem removed_of_expired (hr : s.records store = some record) (he : record.isExpired now = true) :
    s.Removed store := by
  intro hn
  rw [hr, Option.bind_some] at hn
  rw [PublicationRecord.isExpired, hn] at he
  cases he

theorem publicationRecord_cases (s : Index) (store : StoreHash) (now : ℕ) :
    (s.publicationRecord store now = (s.records store, s) ∧
      ∀ record, s.records store = some record → record.isExpired now = false) ∨
    ∃ record s', s.publicationRecord store now = (none, s') ∧ s.records store = some record ∧
      record.isExpired now = true ∧ s'.records = Function.update s.records store none ∧
      ∀ name owner, s'.narNames name = some owner ↔
        s.narNames name = some owner ∧ ¬(record.narFile = some name ∧ owner = store) := by
  rw [publicationRecord]
  cases hr : s.records store with
  | none => exact .inl ⟨rfl, nofun⟩
  | some record =>
    by_cases he : record.isExpired now = true
    · simp only [if_pos he]
      cases hf : record.narFile with
      | none => exact .inr ⟨record, _, rfl, rfl, he, rfl, by simp [hf]⟩
      | some n =>
        refine .inr ⟨record, _, rfl, rfl, he, records_unlink, fun name owner => ?_⟩
        rw [Option.elim_some, narNames_unlink, hf, Option.some_inj, eq_comm (a := n)]
    · simp only [if_neg he]
      refine .inl ⟨trivial, ?_⟩
      rintro _ ⟨rfl⟩
      exact Bool.not_eq_true _ ▸ he

theorem Indexed.publicationRecord (h : s.Indexed) (store : StoreHash) (now : ℕ) :
    (s.publicationRecord store now).2.Indexed := by
  rcases s.publicationRecord_cases store now with ⟨hp, -⟩ | ⟨record, s', hp, hr, he, hs, hn⟩
  · rwa [hp]
  rw [hp]
  have hg : s'.records store = none := by rw [hs, Function.update_self]
  have hw : ∀ name, s.narNames name = some store → record.narFile = some name := by
    intro name ha
    have ho := h.owned ha
    rwa [nameOf, hr] at ho
  refine h.replace store (fun other ho => ?_) ?_ (fun name owner => ?_) fun name other ha _ =>
    h.sole ha (removed_of_expired hr he) other
  · rw [hs, Function.update_of_ne ho]
  · simp [Removed, hg]
  · rw [hn, nameOf, hg]
    grind

theorem Indexed.expireElapsedRecords (h : s.Indexed) :
    (s.expireElapsedRecords listing now).Indexed := by
  induction listing generalizing s with
  | nil => exact h
  | cons store listing ih => exact ih (h.publicationRecord store now)

theorem narNames_expireElapsedRecords
    (h : (s.expireElapsedRecords listing now).narNames name = some owner) :
    s.narNames name = some owner := by
  induction listing generalizing s with
  | nil => exact h
  | cons store listing ih =>
    have hn : (s.publicationRecord store now).2.narNames name = some owner := ih h
    rcases s.publicationRecord_cases store now with ⟨hp, -⟩ | ⟨record, s', hp, -, -, -, hi⟩
    · rwa [hp] at hn
    · rw [hp] at hn
      exact ((hi name owner).1 hn).1

theorem records_publicationRecord
    (h : (s.publicationRecord other now).2.records store = some record) :
    s.records store = some record ∧ (store = other → record.isExpired now = false) := by
  rcases s.publicationRecord_cases other now with ⟨hp, hu⟩ | ⟨r, s', hp, -, -, hs, -⟩
  · rw [hp] at h
    refine ⟨h, ?_⟩
    rintro rfl
    exact hu record h
  · rw [hp, hs, Function.update_apply] at h
    grind

theorem records_expireElapsedRecords
    (h : (s.expireElapsedRecords listing now).records store = some record) :
    s.records store = some record ∧ (store ∈ listing → record.isExpired now = false) := by
  induction listing generalizing s with
  | nil => exact ⟨h, fun hm => absurd hm List.not_mem_nil⟩
  | cons other listing ih =>
    obtain ⟨hs, hl⟩ := ih h
    obtain ⟨hr, he⟩ := records_publicationRecord hs
    exact ⟨hr, fun hm => (List.mem_cons.1 hm).elim he hl⟩

/-- A sweep of the whole directory leaves unexpired records only. -/
theorem holds_of_swept (hl : ∀ store, s.records store ≠ none → store ∈ listing)
    (h : (s.expireElapsedRecords listing now).nameOf store = some name) :
    s.Holds now store name := by
  obtain ⟨record, hr, hf⟩ := Option.bind_eq_some_iff.1 h
  obtain ⟨hs, he⟩ := records_expireElapsedRecords hr
  refine ⟨record, hs, he (hl store ?_), hf⟩
  rw [hs]
  exact Option.some_ne_none _

theorem Indexed.rewrite (h : s.Indexed) (hn : record.narFile = s.nameOf store)
    (hd : record.removedAt ≠ none → ∀ name other, s.narNames name = some store →
      s.nameOf other = some name → other = store) : (s.withRecord store record).Indexed := by
  have hm : ∀ other, (s.withRecord store record).nameOf other = s.nameOf other := by
    intro other
    by_cases ho : other = store
    · subst ho
      rw [nameOf, records_withRecord_self]
      exact hn
    · rw [nameOf, records_withRecord ho, nameOf]
  refine ⟨fun ha => ?_, fun ha => ?_, fun {name owner} ha hw other hb => ?_⟩
  · rw [hm]
    exact h.owned ha
  · rw [hm] at ha
    exact h.found ha
  · rw [hm] at hb
    by_cases ho : owner = store
    · subst ho
      rw [Removed, records_withRecord_self] at hw
      exact hd hw name other ha hb
    · rw [Removed, records_withRecord ho] at hw
      exact h.sole ha hw other hb

theorem writeNarName_spec (s : Index) (store : StoreHash) (previous : Option NarFileName)
    (name : NarFileName) :
    (s.writeNarName store previous name).records = s.records ∧
      ∀ n owner, (s.writeNarName store previous name).narNames n = some owner ↔
        if n = name then owner = store
        else s.narNames n = some owner ∧ ¬(previous = some n ∧ owner = store) := by
  rw [writeNarName]
  cases hp : previous.filter (· ≠ name) with
  | none =>
    refine ⟨rfl, fun n owner => ?_⟩
    simp only [Option.elim_none, Function.update_apply]
    grind [Option.filter_eq_none_iff]
  | some p =>
    obtain ⟨rfl, hne⟩ := Option.filter_eq_some_iff.1 hp
    refine ⟨records_unlink, fun n owner => ?_⟩
    rw [Option.elim_some, narNames_unlink]
    simp only [Function.update_apply]
    grind

theorem Indexed.writeNarName (h : s.Indexed) (hn : record.narFile = some name)
    (hd : record.removedAt = none)
    (ho : ∀ previous other, previous ≠ name → s.narNames previous = some store →
      s.nameOf other = some previous → other = store) :
    ((s.withRecord store record).writeNarName store (s.nameOf store) name).Indexed := by
  have hw : ∀ n, s.narNames n = some store → s.nameOf store = some n := fun _ => h.owned
  obtain ⟨hr, hm⟩ := (s.withRecord store record).writeNarName_spec store (s.nameOf store) name
  generalize (s.withRecord store record).writeNarName store (s.nameOf store) name = s' at hr hm ⊢
  have hf : s'.records store = some record := by rw [hr, records_withRecord_self]
  have hg : s'.nameOf store = some name := by rw [nameOf, hf, Option.bind_some, hn]
  refine h.replace store (fun other hne => ?_) ?_ (fun n owner => ?_) fun n other ha hne => ?_
  · rw [hr, records_withRecord hne]
  · simp [Removed, hf, hd]
  · rw [hm, hg]
    simp only [withRecord]
    grind
  · exact ho n other (fun he => hne (he ▸ hg)) ha

theorem Indexed.publishedStoreForNar (h : s.Indexed) (name : NarFileName) (now : ℕ) :
    (s.publishedStoreForNar name now).2.Indexed := by
  rw [Index.publishedStoreForNar]
  cases hn : s.narNames name with
  | none => exact h
  | some store =>
    have hw := h.publicationRecord store now
    obtain ⟨record, hr, hf⟩ := Option.bind_eq_some_iff.1 (h.owned hn)
    dsimp only
    rcases s.publicationRecord_cases store now with ⟨hp, -⟩ | ⟨r, s', hp, hs, -, -, hg⟩
    · simpa only [hp, hr, hf, ne_eq, not_true_eq_false, if_false] using h
    · -- The name has gone with the record.
      cases hr.symm.trans hs
      rw [hp] at hw ⊢
      have hu : s'.narNames name ≠ some store := fun ho => ((hg name store).1 ho).2 ⟨hf, rfl⟩
      simpa only [unlinkNarNameIfOwner, if_neg hu] using hw

end Index

section Runs

variable {s s' : Index} {l : Label} {labels : List Label}

theorem SparingStep.indexed (step : SparingStep s l s') (h : s.Indexed) : s'.Indexed := by
  obtain ⟨⟨hl, rfl⟩, hs⟩ := step
  obtain ⟨now, listing, event⟩ := l
  have he : (s.expireElapsedRecords listing now).Indexed := h.expireElapsedRecords
  -- The owner of a name that is withdrawn has it alone.
  have hw : ∀ store name other, event.Withdraws store name →
      (s.expireElapsedRecords listing now).narNames name = some store →
      (s.expireElapsedRecords listing now).nameOf other = some name → other = store :=
    fun store name other hd hn ho => hs store name hd (Index.narNames_expireElapsedRecords hn)
      (Index.holds_of_swept hl (he.owned hn)) other (Index.holds_of_swept hl ho)
  cases event with
  | remember store storePath writer narFile =>
    simp only [next, Index.rememberPublication]
    split
    · exact h
    split
    · exact he
    simp only [Index.writeRecord]
    split
    · rename_i hb
      split at hb <;> cases hb
      exact he
    · rename_i hb
      split at hb <;> cases hb
      cases narFile with
      | none => exact he.rewrite rfl fun hn => absurd rfl hn
      | some name =>
        refine he.writeNarName rfl rfl fun previous other hn => ?_
        exact hw store previous other ⟨rfl, name, rfl, hn.symm⟩
  | noteRemoved store =>
    simp only [next, Index.notePublicationRemoved]
    split
    · exact he
    split
    · simp only [Index.writeRecord]
      split
      · exact he
      · rename_i record hr _ _ _ _
        refine he.rewrite ?_ fun _ name other => hw store name other rfl
        rw [Index.nameOf, hr]
        rfl
    · exact he
  | expire => exact he
  | record store => exact h.publicationRecord store now
  | owner name => exact h.publishedStoreForNar name now

/-- As long as no store to which a NAR file leads, while another one has the NAR file too, is removed
or published with another NAR file, the owner of a NAR file that an unexpired record names is
found. -/
theorem named_nar_is_found (hrun : Run SparingStep .empty labels s) {now : ℕ} {name}
    (hname : ∃ store, s.Holds now store name) :
    ∃ store record, (s.publishedStoreForNar name now).1 = some (store, record) ∧
      s.records store = some record ∧ record.isExpired now = false ∧
      record.narFile = some name := by
  have h := hrun.invariant Index.indexed_empty fun _ _ _ hi hs => hs.indexed hi
  obtain ⟨other, unexpired, hu, hv, hf⟩ := hname
  have hn : s.nameOf other = some name := by rw [Index.nameOf, hu, Option.bind_some, hf]
  obtain ⟨store, ho⟩ := h.found hn
  obtain ⟨record, hr, hm⟩ := Option.bind_eq_some_iff.1 (h.owned ho)
  have he : record.isExpired now = false := by
    by_contra hb
    rw [Bool.not_eq_false] at hb
    cases h.sole ho (Index.removed_of_expired hr hb) other hn
    cases hr.symm.trans hu
    rw [hv] at hb
    cases hb
  refine ⟨store, record, ?_, hr, he, hm⟩
  simp [Index.publishedStoreForNar, Index.publicationRecord, ho, hr, he, hm]

end Runs

section Sample

set_option maxRecDepth 2000

def firstStore : StoreHash := ⟨_, valid_zeros⟩
def secondStore : StoreHash := ⟨_, valid_ones⟩
def sampleNar : NarFileName := .raw ⟨List.replicate 32 0, length_zeros⟩
def sampleRecord : PublicationRecord := ⟨[47], 0, none, none, some sampleNar⟩

def publish (listing : List StoreHash) (store : StoreHash) : Label :=
  ⟨0, listing, .remember store [47] none (some sampleNar)⟩

theorem publish_firstStore : Step .empty (publish [] firstStore) (next .empty (publish [] firstStore)) :=
  ⟨fun _ hr => absurd rfl hr, rfl⟩

abbrev sharedIndex : Index :=
  next (next .empty (publish [] firstStore)) (publish [firstStore] secondStore)

theorem records_sharedIndex : sharedIndex.records = Function.update (Function.update (fun _ => none)
    firstStore (some sampleRecord)) secondStore (some sampleRecord) := rfl

theorem publish_secondStore : Step (next .empty (publish [] firstStore))
    (publish [firstStore] secondStore) sharedIndex := by
  refine ⟨fun store hr => ?_, rfl⟩
  have hf : (next .empty (publish [] firstStore)).records =
      Function.update (fun _ => none) firstStore (some sampleRecord) := rfl
  rw [hf, Function.update_apply] at hr
  simp only [publish]
  grind

def remove (store : StoreHash) : Label := ⟨0, [firstStore, secondStore], .noteRemoved store⟩

theorem remove_sharedStore (store : StoreHash) :
    Step sharedIndex (remove store) (next sharedIndex (remove store)) := by
  refine ⟨fun store hr => ?_, rfl⟩
  rw [records_sharedIndex, Function.update_apply, Function.update_apply] at hr
  simp only [remove]
  grind

def sweep : Label := ⟨retention + 1, [firstStore, secondStore], .expire⟩

/-- Two stores share a NAR file, and the first one, to which it does not lead any more, is removed.
A sweep after a week takes the record of the first store away, and the second one is found. -/
theorem secondStore_is_found : ∃ s store record,
    Run SparingStep .empty [publish [] firstStore, publish [firstStore] secondStore,
      remove firstStore, sweep] s ∧ s.records firstStore = none ∧
      (s.publishedStoreForNar sampleNar (retention + 1)).1 = some (store, record) := by
  have hf : SparingStep .empty (publish [] firstStore) _ :=
    ⟨publish_firstStore, fun _ _ _ hn => by cases hn⟩
  have hs : SparingStep (next .empty (publish [] firstStore)) (publish [firstStore] secondStore)
      sharedIndex := by
    refine ⟨publish_secondStore, fun store name hw hn => ?_⟩
    obtain ⟨rfl, other, -, -⟩ := hw
    have hi : (next .empty (publish [] firstStore)).narNames =
        Function.update (fun _ => none) sampleNar (some firstStore) := rfl
    rw [hi, Function.update_apply] at hn
    split_ifs at hn
    exact absurd hn (by decide)
  have hr : SparingStep sharedIndex (remove firstStore) (next sharedIndex (remove firstStore)) := by
    refine ⟨remove_sharedStore firstStore, fun store name hw hn => ?_⟩
    have hi : sharedIndex.narNames = Function.update (Function.update (fun _ => none) sampleNar
      (some firstStore)) sampleNar (some secondStore) := rfl
    cases hw
    rw [hi, Function.update_idem, Function.update_apply] at hn
    split_ifs at hn
    exact absurd hn (by decide)
  have he : SparingStep (next sharedIndex (remove firstStore)) sweep
      (next (next sharedIndex (remove firstStore)) sweep) := by
    refine ⟨⟨fun store ho => ?_, rfl⟩, fun _ _ hw => hw.elim⟩
    have hi : (next sharedIndex (remove firstStore)).records = Function.update
        sharedIndex.records firstStore (some { sampleRecord with removedAt := some 0 }) := rfl
    rw [hi, records_sharedIndex] at ho
    simp only [Function.update_apply] at ho
    simp only [sweep]
    grind
  have hu := (((Run.single hf).tail hs).tail hr).tail he
  have hh : (next (next sharedIndex (remove firstStore)) sweep).Holds (retention + 1) secondStore
      sampleNar := ⟨sampleRecord, by decide +kernel, by decide, rfl⟩
  obtain ⟨store, record, hl, -⟩ := named_nar_is_found hu ⟨secondStore, hh⟩
  exact ⟨_, store, record, hu, by decide +kernel, hl⟩

/-- Two stores share a NAR file and the second one is removed. After a week the first one still
names the file, and nothing is found. -/
theorem shared_nar_is_lost : ∃ s,
    Run Step .empty [publish [] firstStore, publish [firstStore] secondStore,
      remove secondStore] s ∧ s.Holds (retention + 1) firstStore sampleNar ∧
      (s.publishedStoreForNar sampleNar (retention + 1)).1 = none := by
  refine ⟨_, ((Run.single publish_firstStore).tail publish_secondStore).tail
    (remove_sharedStore secondStore), ⟨sampleRecord, by decide +kernel, by decide, rfl⟩, ?_⟩
  decide +kernel

end Sample

end PublicationIndex
