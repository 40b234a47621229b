import Narjar.PublicationJournal

/-!
# What a publication may leave on the disk

One invariant holds before and after every single operation of a publication. It speaks about
what a crash may leave: every journal record can be recovered, every temporary file of the
publication is named by a record that is sure to survive, and the destination is as it was or
complete.
-/
namespace PublicationJournal

open ByteCodecs CrashDisk

section Places

theorem StorePath.directory_ne_transactions (p : StorePath) : p.directory ≠ .transactions := by
  cases p <;> simp [StorePath.directory]

theorem TemporaryPath.directory_ne_transactions (t : TemporaryPath) :
    t.directory ≠ .transactions := by
  cases t <;> simp [TemporaryPath.directory]

theorem StorePath.directory_ne_temporary (p : StorePath) (t : TemporaryPath) :
    p.directory ≠ t.directory := by
  cases p <;> cases t <;> simp [StorePath.directory, TemporaryPath.directory]

theorem StorePath.eq_of_location {p q : StorePath} (hd : p.directory = q.directory)
    (hn : p.name = q.name) : p = q := by
  cases p <;> cases q <;> simp_all [StorePath.directory, StorePath.name, StorePath.text]

theorem TemporaryPath.eq_of_location {t u : TemporaryPath} (hd : t.directory = u.directory)
    (hn : t.name = u.name) : t = u := by
  cases t <;> cases u <;> simp_all [TemporaryPath.directory, TemporaryPath.name]

end Places

/-- A crash cannot make the path disappear. -/
def Durable (p : StorePath) (d : StoreDisk) : Prop := none ∉ d.may p.directory p.name

/-- A synced file that parses as a record. -/
def Reads (codec : RecordCodec) (d : StoreDisk) (i : ℕ) (record : TransactionRecord) : Prop :=
  (d.files i).synced = true ∧ parseTransaction codec (d.files i).contents = .ok record

/-- Whatever a crash leaves in the journal directory can be recovered. -/
def Recoverable (codec : RecordCodec) (d : StoreDisk) : Prop :=
  ∀ name i, some i ∈ d.may .transactions name →
    (∃ n k, name = .draft n k) ∨
      ∃ n record, name = .record n ∧ Reads codec d i record ∧
        ∀ p, record.state = .published p → Durable p d

/-- A crash leaves the record, and the record names the temporary file. -/
def Covers (codec : RecordCodec) (n : RecordName) (t : TemporaryPath) (d : StoreDisk) : Prop :=
  none ∉ d.may .transactions (.record n) ∧
    ∀ i, some i ∈ d.may .transactions (.record n) → ∃ state, Reads codec d i ⟨t, state⟩

structure Setting where
  codec : RecordCodec
  before : StoreDisk
  destination : PublicationDestination
  source : Bytes

namespace Setting

variable (S : Setting)

def path : StorePath := S.destination.path

structure Safe (d : StoreDisk) : Prop where
  recoverable : Recoverable S.codec d
  nextFile_le : S.before.nextFile ≤ d.nextFile
  files_eq : ∀ i < S.before.nextFile, d.files i = S.before.files i
  published : ∀ (p : StorePath) x, x ∈ d.may p.directory p.name →
    x ∈ S.before.may p.directory p.name ∨
      (p = S.path ∧ ∃ i, x = some i ∧ d.files i = ⟨S.source, true⟩)
  covered : ∀ (t : TemporaryPath) i, some i ∈ d.may t.directory t.name →
    S.before.nextFile ≤ i → ∃ n, Covers S.codec n t d
  kept : S.destination.publication = .link →
    ∀ i, S.before.entry S.path.directory S.path.name = some i →
      d.entry S.path.directory S.path.name = some i ∧
        ∀ x ∈ d.may S.path.directory S.path.name, x ∈ S.before.may S.path.directory S.path.name

def NoTemp (d : StoreDisk) : Prop :=
  ∀ (t : TemporaryPath) i, some i ∈ d.may t.directory t.name → i < S.before.nextFile

def OnlyTemp (t : TemporaryPath) (d : StoreDisk) : Prop :=
  ∀ (u : TemporaryPath) i, some i ∈ d.may u.directory u.name → S.before.nextFile ≤ i → u = t

/-- Once the destination was durable it stays so. -/
def Latched (s : Storage) : Prop := ∀ d ∈ s.history, Durable S.path d → Durable S.path s.disk

/-- A condition on the disk together with the history. -/
def On (A : StoreDisk → Prop) (s : Storage) : Prop := S.Latched s ∧ A s.disk

variable {S} {d d' d₁ : StoreDisk} {n : RecordName} {t : TemporaryPath} {contents : Bytes}

theorem safe_before (h : Recoverable S.codec S.before) : S.Safe S.before where
  recoverable := h
  nextFile_le := le_rfl
  files_eq := fun _ _ => rfl
  published := fun _ _ => .inl
  covered := by
    intro t i hi hn
    have ho := S.before.linked _ _ _ hi
    omega
  kept := fun _ _ hi => ⟨hi, fun _ => id⟩

theorem noTemp_before : S.NoTemp S.before := fun _ i hi => S.before.linked _ _ i hi

variable {p : StorePath} {place : Place} {name : Name}

theorem durable_of_subset (h : Durable p d)
    (hm : d'.may p.directory p.name ⊆ d.may p.directory p.name) : Durable p d' :=
  fun hn => h (hm hn)

theorem durable_of_directory_eq (h : Durable p d)
    (hd : d'.directories p.directory = d.directories p.directory) : Durable p d' :=
  durable_of_subset h fun x hx => by rwa [Disk.may, hd] at hx

/-- Syncing, and unlinking what need not be there, keep the invariant. A record is only unlinked
when no temporary file depends on it. -/
theorem Safe.shrink (h : S.Safe d) (hf : d'.files = d.files) (hne : d'.nextFile = d.nextFile)
    (hm : ∀ place name x, x ∈ d'.may place name → x ∈ d.may place name ∨
      (x = none ∧ (∀ p : StorePath, place ≠ p.directory) ∧
        ∀ n, place = .transactions → name = .record n → S.NoTemp d))
    (hen : S.destination.publication = .link →
      S.before.entry S.path.directory S.path.name ≠ none →
        d'.entry S.path.directory S.path.name = d.entry S.path.directory S.path.name) :
    S.Safe d' := by
  have hs : ∀ place name i, some i ∈ d'.may place name → some i ∈ d.may place name := by
    intro place name i hi
    exact (hm place name _ hi).resolve_right fun hn => nomatch hn.1
  have ht : ∀ (p : StorePath) x, x ∈ d'.may p.directory p.name → x ∈ d.may p.directory p.name := by
    intro p x hx
    exact (hm _ _ x hx).resolve_right fun hh => hh.2.1 p rfl
  have hd : ∀ p, Durable p d → Durable p d' := fun p hp => durable_of_subset hp (ht p)
  have he : ∀ i record, Reads S.codec d i record → Reads S.codec d' i record := by
    intro i record hi
    rwa [Reads, hf]
  refine ⟨?_, ?_, ?_, ?_, ?_, ?_⟩
  · intro name i hi
    refine (h.recoverable name i (hs _ _ _ hi)).imp id ?_
    rintro ⟨n, record, ha, hr, hu⟩
    exact ⟨n, record, ha, he _ _ hr, fun p hp => hd p (hu p hp)⟩
  · rw [hne]
    exact h.nextFile_le
  · intro i hi
    rw [hf]
    exact h.files_eq i hi
  · intro p x hx
    rw [hf]
    exact h.published p x (ht p x hx)
  · intro t i hi hw
    have ho := hs _ _ _ hi
    obtain ⟨n, hpr, hna⟩ := h.covered t i ho hw
    refine ⟨n, ?_, fun j hj => ?_⟩
    · intro hn
      rcases hm _ _ _ hn with hg | ⟨-, -, hr⟩
      · exact hpr hg
      · have hlt := hr n rfl rfl t i ho
        omega
    · obtain ⟨state, hst⟩ := hna j (hs _ _ _ hj)
      exact ⟨state, he _ _ hst⟩
  · intro hl i hi
    obtain ⟨hv, hpo⟩ := h.kept hl i hi
    refine ⟨?_, fun x hx => hpo x (ht _ x hx)⟩
    rw [hen hl (by rw [hi]; exact Option.some_ne_none i), hv]

theorem Safe.syncDirectory (h : S.Safe d) (place : Place) : S.Safe (d.syncDirectory place) :=
  h.shrink rfl rfl (fun _ _ _ hx => .inl (Disk.may_syncDirectory_subset hx))
    fun _ _ => Disk.entry_syncDirectory

theorem NoTemp.syncDirectory (h : S.NoTemp d) (place : Place) : S.NoTemp (d.syncDirectory place) :=
  fun t i hi => h t i (Disk.may_syncDirectory_subset hi)

theorem OnlyTemp.syncDirectory (h : S.OnlyTemp t d) (place : Place) :
    S.OnlyTemp t (d.syncDirectory place) := fun u i hi => h u i (Disk.may_syncDirectory_subset hi)

theorem some_mem_may_unlink
    (h : some i ∈ (d.unlink place name).may other name') : some i ∈ d.may other name' :=
  (Disk.mem_may_unlink.1 h).resolve_right fun hn => nomatch hn.2.2

theorem OnlyTemp.unlink (h : S.OnlyTemp t d) (place : Place) (name : Name) :
    S.OnlyTemp t (d.unlink place name) := fun u i hi => h u i (some_mem_may_unlink hi)

theorem Safe.unlink (h : S.Safe d) (hp : ∀ p : StorePath, place ≠ p.directory)
    (hr : ∀ n, place = .transactions → name = .record n → S.NoTemp d) :
    S.Safe (d.unlink place name) := by
  refine h.shrink rfl rfl ?_ ?_
  · intro other name' x hx
    refine (Disk.mem_may_unlink.1 hx).imp id ?_
    rintro ⟨rfl, rfl, rfl⟩
    exact ⟨rfl, hp, hr⟩
  · intro _ _
    rw [Disk.entry_unlink, if_neg fun hs => hp S.path hs.1.symm]

theorem Safe.unlink_temporary (h : S.Safe d) (t : TemporaryPath) :
    S.Safe (d.unlink t.directory t.name) := h.unlink (fun p => (p.directory_ne_temporary t).symm)
    fun _ hp _ => absurd hp t.directory_ne_transactions

theorem Safe.unlink_record (h : S.Safe d) (hn : S.NoTemp d) (n : RecordName) :
    S.Safe (d.unlink .transactions (.record n)) :=
  h.unlink (fun p => p.directory_ne_transactions.symm) fun _ _ _ => hn

theorem Safe.unlink_destination (h : S.Safe d) (hn : none ∈ d.may S.path.directory S.path.name)
    (hb : S.destination.publication = .link → S.before.entry S.path.directory S.path.name = none) :
    S.Safe (d.unlink S.path.directory S.path.name) := by
  refine h.shrink rfl rfl ?_ ?_
  · intro place name x hx
    rcases Disk.mem_may_unlink.1 hx with ho | ⟨rfl, rfl, rfl⟩
    · exact .inl ho
    · exact .inl hn
  · intro hl hp
    exact absurd (hb hl) hp

section Files

variable {f : ℕ} {file : File Bytes}

variable {codec : RecordCodec} {place : Place} {name : Name} {i : ℕ} {record : TransactionRecord}

theorem Reads.replaceFile (h : Reads codec d i record) (hne : i ≠ f) :
    Reads codec (d.replaceFile f file) i record := by
  rwa [Reads, Disk.files_replaceFile_of_ne hne]

theorem Covers.replaceFile (h : Covers codec n t d) (hu : some f ∉ d.may .transactions (.record n)) :
    Covers codec n t (d.replaceFile f file) := by
  refine ⟨h.1, fun i hi => ?_⟩
  obtain ⟨state, hs⟩ := h.2 i hi
  refine ⟨state, Reads.replaceFile hs ?_⟩
  rintro rfl
  exact hu hi

theorem Safe.replaceFile (h : S.Safe d) (he : S.before.nextFile ≤ f)
    (hu : ∀ n, some f ∉ d.may .transactions (.record n))
    (hun : ∀ p : StorePath, some f ∉ d.may p.directory p.name) :
    S.Safe (d.replaceFile f file) where
  recoverable := by
    intro name i hi
    refine (h.recoverable name i hi).imp id ?_
    rintro ⟨n, record, rfl, hr, hp⟩
    refine ⟨n, record, rfl, Reads.replaceFile hr ?_, hp⟩
    rintro rfl
    exact hu n hi
  nextFile_le := h.nextFile_le
  files_eq := by
    intro i hi
    rw [Disk.files_replaceFile_of_ne (by omega)]
    exact h.files_eq i hi
  published := by
    intro p x hx
    refine (h.published p x hx).imp id ?_
    rintro ⟨rfl, i, rfl, hf⟩
    refine ⟨rfl, i, rfl, ?_⟩
    rwa [Disk.files_replaceFile_of_ne]
    rintro rfl
    exact hun _ hx
  covered := by
    intro t i hi hi'
    obtain ⟨n, hn⟩ := h.covered t i hi hi'
    exact ⟨n, Covers.replaceFile hn (hu n)⟩
  kept := h.kept

theorem Reads.create (h : Reads codec d i record) (hi : i < d.nextFile) :
    Reads codec (d.create place name contents) i record := by
  rwa [Reads, Disk.files_create_of_lt hi]

theorem mem_may_create_of_ne
    (hne : ¬(other = place ∧ name = name')) :
    x ∈ (d.create place name contents).may other name' ↔ x ∈ d.may other name' := by
  rw [Disk.mem_may_create]
  exact or_iff_left fun hs => hne ⟨hs.1, hs.2.1⟩

theorem Covers.create (h : Covers codec n t d) (hne : ¬(.transactions = place ∧ name = .record n)) :
    Covers codec n t (d.create place name contents) := by
  refine ⟨fun hn => h.1 ((mem_may_create_of_ne hne).1 hn), fun i hi => ?_⟩
  have ho := (mem_may_create_of_ne hne).1 hi
  obtain ⟨state, hs⟩ := h.2 i ho
  exact ⟨state, Reads.create hs (d.linked _ _ _ ho)⟩

theorem Safe.create_temporary (h : S.Safe d) (hc : Covers S.codec n t d) :
    S.Safe (d.create t.directory t.name contents) := by
  have hj : ∀ name : Name, ¬(Place.transactions = t.directory ∧ t.name = name) :=
    fun _ hs => t.directory_ne_transactions hs.1.symm
  have ht : ∀ (p : StorePath) (name : Name), ¬(p.directory = t.directory ∧ t.name = name) :=
    fun p _ hs => p.directory_ne_temporary t hs.1
  refine ⟨?_, ?_, ?_, ?_, ?_, ?_⟩
  · intro name i hi
    have ho := (mem_may_create_of_ne (hj name)).1 hi
    refine (h.recoverable name i ho).imp id ?_
    rintro ⟨n, record, hn, hr, hu⟩
    refine ⟨n, record, hn, Reads.create hr (d.linked _ _ _ ho), fun p hp hno => ?_⟩
    exact hu p hp ((mem_may_create_of_ne (ht p _)).1 hno)
  · exact h.nextFile_le.trans (Nat.le_succ _)
  · intro i hi
    rw [Disk.files_create_of_lt (hi.trans_le h.nextFile_le)]
    exact h.files_eq i hi
  · intro p x hx
    have ho := (mem_may_create_of_ne (ht p _)).1 hx
    refine (h.published p x ho).imp id ?_
    rintro ⟨hp, i, rfl, hf⟩
    refine ⟨hp, i, rfl, ?_⟩
    rwa [Disk.files_create_of_lt (d.linked _ _ _ ho)]
  · intro u i hi he
    rcases Disk.mem_may_create.1 hi with ho | ⟨hd, hn, -⟩
    · obtain ⟨m, hm⟩ := h.covered u i ho he
      exact ⟨m, Covers.create hm (hj _)⟩
    · rw [TemporaryPath.eq_of_location hd hn.symm]
      exact ⟨n, Covers.create hc (hj _)⟩
  · intro hl i hi
    obtain ⟨hv, hpo⟩ := h.kept hl i hi
    refine ⟨?_, fun x hx => hpo x ((mem_may_create_of_ne (ht _ _)).1 hx)⟩
    rw [Disk.entry_create, if_neg fun hs => ht S.path _ ⟨hs.1, hs.2.symm⟩]
    exact hv

/-- The complete file appears at the destination, which a link-type publication only does when
nothing stands there. -/
theorem Safe.link_destination (h : S.Safe d) (hf : f < d.nextFile)
    (hfi : d.files f = ⟨S.source, true⟩)
    (hk : S.destination.publication = .link → d.entry S.path.directory S.path.name = none) :
    S.Safe (d.link S.path.directory S.path.name f hf) := by
  have ho : ∀ name x, x ∈ (d.link S.path.directory S.path.name f hf).may .transactions name →
      x ∈ d.may .transactions name := by
    intro name x hx
    exact (Disk.mem_may_link.1 hx).resolve_right fun hs =>
      S.path.directory_ne_transactions hs.1.symm
  have hr : ∀ p, Durable p d → Durable p (d.link S.path.directory S.path.name f hf) := by
    intro p hp he
    exact hp ((Disk.mem_may_link.1 he).resolve_right fun hs => nomatch hs.2.2)
  refine ⟨?_, h.nextFile_le, h.files_eq, ?_, ?_, ?_⟩
  · intro name i hi
    refine (h.recoverable name i (ho _ _ hi)).imp id ?_
    rintro ⟨n, record, hn, hc, hb⟩
    exact ⟨n, record, hn, hc, fun p hp => hr p (hb p hp)⟩
  · intro p x hx
    rcases Disk.mem_may_link.1 hx with hl | ⟨hd, hn, rfl⟩
    · exact h.published p x hl
    · exact .inr ⟨StorePath.eq_of_location hd hn.symm, f, rfl, hfi⟩
  · intro u i hi hw
    have hl := (Disk.mem_may_link.1 hi).resolve_right fun hs =>
      S.path.directory_ne_temporary u hs.1.symm
    obtain ⟨m, hpr, ha⟩ := h.covered u i hl hw
    exact ⟨m, fun he => hpr (ho _ _ he), fun j hj => ha j (ho _ _ hj)⟩
  · intro hu i hi
    have hv := (h.kept hu i hi).1
    rw [hk hu] at hv
    cases hv

end Files

end Setting

end PublicationJournal
