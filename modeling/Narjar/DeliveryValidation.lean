import Narjar.LabelledRuns
import Narjar.ObjectNames
import Narjar.ProofCaches

/-!
# The cache of delivery proofs

Before a NAR file is served its contents are hashed, and the identity found is kept together
with a stamp of the file, so that the next delivery of the same file need not hash it. Hashing
is a sequence of reads during which the file may be changed in place. The stamp is taken when
the identity is kept, after the hashing: a proof speaks about contents that had its stamp only
if the file was left alone in between.
-/
namespace DeliveryValidation

open ByteCodecs ManifestFormat ObjectNames LabelledRuns ProofCaches

structure FileIdentity where
  volume : ℕ
  object : ℕ
  deriving DecidableEq

structure FileStamp where
  identity : FileIdentity
  size : ℕ
  modified : ℤ
  changed : ℤ
  deriving DecidableEq

structure FileState where
  identity : FileIdentity
  contents : Bytes
  modified : ℤ
  changed : ℤ
  deriving DecidableEq

def FileState.stamp (file : FileState) : FileStamp :=
  ⟨file.identity, file.contents.length, file.modified, file.changed⟩

structure DeliveryProof where
  stamp : FileStamp
  identity : NarIdentity
  deriving DecidableEq

/-- The proofs by name, with the names in the order in which they came. -/
structure DeliveryProofs extends Proofs NarFileName DeliveryProof where
  consistent : toProofs.Consistent deliveryValidationCacheCapacity

namespace DeliveryProofs

def empty : DeliveryProofs := ⟨⟨∅, []⟩, .refl _, Nat.zero_le _⟩

def get (proofs : DeliveryProofs) (name : NarFileName) (stamp : FileStamp) : Option NarIdentity :=
  ((proofs.byKey.lookup name).filter fun proof => proof.stamp = stamp).map DeliveryProof.identity

/-- The insertion into a consistent cache does not panic. -/
def insert (proofs : DeliveryProofs) (name : NarFileName) (proof : DeliveryProof) : DeliveryProofs :=
  match hinsert : proofs.toProofs.insert name proof with
  | some next => ⟨next, insert_consistent proofs.consistent hinsert⟩
  | none => absurd hinsert (insert_ne_none proofs.consistent name proof)

variable {proofs : DeliveryProofs} {name name' : NarFileName} {proof proof' : DeliveryProof}

theorem lookup_of_insert (h : (proofs.insert name proof).byKey.lookup name' = some proof') :
    (name' = name ∧ proof' = proof) ∨ proofs.byKey.lookup name' = some proof' := by
  unfold insert at h
  split at h
  · next hi => exact Proofs.lookup_of_insert hi h
  · next hi => exact absurd hi (insert_ne_none proofs.consistent name proof)

theorem get_eq_some
    (h : proofs.get name stamp = some identity) :
    proofs.byKey.lookup name = some ⟨stamp, identity⟩ := by
  obtain ⟨proof, hf, rfl⟩ := Option.map_eq_some_iff.1 h
  obtain ⟨hl, hs⟩ := Option.filter_eq_some_iff.1 hf
  rw [hl, ← of_decide_eq_true hs]

end DeliveryProofs

structure Hashing where
  sha256 : Bytes → Digest
  decode : CompressionCodec → Bytes → Option Bytes

/-- The identity of a NAR file with these contents, if they are what the name says. -/
def identify (H : Hashing) (name : NarFileName) (contents : Bytes) : Option NarIdentity :=
  if H.sha256 contents = name.fileHash then
    match name.encoding with
    | .raw => some ⟨name.fileHash, contents.length⟩
    | .compressed codec => (H.decode codec contents).map fun nar => ⟨H.sha256 nar, nar.length⟩
  else none

inductive ValidationError where
  | narMismatch
  | io
  deriving DecidableEq

/-- Where a call of `validated_delivery_identity` is. A compressed file is read twice, first to
hash it and then to decode it. -/
inductive Phase where
  | opened
  | looking (stamp : FileStamp)
  | measuring
  | measured (size : ℕ)
  | hashing (size : ℕ) (read : Bytes)
  | decoding (codec : CompressionCodec) (read : Bytes)
  | stamping (identity : NarIdentity)
  | recording (identity : NarIdentity) (stamp : FileStamp)
  | served (stamp : FileStamp) (identity : NarIdentity)
  | returned (identity : NarIdentity)
  | failed (error : ValidationError)
  deriving DecidableEq

def Phase.reading : Phase → Bool
  | hashing _ _ | decoding _ _ => true
  | _ => false

/-- `observed` lists what the file was while it was read. No step depends on it. -/
structure Validation where
  name : NarFileName
  file : ℕ
  phase : Phase
  observed : List FileState
  deriving DecidableEq

/-- A proof that was kept, with what the file was while it was read. -/
structure Evidence where
  name : NarFileName
  proof : DeliveryProof
  observed : List FileState
  deriving DecidableEq

/-- The open files, the cache, the running calls and all proofs that were ever kept. -/
structure World where
  files : ℕ → FileState
  proofs : DeliveryProofs
  validations : ℕ → Option Validation
  recorded : List Evidence

/-- At the end of the file the hash is compared. -/
def afterHashing (H : Hashing) (name : NarFileName) (size : ℕ) (read : Bytes) : Phase :=
  if H.sha256 read = name.fileHash then
    match name.encoding with
    | .raw => .stamping ⟨name.fileHash, size⟩
    | .compressed codec => .decoding codec []
  else .failed .narMismatch

def afterDecoding (H : Hashing) (codec : CompressionCodec) (read : Bytes) : Phase :=
  match H.decode codec read with
  | some nar => .stamping ⟨H.sha256 nar, nar.length⟩
  | none => .failed .narMismatch

def nextBytes (file : FileState) (read : Bytes) (count : ℕ) : Bytes :=
  (file.contents.drop read.length).take (count + 1)

/-- The next phase, which depends on the file and the cache as they are now. -/
def Validation.advance (H : Hashing) (v : Validation) (file : FileState) (proofs : DeliveryProofs)
    (count : ℕ) : Option Validation :=
  match v.phase with
  | .opened => some { v with phase := .looking file.stamp }
  | .looking stamp =>
    match proofs.get v.name stamp with
    | some identity => some { v with phase := .served stamp identity }
    | none => some { v with phase := .measuring }
  | .measuring => some { v with phase := .measured file.contents.length }
  | .measured size =>
    if file.contents.length = size then
      some { v with phase := .hashing size [], observed := [file] }
    else some { v with phase := .failed .narMismatch }
  | .hashing size read =>
    if nextBytes file read count = [] then some { v with phase := afterHashing H v.name size read }
    else some { v with phase := .hashing size (read ++ nextBytes file read count) }
  | .decoding codec read =>
    if nextBytes file read count = [] then some { v with phase := afterDecoding H codec read }
    else some { v with phase := .decoding codec (read ++ nextBytes file read count) }
  | .stamping identity => some { v with phase := .recording identity file.stamp }
  | .recording _ _ | .served _ _ | .returned _ | .failed _ => none

def Validation.observe (v : Validation) (file : ℕ) (state : FileState) : Validation :=
  if v.file = file ∧ v.phase.reading = true then { v with observed := v.observed ++ [state] } else v

def FileState.overwrite (file : FileState) (contents : Bytes) (modified changed : ℤ) : FileState :=
  { file with contents := contents, modified := modified, changed := changed }

inductive Event where
  | start (id : ℕ) (name : NarFileName) (file : ℕ)
  | advance (id count : ℕ)
  | record (id : ℕ)
  | fail (id : ℕ)
  | change (file : ℕ) (contents : Bytes) (modified changed : ℤ)
  deriving DecidableEq

/-- A file that is replaced under its name is another open file; `change` is a change in place. -/
def next (H : Hashing) (w : World) : Event → Option World
  | .start id name file =>
    match w.validations id with
    | some _ => none
    | none =>
      some { w with validations := Function.update w.validations id (some ⟨name, file, .opened, []⟩) }
  | .advance id count => do
    let v ← w.validations id
    let v' ← v.advance H (w.files v.file) w.proofs count
    some { w with validations := Function.update w.validations id (some v') }
  | .record id => do
    let v ← w.validations id
    match v.phase with
    | .recording identity stamp =>
      some { w with
        proofs := w.proofs.insert v.name ⟨stamp, identity⟩
        validations := Function.update w.validations id (some { v with phase := .returned identity })
        recorded := w.recorded ++ [⟨v.name, ⟨stamp, identity⟩, v.observed⟩] }
    | _ => none
  | .fail id => do
    let v ← w.validations id
    some { w with
      validations := Function.update w.validations id (some { v with phase := .failed .io }) }
  | .change file contents modified changed =>
    let state := (w.files file).overwrite contents modified changed
    some { w with
      files := Function.update w.files file state
      validations := fun id => (w.validations id).map fun v => v.observe file state }

def Step (H : Hashing) (w : World) (event : Event) (w' : World) : Prop := next H w event = some w'

structure Fresh (w : World) : Prop where
  proofs : w.proofs = .empty
  validations : ∀ id, w.validations id = none
  recorded : w.recorded = []

/-- All the time that the file was read it had the contents that were hashed and the stamp of the
proof. -/
def Evidence.Sound (H : Hashing) (e : Evidence) : Prop :=
  ∃ contents, e.observed ≠ [] ∧
    (∀ state ∈ e.observed, state.contents = contents ∧ state.stamp = e.proof.stamp) ∧
    identify H e.name contents = some e.proof.identity

/-- Every proof that was kept is sound, and what was served from the cache for a stamp was kept
for that stamp. -/
structure Trustworthy (H : Hashing) (w : World) : Prop where
  sound : ∀ e ∈ w.recorded, e.Sound H
  served : ∀ id v stamp identity, w.validations id = some v → v.phase = .served stamp identity →
    ∃ e ∈ w.recorded, e.name = v.name ∧ e.proof = ⟨stamp, identity⟩

def Phase.exposed : Phase → Bool
  | hashing _ _ | decoding _ _ | stamping _ => true
  | _ => false

def World.Exposed (w : World) (file : ℕ) : Prop :=
  ∃ id v, w.validations id = some v ∧ v.file = file ∧ v.phase.exposed = true

/-- A file is changed in place only while no call is between its length check and its stamp. -/
def UndisturbedStep (H : Hashing) (w : World) (event : Event) (w' : World) : Prop :=
  Step H w event w' ∧ ∀ file contents modified changed,
    event = .change file contents modified changed → ¬w.Exposed file

variable {H : Hashing} {w w' : World} {v v' : Validation} {file : FileState} {read : Bytes}
variable {count : ℕ}

theorem nextBytes_prefix (h : read <+: file.contents) :
    read ++ nextBytes file read count <+: file.contents := by
  obtain ⟨rest, hr⟩ := h
  rw [nextBytes, ← hr, List.drop_left, List.prefix_append_right_inj]
  exact List.take_prefix _ _

theorem eq_contents_of_nextBytes (h : read <+: file.contents) (he : nextBytes file read count = []) :
    read = file.contents := by
  obtain ⟨rest, hr⟩ := h
  rw [nextBytes, ← hr, List.drop_left, List.take_eq_nil_iff] at he
  rcases he with hc | rfl
  · exact absurd hc (Nat.succ_ne_zero _)
  · rw [← hr, List.append_nil]

/-- What is known of a call while its file is left alone. -/
def Tracks (H : Hashing) (w : World) (v : Validation) : Prop :=
  match v.phase with
  | .hashing size read =>
    v.observed = [w.files v.file] ∧ size = (w.files v.file).contents.length ∧
      read <+: (w.files v.file).contents
  | .decoding codec read =>
    v.observed = [w.files v.file] ∧ H.sha256 (w.files v.file).contents = v.name.fileHash ∧
      v.name.encoding = .compressed codec ∧ read <+: (w.files v.file).contents
  | .stamping identity =>
    v.observed = [w.files v.file] ∧ identify H v.name (w.files v.file).contents = some identity
  | .recording identity stamp =>
    ∃ state : FileState, v.observed = [state] ∧ state.stamp = stamp ∧
      identify H v.name state.contents = some identity
  | .served stamp identity =>
    ∃ e ∈ w.recorded, e.name = v.name ∧ e.proof = ⟨stamp, identity⟩
  | _ => True

theorem Tracks.mono (h : Tracks H w v)
    (hf : v.phase.exposed = true → w'.files v.file = w.files v.file)
    (hr : ∀ e ∈ w.recorded, e ∈ w'.recorded) : Tracks H w' v := by
  unfold Tracks at h ⊢
  cases hp : v.phase with
  | hashing | decoding | stamping =>
    rw [hp] at h hf
    simp only [hf rfl]
    exact h
  | recording identity stamp =>
    rw [hp] at h
    exact h
  | served stamp identity =>
    rw [hp] at h
    obtain ⟨e, he, hm⟩ := h
    exact ⟨e, hr e he, hm⟩
  | opened | looking | measuring | measured | returned | failed => trivial

def Justified (w : World) : Prop :=
  ∀ name proof, w.proofs.byKey.lookup name = some proof →
    ∃ e ∈ w.recorded, e.name = name ∧ e.proof = proof

theorem tracks_afterHashing (hp : v.phase = .hashing size read)
    (h : Tracks H w v) (hn : nextBytes (w.files v.file) read count = []) :
    Tracks H w { v with phase := afterHashing H v.name size read } := by
  unfold Tracks at h
  rw [hp] at h
  obtain ⟨ho, hs, hr⟩ := h
  obtain rfl := eq_contents_of_nextBytes hr hn
  unfold afterHashing
  by_cases hh : H.sha256 (w.files v.file).contents = v.name.fileHash
  · rw [if_pos hh]
    cases he : v.name.encoding with
    | raw =>
      refine ⟨ho, ?_⟩
      rw [identify, if_pos hh, he, hs]
    | compressed codec => exact ⟨ho, hh, he, List.nil_prefix⟩
  · rw [if_neg hh]
    trivial

theorem tracks_afterDecoding (hp : v.phase = .decoding codec read)
    (h : Tracks H w v) (hn : nextBytes (w.files v.file) read count = []) :
    Tracks H w { v with phase := afterDecoding H codec read } := by
  unfold Tracks at h
  rw [hp] at h
  obtain ⟨ho, hh, he, hr⟩ := h
  obtain rfl := eq_contents_of_nextBytes hr hn
  unfold afterDecoding
  cases hd : H.decode codec (w.files v.file).contents with
  | none => trivial
  | some nar =>
    have hi : identify H v.name (w.files v.file).contents = some ⟨H.sha256 nar, nar.length⟩ := by
      rw [identify, if_pos hh, he]
      simp only [hd, Option.map_some]
    exact ⟨ho, hi⟩

theorem Tracks.advance (h : Tracks H w v) (hj : Justified w)
    (hs : v.advance H (w.files v.file) w.proofs count = some v') :
    Tracks H w v' ∧ v'.file = v.file := by
  unfold Validation.advance at hs
  cases hp : v.phase with
  | opened =>
    rw [hp] at hs
    cases hs
    exact ⟨trivial, rfl⟩
  | looking stamp =>
    rw [hp] at hs
    simp only at hs
    cases hg : w.proofs.get v.name stamp with
    | some identity =>
      rw [hg] at hs
      cases hs
      exact ⟨hj _ _ (DeliveryProofs.get_eq_some hg), rfl⟩
    | none =>
      rw [hg] at hs
      cases hs
      exact ⟨trivial, rfl⟩
  | measuring =>
    rw [hp] at hs
    cases hs
    exact ⟨trivial, rfl⟩
  | measured size =>
    rw [hp] at hs
    simp only at hs
    by_cases hi : (w.files v.file).contents.length = size
    · rw [if_pos hi] at hs
      cases hs
      exact ⟨⟨rfl, hi.symm, List.nil_prefix⟩, rfl⟩
    · rw [if_neg hi] at hs
      cases hs
      exact ⟨trivial, rfl⟩
  | hashing size read =>
    rw [hp] at hs
    simp only at hs
    by_cases he : nextBytes (w.files v.file) read count = []
    · rw [if_pos he] at hs
      cases hs
      exact ⟨tracks_afterHashing hp h he, rfl⟩
    · rw [if_neg he] at hs
      cases hs
      unfold Tracks at h
      rw [hp] at h
      exact ⟨⟨h.1, h.2.1, nextBytes_prefix h.2.2⟩, rfl⟩
  | decoding codec read =>
    rw [hp] at hs
    simp only at hs
    by_cases he : nextBytes (w.files v.file) read count = []
    · rw [if_pos he] at hs
      cases hs
      exact ⟨tracks_afterDecoding hp h he, rfl⟩
    · rw [if_neg he] at hs
      cases hs
      unfold Tracks at h
      rw [hp] at h
      exact ⟨⟨h.1, h.2.1, h.2.2.1, nextBytes_prefix h.2.2.2⟩, rfl⟩
  | stamping identity =>
    rw [hp] at hs
    cases hs
    unfold Tracks at h
    rw [hp] at h
    exact ⟨⟨_, h.1, rfl, h.2⟩, rfl⟩
  | recording | served | returned | failed =>
    rw [hp] at hs
    cases hs

structure Invariant (H : Hashing) (w : World) : Prop where
  tracks : ∀ id v, w.validations id = some v → Tracks H w v
  evidence : ∀ e ∈ w.recorded, e.Sound H
  justified : Justified w

theorem Fresh.invariant (h : Fresh w) : Invariant H w where
  tracks := by
    intro id v hv
    rw [h.validations] at hv
    cases hv
  evidence := by
    rw [h.recorded]
    exact fun _ he => nomatch he
  justified := by
    intro name proof hl
    rw [h.proofs] at hl
    cases hl

section

variable (h : Invariant H w)
include h

theorem Invariant.tracks_update {id other : ℕ} (hv : Tracks H w v)
    (ho : Function.update w.validations id (some v) other = some v') : Tracks H w v' := by
  by_cases hid : other = id
  · subst hid
    rw [Function.update_self] at ho
    cases ho
    exact hv
  · rw [Function.update_of_ne hid] at ho
    exact h.tracks other v' ho

theorem Invariant.update {id : ℕ} (hv : Tracks H w v) :
    Invariant H { w with validations := Function.update w.validations id (some v) } where
  tracks := by
    intro other u hu
    exact (h.tracks_update hv hu).mono (fun _ => rfl) fun _ he => he
  evidence := h.evidence
  justified := h.justified

theorem Invariant.record {id : ℕ}
    (hv : w.validations id = some v) (hp : v.phase = .recording identity stamp) :
    Invariant H { w with
      proofs := w.proofs.insert v.name ⟨stamp, identity⟩
      validations := Function.update w.validations id (some { v with phase := .returned identity })
      recorded := w.recorded ++ [⟨v.name, ⟨stamp, identity⟩, v.observed⟩] } where
  tracks := by
    intro other u hu
    have ht := h.tracks_update (v := { v with phase := .returned identity }) trivial hu
    exact ht.mono (fun _ => rfl) fun _ he => List.mem_append_left _ he
  evidence := by
    intro e he
    rcases List.mem_append.1 he with ho | hn
    · exact h.evidence e ho
    · cases List.mem_singleton.1 hn
      have ht := h.tracks id v hv
      unfold Tracks at ht
      rw [hp] at ht
      obtain ⟨state, hb, ha, hi⟩ := ht
      refine ⟨state.contents, ?_, ?_, hi⟩
      · rw [hb]
        exact List.cons_ne_nil _ _
      · intro seen hs
        rw [hb] at hs
        cases List.mem_singleton.1 hs
        exact ⟨rfl, ha⟩
  justified := by
    intro name proof hl
    rcases DeliveryProofs.lookup_of_insert hl with ⟨rfl, rfl⟩ | ho
    · exact ⟨_, List.mem_append_right _ (List.mem_singleton_self _), rfl, rfl⟩
    · obtain ⟨e, he, hm⟩ := h.justified name proof ho
      exact ⟨e, List.mem_append_left _ he, hm⟩

theorem Invariant.change {file : ℕ} (hx : ¬w.Exposed file) (state : FileState) :
    Invariant H { w with
      files := Function.update w.files file state
      validations := fun id => (w.validations id).map fun v => v.observe file state } where
  tracks := by
    intro id u hu
    obtain ⟨v, hv, rfl⟩ := Option.map_eq_some_iff.1 hu
    have hs : v.phase.exposed = true → v.file ≠ file :=
      fun hp hf => hx ⟨id, v, hv, hf, hp⟩
    have ho : v.observe file state = v := by
      unfold Validation.observe
      refine if_neg ?_
      rintro ⟨hf, hr⟩
      refine hs ?_ hf
      cases hp : v.phase <;> simp_all [Phase.reading, Phase.exposed]
    rw [ho]
    exact (h.tracks id v hv).mono (fun hp => Function.update_of_ne (hs hp) _ _)
      fun _ he => he
  evidence := h.evidence
  justified := h.justified

theorem Invariant.step {event : Event} (hs : UndisturbedStep H w event w') : Invariant H w' := by
  obtain ⟨hn, hu⟩ := hs
  cases event with
  | start id name file =>
    simp only [Step, next] at hn
    cases hid : w.validations id with
    | some other =>
      rw [hid] at hn
      cases hn
    | none =>
      rw [hid] at hn
      cases hn
      exact h.update trivial
  | advance id count =>
    obtain ⟨v, hv, hr⟩ := Option.bind_eq_some_iff.1 hn
    obtain ⟨v', ha, he⟩ := Option.bind_eq_some_iff.1 hr
    cases he
    exact h.update ((h.tracks id v hv).advance h.justified ha).1
  | record id =>
    obtain ⟨v, hv, hr⟩ := Option.bind_eq_some_iff.1 hn
    cases hp : v.phase with
    | recording identity stamp =>
      rw [hp] at hr
      cases hr
      exact h.record hv hp
    | _ =>
      rw [hp] at hr
      cases hr
  | fail id =>
    obtain ⟨v, hv, he⟩ := Option.bind_eq_some_iff.1 hn
    cases he
    exact h.update trivial
  | change file contents modified changed =>
    cases hn
    exact h.change (hu file contents modified changed rfl) _

end

/-- As long as no file is changed in place between the length check of a call and its stamp, every
proof speaks about the contents that had its stamp. -/
theorem cached_identity_was_hashed {events : List Event} (hfresh : Fresh w)
    (hrun : Run (UndisturbedStep H) w events w') : Trustworthy H w' := by
  have hi := hrun.invariant hfresh.invariant fun _ _ _ h hs => h.step hs
  refine ⟨hi.evidence, ?_⟩
  intro id v stamp identity hv hp
  have ht := hi.tracks id v hv
  unfold Tracks at ht
  rw [hp] at ht
  exact ht

section Sample

/-- The hashes of the contents `[1]` and `[2]`. -/
def sampleHashing : Hashing where
  sha256 bytes :=
    if bytes = [1] then .ofNat 0x4bf5122f344554c53bde2ebb8cd2b7e3d1600ad631c385a5d7cce23c7785459a
    else .ofNat 0xdbc1b4c900ffe48d575b5da5c638040125f65db0fe3e24494b76ea986457d986
  decode _ _ := none

def sampleName : NarFileName := .raw (sampleHashing.sha256 [1])

/-- Two files with the same contents, of which the second replaces the first. -/
def sampleWorld : World := ⟨fun file => ⟨⟨1, file⟩, [1], 10, 10⟩, .empty, fun _ => none, []⟩

theorem sampleWorld_fresh : Fresh sampleWorld := ⟨rfl, fun _ => rfl, rfl⟩

def hashOnce (id : ℕ) : List Event :=
  [.start id sampleName 0, .advance id 0, .advance id 0, .advance id 0, .advance id 0, .advance id 0,
    .advance id 0]

def keep (id : ℕ) : List Event := [.advance id 0, .record id]

def lookUp (id file : ℕ) : List Event := [.start id sampleName file, .advance id 0, .advance id 0]

/-- The world after the events, as far as the later calls and the proofs are concerned. -/
def view (w : World) : List Evidence × List (Option Phase) × FileState :=
  (w.recorded, [1, 2, 3].map fun id => (w.validations id).map Validation.phase, w.files 0)

theorem run_of_view {w : World} (h : (events.foldlM (next sampleHashing) w).map view = some seen) :
    ∃ w', Run (Step sampleHashing) w events w' ∧ view w' = seen := by
  obtain ⟨w', hf, hs⟩ := Option.map_eq_some_iff.1 h
  exact ⟨w', .of_foldlM hf, hs⟩

theorem run_undisturbed {w w' : World} (h : Run (Step sampleHashing) w events w')
    (hn : ∀ file contents modified changed, .change file contents modified changed ∉ events) :
    Run (UndisturbedStep sampleHashing) w events w' := by
  refine h.imp fun s event t he ht => ⟨ht, ?_⟩
  rintro file contents modified changed rfl
  exact absurd he (hn file contents modified changed)

/-- The first delivery hashes the file, the second one is served from the cache. -/
def servedWorld : World :=
  ((hashOnce 0 ++ keep 0 ++ lookUp 1 0).foldlM (next sampleHashing) sampleWorld).getD sampleWorld

theorem servedWorld_run :
    Run (Step sampleHashing) sampleWorld (hashOnce 0 ++ keep 0 ++ lookUp 1 0) servedWorld :=
  .of_foldlM (by rfl)

theorem servedWorld_unexposed : ¬servedWorld.Exposed 0 := by
  have hp : ∀ id, (servedWorld.validations id).all (fun v => !v.phase.exposed) = true
    | 0 => by decide +kernel
    | 1 => by decide +kernel
    | _ + 2 => rfl
  rintro ⟨id, v, hv, -, he⟩
  have hn := hp id
  rw [hv, Option.all_some, he] at hn
  cases hn

def changedWorld : World := (next sampleHashing servedWorld (.change 0 [2] 11 11)).getD servedWorld

/-- A delivery from the cache, a change in place after it, and a file that replaces the changed
one. The second delivery is served from the cache, rightly; the later ones are measured anew. -/
theorem secondDelivery_was_hashed :
    ∃ w, Run (UndisturbedStep sampleHashing) sampleWorld (hashOnce 0 ++ keep 0 ++ lookUp 1 0 ++
        [.change 0 [2] 11 11] ++ (lookUp 2 0 ++ lookUp 3 1)) w ∧
      Trustworthy sampleHashing w ∧
      view w = ([⟨sampleName, ⟨(sampleWorld.files 0).stamp, ⟨sampleName.fileHash, 1⟩⟩,
          [sampleWorld.files 0]⟩],
        [some (.served (sampleWorld.files 0).stamp ⟨sampleName.fileHash, 1⟩), some .measuring,
          some .measuring], ⟨⟨1, 0⟩, [2], 11, 11⟩) := by
  have hv : ((lookUp 2 0 ++ lookUp 3 1).foldlM (next sampleHashing) changedWorld).map view = some
      ([⟨sampleName, ⟨(sampleWorld.files 0).stamp, ⟨sampleName.fileHash, 1⟩⟩, [sampleWorld.files 0]⟩],
        [some (.served (sampleWorld.files 0).stamp ⟨sampleName.fileHash, 1⟩), some .measuring,
          some .measuring], ⟨⟨1, 0⟩, [2], 11, 11⟩) := by
    decide +kernel
  obtain ⟨w, hl, hs⟩ := run_of_view hv
  have hc : UndisturbedStep sampleHashing servedWorld (.change 0 [2] 11 11) changedWorld := by
    refine ⟨rfl, ?_⟩
    rintro file contents modified changed he
    cases he
    exact servedWorld_unexposed
  have hr := ((run_undisturbed servedWorld_run (by simp [hashOnce, keep, lookUp])).tail hc).append
    (run_undisturbed hl (by simp [lookUp]))
  exact ⟨w, hr, cached_identity_was_hashed sampleWorld_fresh hr, hs⟩

def changedEarly : List Event := hashOnce 0 ++ [.change 0 [2] 11 11] ++ keep 0 ++ lookUp 1 0

/-- A file that is changed in place after the hashing is kept under the stamp that it has then,
and the next delivery of the new contents is served the identity of the old ones. -/
theorem changedFile_is_served :
    ∃ w, Run (Step sampleHashing) sampleWorld changedEarly w ∧
      identify sampleHashing sampleName [2] = none ∧
      view w = ([⟨sampleName, ⟨⟨⟨1, 0⟩, 1, 11, 11⟩, ⟨sampleName.fileHash, 1⟩⟩,
          [sampleWorld.files 0]⟩],
        [some (.served ⟨⟨1, 0⟩, 1, 11, 11⟩ ⟨sampleName.fileHash, 1⟩), none, none],
        ⟨⟨1, 0⟩, [2], 11, 11⟩) ∧
      ¬Trustworthy sampleHashing w := by
  have hv : (changedEarly.foldlM (next sampleHashing) sampleWorld).map view = some
        ([⟨sampleName, ⟨⟨⟨1, 0⟩, 1, 11, 11⟩, ⟨sampleName.fileHash, 1⟩⟩, [sampleWorld.files 0]⟩],
          [some (.served ⟨⟨1, 0⟩, 1, 11, 11⟩ ⟨sampleName.fileHash, 1⟩), none, none],
          ⟨⟨1, 0⟩, [2], 11, 11⟩) := by
    decide +kernel
  obtain ⟨w, hu, hs⟩ := run_of_view hv
  refine ⟨w, hu, by decide, hs, fun htr => ?_⟩
  have hm : (⟨sampleName, ⟨⟨⟨1, 0⟩, 1, 11, 11⟩, ⟨sampleName.fileHash, 1⟩⟩,
      [sampleWorld.files 0]⟩ : Evidence) ∈ w.recorded := by
    have hr : w.recorded = _ := congrArg Prod.fst hs
    rw [hr]
    exact List.mem_singleton_self _
  obtain ⟨contents, -, ho, -⟩ := htr.sound _ hm
  have ht := (ho _ (List.mem_singleton_self _)).2
  revert ht
  decide

end Sample

end DeliveryValidation
