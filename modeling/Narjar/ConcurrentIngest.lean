import Narjar.ChunkFragmentation
import Narjar.LabelledRuns

/-!
# Concurrent ingests into one chunk store

Any number of ingests share the files of the store. The functions of an ingest are taken apart
into the actions between which others may run: a chunk is stored under the lock of its hash, a
filesystem sync has a beginning and an end and may fail, and an ingest may fail at any time.
Ingests hold off the collector, so no file is removed while they run.
-/
namespace ConcurrentIngest

open ByteCodecs FallibleState NarFormat ManifestFormat StreamChunking ChunkIngest LabelledRuns
open ChunkIngestProgress ChunkFragmentation

abbrev Chunk := Digest × Bytes

inductive Phase where
  | idle
  | receiving
  | finishing (expected : NarIdentity)
  /-- The threads of a batch, with the chunks they still have to store. -/
  | storing (expected : Option NarIdentity) (specifications : List ChunkSpecification)
    (todo : List Chunk) (outcomes : List PublishOutcome)
  /-- One thread of the batch has failed; the others still run. -/
  | failing (todo : List Chunk)
  | verified (manifest : ChunkManifest)
  | syncing (manifest : ChunkManifest)
  | durable (manifest : ChunkManifest)
  | ended

def Phase.afterBatch : Option NarIdentity → Phase
  | none => .receiving
  | some expected => .finishing expected

/-- The writer's own copy of the store is not used: all ingests share one. -/
structure Ingest where
  writer : ChunkingWriter
  phase : Phase

abbrev World := Interleaved ℕ ChunkStore Ingest

def World.start (store : ChunkStore) : World :=
  ⟨store, fun _ => ⟨beginIngest store .minCdcHash4V2, .idle⟩⟩

inductive Action where
  | begin (profile : ChunkProfile)
  | write (bytes : Bytes)
  | finish (expected : NarIdentity)
  | batch
  | store (chunk : Chunk)
  | storeFails (chunk : Chunk)
  | recordBatch
  | verify
  | skipSync
  | beginSync
  | endSync (succeeded : Bool)
  | publish
  | fail

def batchThreshold (writer : ChunkingWriter) : ℕ :=
  writer.profile.maxSize * chunkPublicationBatchSize

def batchChunks (writer : ChunkingWriter) (specifications : List ChunkSpecification) : List Chunk :=
  specifications.map fun s => (s.hash, (writer.pending.drop s.start).take (s.stop - s.start))

def drain (writer : ChunkingWriter) (specifications : List ChunkSpecification) : ChunkingWriter :=
  { writer with
    pending := writer.pending.drop ((specifications.getLast?.map ChunkSpecification.stop).getD 0) }

def absorb (writer : ChunkingWriter) (bytes : Bytes) (size : ℕ) : ChunkingWriter :=
  { writer with
    hashed := writer.hashed ++ bytes
    size := size
    pending := writer.pending ++ bytes }

def owe (writer : ChunkingWriter) (outcomes : List PublishOutcome) : ChunkingWriter :=
  { writer with
    durability := outcomes.foldl ChunkDurabilityObligation.recordPublication writer.durability }

section Actions

variable (sha256 : Bytes → Digest)
variable (chunker : ∀ profile : ChunkProfile, Chunker UInt8 profile.minSize profile.maxSize)

/-- The cases in which `make_chunks_durable` returns without a sync. -/
def SkipsSync (store : ChunkStore) (writer : ChunkingWriter) (manifest : ChunkManifest) : Prop :=
  writer.durability = .empty ∨ (writer.durability = .reused ∧
    validateManifest sha256 store manifest.identity.hash = .ok (some manifest))

def NeedsSync (store : ChunkStore) (writer : ChunkingWriter) (manifest : ChunkManifest) : Prop :=
  writer.durability = .newlyPublished ∨ (writer.durability = .reused ∧
    ∃ existing, validateManifest sha256 store manifest.identity.hash = .ok existing ∧
      existing ≠ some manifest)

/-- What a failing store may have done before it failed: nothing, or all of its work. -/
def MayPlace (store : ChunkStore) (chunk : Chunk) (store' : ChunkStore) : Prop :=
  store' = store ∨ ∃ outcome, storeChunk sha256 store chunk.1 chunk.2 = .ok (outcome, store')

/-- The actions of one ingest on the shared store. The outcomes of a batch are collected in the
order in which its threads end; only whether one of them is `created` matters later. -/
inductive Act : ChunkStore → Ingest → Action → ChunkStore → Ingest → Prop
  | begin {store : ChunkStore} {writer : ChunkingWriter} (profile : ChunkProfile) :
    Act store ⟨writer, .idle⟩ (.begin profile) store ⟨beginIngest store profile, .receiving⟩
  -- The previous write has returned, so less than a full batch is pending.
  | write {store : ChunkStore} {writer : ChunkingWriter} {size : ℕ} (bytes : Bytes)
    (hpending : writer.pending.length < batchThreshold writer)
    (hsize : checkedAdd writer.size bytes.length = some size) :
    Act store ⟨writer, .receiving⟩ (.write bytes) store ⟨absorb writer bytes size, .receiving⟩
  | finish {store : ChunkStore} {writer : ChunkingWriter} (expected : NarIdentity)
    (hpending : writer.pending.length < batchThreshold writer) :
    Act store ⟨writer, .receiving⟩ (.finish expected) store ⟨writer, .finishing expected⟩
  | batchFull {store : ChunkStore} {writer : ChunkingWriter}
    {specifications : List ChunkSpecification}
    (hpending : batchThreshold writer ≤ writer.pending.length)
    (hnext : nextChunkSpecifications sha256 chunker writer false = .ok specifications) :
    Act store ⟨writer, .receiving⟩ .batch store
      ⟨writer, .storing none specifications (batchChunks writer specifications) []⟩
  | batchFinal {store : ChunkStore} {writer : ChunkingWriter} {expected : NarIdentity}
    {specifications : List ChunkSpecification} (hpending : writer.pending ≠ [])
    (hnext : nextChunkSpecifications sha256 chunker writer true = .ok specifications) :
    Act store ⟨writer, .finishing expected⟩ .batch store
      ⟨writer, .storing (some expected) specifications (batchChunks writer specifications) []⟩
  | store {store store' : ChunkStore} {writer : ChunkingWriter} {expected : Option NarIdentity}
    {specifications : List ChunkSpecification} {todo : List Chunk}
    {outcomes : List PublishOutcome} {chunk : Chunk} {outcome : PublishOutcome}
    (hchunk : chunk ∈ todo)
    (hstore : storeChunk sha256 store chunk.1 chunk.2 = .ok (outcome, store')) :
    Act store ⟨writer, .storing expected specifications todo outcomes⟩ (.store chunk) store'
      ⟨writer, .storing expected specifications (todo.erase chunk) (outcomes ++ [outcome])⟩
  | storeFails {store store' : ChunkStore} {writer : ChunkingWriter}
    {expected : Option NarIdentity} {specifications : List ChunkSpecification}
    {todo : List Chunk} {outcomes : List PublishOutcome} {chunk : Chunk} (hchunk : chunk ∈ todo)
    (hstore : MayPlace sha256 store chunk store') :
    Act store ⟨writer, .storing expected specifications todo outcomes⟩ (.storeFails chunk) store'
      ⟨writer, .failing (todo.erase chunk)⟩
  | storeFailing {store store' : ChunkStore} {writer : ChunkingWriter} {todo : List Chunk}
    {chunk : Chunk} (hchunk : chunk ∈ todo) (hstore : MayPlace sha256 store chunk store') :
    Act store ⟨writer, .failing todo⟩ (.storeFails chunk) store'
      ⟨writer, .failing (todo.erase chunk)⟩
  | recordBatch {store : ChunkStore} {writer writer' : ChunkingWriter}
    {expected : Option NarIdentity} {specifications : List ChunkSpecification}
    {outcomes : List PublishOutcome}
    (hrecord : recordPublishedChunks (owe writer outcomes) specifications = .ok writer') :
    Act store ⟨writer, .storing expected specifications [] outcomes⟩ .recordBatch store
      ⟨drain writer' specifications, .afterBatch expected⟩
  | verify {store : ChunkStore} {writer : ChunkingWriter} {expected : NarIdentity}
    {manifest : ChunkManifest} (hpending : writer.pending = [])
    (hverify : verifyIdentityAndRecordCoverage sha256 writer expected = .ok manifest) :
    Act store ⟨writer, .finishing expected⟩ .verify store ⟨writer, .verified manifest⟩
  | skipSync {store : ChunkStore} {writer : ChunkingWriter} {manifest : ChunkManifest}
    (hskip : SkipsSync sha256 store writer manifest) :
    Act store ⟨writer, .verified manifest⟩ .skipSync store ⟨writer, .durable manifest⟩
  | beginSync {store : ChunkStore} {writer : ChunkingWriter} {manifest : ChunkManifest}
    (hsync : NeedsSync sha256 store writer manifest) :
    Act store ⟨writer, .verified manifest⟩ .beginSync store ⟨writer, .syncing manifest⟩
  | syncSucceeds {store : ChunkStore} {writer : ChunkingWriter} {manifest : ChunkManifest} :
    Act store ⟨writer, .syncing manifest⟩ (.endSync true) store ⟨writer, .durable manifest⟩
  | syncFails {store : ChunkStore} {writer : ChunkingWriter} {manifest : ChunkManifest} :
    Act store ⟨writer, .syncing manifest⟩ (.endSync false) store ⟨writer, .ended⟩
  -- The link of the manifest; what follows it, a failing directory sync included, only ends
  -- the ingest.
  | publish {store store' : ChunkStore} {writer : ChunkingWriter} {manifest : ChunkManifest}
    {bytes : ℕ} {outcome : PublishOutcome}
    (hsize : encodedManifestSize manifest.chunkCount = .ok bytes)
    (hpublish : publishTemporaryFile store manifest.identity.hash
      (completeManifest sha256 manifest writer.records) = .ok (outcome, store')) :
    Act store ⟨writer, .durable manifest⟩ .publish store' ⟨writer, .ended⟩
  | fail {store : ChunkStore} {writer : ChunkingWriter} {phase : Phase} :
    Act store ⟨writer, phase⟩ .fail store ⟨writer, .ended⟩

abbrev Step : World → ℕ × Action → World → Prop := Turn (Act sha256 chunker)

end Actions

variable {sha256 : Bytes → Digest}
variable {chunker : ∀ profile : ChunkProfile, Chunker UInt8 profile.minSize profile.maxSize}
variable {store store' : ChunkStore} {ingest ingest' : Ingest} {action : Action}

variable {writer writer' : ChunkingWriter} {specifications : List ChunkSpecification}
variable {hash : Digest} {finalBatch : Bool} {known : Chunk → Prop}
variable {entries : List (ChunkDescriptor × Bytes)} {outcomes : List PublishOutcome}
variable {manifest : ChunkManifest} {expected : Option NarIdentity}

theorem storeChunk_eq
    (h : storeChunk sha256 store hash bytes = .ok (outcome, store')) :
    store' = { store with chunks := Function.update store.chunks hash (some bytes) } := by
  unfold storeChunk at h
  cases hf : store.chunks hash with
  | none =>
    rw [hf] at h
    exact (Prod.mk.inj (Except.ok.inj h)).2.symm
  | some existing =>
    rw [hf] at h
    simp only [replaceCorruptChunk] at h
    by_cases heq : existing = bytes
    · rw [if_pos heq] at h
      rw [← (Prod.mk.inj (Except.ok.inj h)).2, ← heq, ← hf, Function.update_eq_self]
    · rw [if_neg heq, if_neg heq] at h
      split at h
      · cases h
      · exact (Prod.mk.inj (Except.ok.inj h)).2.symm

def Action.stores : Action → Option Chunk
  | .store chunk | .storeFails chunk => some chunk
  | _ => none

section

variable (h : Act sha256 chunker store ingest action store' ingest')
include h

theorem act_chunks : store'.chunks = store.chunks ∨ ∃ chunk, action.stores = some chunk ∧
      store'.chunks = Function.update store.chunks chunk.1 (some chunk.2) := by
  cases h with
  | store hc hs =>
    rw [storeChunk_eq hs]
    exact .inr ⟨_, rfl, rfl⟩
  | storeFails hc hs | storeFailing hc hs =>
    rcases hs with rfl | ⟨outcome, hs⟩
    · exact .inl rfl
    · rw [storeChunk_eq hs]
      exact .inr ⟨_, rfl, rfl⟩
  | publish hi hp => exact .inl (publishTemporaryFile_ok hp).1
  | _ => exact .inl rfl

theorem act_manifests :
    store'.manifests = store.manifests ∨ ∃ manifest, ingest.phase = .durable manifest ∧
      store.manifests manifest.identity.hash = none ∧
      store'.manifests = Function.update store.manifests manifest.identity.hash
        (some (completeManifest sha256 manifest ingest.writer.records)) := by
  cases h with
  | store hc hs =>
    rw [storeChunk_eq hs]
    exact .inl rfl
  | storeFails hc hs | storeFailing hc hs =>
    left
    rcases hs with rfl | ⟨outcome, hs⟩
    · rfl
    · rw [storeChunk_eq hs]
  | @publish _ writer manifest bytes outcome hi hp =>
    unfold publishTemporaryFile at hp
    cases hf : store.manifests manifest.identity.hash with
    | none =>
      rw [hf] at hp
      rw [← (Prod.mk.inj (Except.ok.inj hp)).2]
      exact .inr ⟨manifest, rfl, hf, rfl⟩
    | some existing =>
      rw [hf] at hp
      simp only at hp
      split at hp
      · exact .inl (congrArg ChunkStore.manifests (Prod.mk.inj (Except.ok.inj hp)).2.symm)
      · cases hp
  | _ => exact .inl rfl

theorem act_keeps_manifest (hv : store.manifests hash ≠ none) : store'.manifests hash ≠ none := by
  rcases act_manifests h with hs | ⟨manifest, -, hf, hl⟩
  · rwa [hs]
  · have hne : hash ≠ manifest.identity.hash := by
      rintro rfl
      exact hv hf
    rwa [hl, Function.update_of_ne hne]

end

/-- The facts about chunks that the phases of an ingest rest on. -/
structure Knowledge where
  placed : Chunk → Prop
  syncing : Chunk → Prop
  covered : Chunk → Prop

structure Extends (K K' : Knowledge) : Prop where
  placed : ∀ chunk, K.placed chunk → K'.placed chunk
  syncing : ∀ chunk, K.syncing chunk → K'.syncing chunk
  covered : ∀ chunk, K.covered chunk → K'.covered chunk

/-- What an ingest learns by an action that ends with the files `store'`. -/
structure Advances (K K' : Knowledge) (action : Action) (store' : ChunkStore) : Prop
    extends Extends K K' where
  present : ∀ chunk, store'.chunks chunk.1 = some chunk.2 → K'.placed chunk
  began : action = .beginSync → ∀ chunk, K.placed chunk → K'.syncing chunk
  ended : action = .endSync true → ∀ chunk, K.syncing chunk → K'.covered chunk

structure Recorded (sha256 : Bytes → Digest) (known : Chunk → Prop) (writer : ChunkingWriter)
    (entries : List (ChunkDescriptor × Bytes)) : Prop where
  records : writer.records = recordsOf (entries.map Prod.fst)
  count : writer.chunkCount = entries.length
  owed : writer.durability = .empty → entries = []
  hashes : ∀ entry ∈ entries, sha256 entry.2 = entry.1.hash
  known : ∀ entry ∈ entries, known (entry.1.hash, entry.2)

theorem Recorded.mono (h : Recorded sha256 known writer entries)
    (hk : ∀ chunk, known chunk → known' chunk) : Recorded sha256 known' writer entries :=
  { h with known := fun entry he => hk _ (h.known entry he) }

def Sound (sha256 : Bytes → Digest) (K : Knowledge) (store : ChunkStore) (ingest : Ingest) : Prop :=
  match ingest.phase with
  | .idle | .failing _ | .ended => True
  | .receiving | .finishing _ => ∃ entries, Recorded sha256 K.placed ingest.writer entries
  | .storing _ specifications todo outcomes =>
    (∃ entries, Recorded sha256 K.placed ingest.writer entries) ∧ specifications ≠ [] ∧
      outcomes.length + todo.length = specifications.length ∧
      ∀ chunk ∈ batchChunks ingest.writer specifications,
        sha256 chunk.2 = chunk.1 ∧ (chunk ∈ todo ∨ K.placed chunk)
  | .verified manifest => manifest.chunkCount = ingest.writer.chunkCount ∧
    ∃ entries, Recorded sha256 K.placed ingest.writer entries
  | .syncing manifest => manifest.chunkCount = ingest.writer.chunkCount ∧
    ∃ entries, Recorded sha256 K.syncing ingest.writer entries
  | .durable manifest => manifest.chunkCount = ingest.writer.chunkCount ∧
    ((∃ entries, Recorded sha256 K.covered ingest.writer entries) ∨
      store.manifests manifest.identity.hash ≠ none)

variable {K K' : Knowledge}

theorem Sound.others (h : Sound sha256 K store ingest)
    (ht : Act sha256 chunker store other action store' other') (ha : Extends K K') :
    Sound sha256 K' store' ingest := by
  obtain ⟨writer, phase⟩ := ingest
  cases phase with
  | idle | failing | ended => trivial
  | receiving | finishing =>
    obtain ⟨entries, hr⟩ := h
    exact ⟨entries, hr.mono ha.placed⟩
  | storing expected specifications todo outcomes =>
    obtain ⟨⟨entries, hr⟩, hne, hc, hb⟩ := h
    refine ⟨⟨entries, hr.mono ha.placed⟩, hne, hc, fun chunk hh => ?_⟩
    obtain ⟨hs, ho⟩ := hb chunk hh
    exact ⟨hs, ho.imp_right (ha.placed chunk)⟩
  | verified manifest =>
    obtain ⟨hc, entries, hr⟩ := h
    exact ⟨hc, entries, hr.mono ha.placed⟩
  | syncing manifest =>
    obtain ⟨hc, entries, hr⟩ := h
    exact ⟨hc, entries, hr.mono ha.syncing⟩
  | durable manifest =>
    obtain ⟨hc, hd⟩ := h
    refine ⟨hc, hd.imp ?_ (act_keeps_manifest ht)⟩
    intro ⟨entries, hr⟩
    exact ⟨entries, hr.mono ha.covered⟩

theorem specificationsFrom_hashes
    (h : specificationsFrom sha256 chunker writer finalBatch slots from_ previousEnd previousLength =
      .ok specifications) :
    ∀ chunk ∈ batchChunks writer specifications, sha256 chunk.2 = chunk.1 := by
  induction slots generalizing from_ previousEnd previousLength specifications with
  | zero =>
    cases Except.ok.inj h
    exact fun _ hm => absurd hm List.not_mem_nil
  | succ slots ih =>
    rw [specificationsFrom] at h
    split_ifs at h
    · cases Except.ok.inj h
      exact fun _ hm => absurd hm List.not_mem_nil
    · cases Except.ok.inj h
      exact fun _ hm => absurd hm List.not_mem_nil
    · simp only [except_bind_ok, ChunkSpecification.fromByteRange, Except.ok.injEq] at h
      obtain ⟨-, -, stop, -, narEnd, -, _, ⟨length, -, _, -, -, -, rfl⟩, rest, hr, rfl⟩ := h
      intro chunk hc
      rcases List.mem_cons.1 hc with rfl | hc
      · rfl
      · exact ih hr chunk hc

theorem nextChunkSpecifications_sound
    (h : nextChunkSpecifications sha256 chunker writer finalBatch = .ok specifications) :
    specifications ≠ [] ∧
      ∀ chunk ∈ batchChunks writer specifications, sha256 chunk.2 = chunk.1 := by
  simp only [nextChunkSpecifications, except_bind_ok, require_ok, Except.ok.injEq] at h
  obtain ⟨_, hf, _, hne, rfl⟩ := h
  exact ⟨hne, specificationsFrom_hashes hf⟩

def batchEntries (writer : ChunkingWriter) (specifications : List ChunkSpecification) :
    List (ChunkDescriptor × Bytes) :=
  specifications.map fun s =>
    (⟨s.narEnd, s.hash⟩, (writer.pending.drop s.start).take (s.stop - s.start))

theorem recordPublishedChunks_records
    (h : recordPublishedChunks writer specifications = .ok writer') :
    writer'.records =
        writer.records ++ recordsOf (specifications.map fun s => ⟨s.narEnd, s.hash⟩) ∧
      writer'.chunkCount = writer.chunkCount + specifications.length ∧
      writer'.durability = writer.durability := by
  induction specifications generalizing writer with
  | nil =>
    cases Except.ok.inj h
    simp
  | cons s rest ih =>
    simp only [recordPublishedChunks, recordPublishedChunk, except_bind_ok, okOr_ok,
      Except.ok.injEq, checkedAdd_eq_some] at h
    obtain ⟨_, ⟨_, ⟨-, rfl⟩, rfl⟩, he⟩ := h
    obtain ⟨hr, hc, hd⟩ := ih he
    refine ⟨?_, ?_, hd⟩
    · rw [hr, List.map_cons, recordsOf_cons, List.append_assoc]
    · rw [hc, List.length_cons]
      simp only
      omega

theorem foldl_recordPublication_ne_empty (h : outcomes ≠ [])
    (durability : ChunkDurabilityObligation) :
    outcomes.foldl ChunkDurabilityObligation.recordPublication durability ≠ .empty := by
  induction outcomes using List.reverseRecOn with
  | nil => exact absurd rfl h
  | append_singleton outcomes last _ =>
    rw [List.foldl_append, List.foldl_cons, List.foldl_nil]
    generalize outcomes.foldl ChunkDurabilityObligation.recordPublication durability = before
    cases last <;> cases before <;> exact fun h => nomatch h

theorem Recorded.batch (h : Recorded sha256 known writer entries) (hu : outcomes ≠ [])
    (hb : ∀ chunk ∈ batchChunks writer specifications, sha256 chunk.2 = chunk.1 ∧ known chunk)
    (hr : recordPublishedChunks (owe writer outcomes) specifications = .ok writer') :
    Recorded sha256 known (drain writer' specifications)
      (entries ++ batchEntries writer specifications) := by
  obtain ⟨hre, hc, hd⟩ := recordPublishedChunks_records hr
  have he : ∀ entry ∈ batchEntries writer specifications,
      (entry.1.hash, entry.2) ∈ batchChunks writer specifications := by
    intro entry he
    obtain ⟨s, hs, rfl⟩ := List.mem_map.1 he
    exact List.mem_map_of_mem hs
  refine ⟨?_, ?_, ?_, ?_, ?_⟩
  · change writer'.records = _
    rw [hre, List.map_append, recordsOf_append, batchEntries, List.map_map, ← h.records]
    rfl
  · change writer'.chunkCount = _
    rw [hc, List.length_append, batchEntries, List.length_map, ← h.count]
    rfl
  · intro hp
    exact absurd (hd.symm.trans hp) (foldl_recordPublication_ne_empty hu _)
  · intro entry hm
    rcases List.mem_append.1 hm with ho | hn
    · exact h.hashes entry ho
    · exact (hb _ (he entry hn)).1
  · intro entry hm
    rcases List.mem_append.1 hm with ho | hn
    · exact h.known entry ho
    · exact (hb _ (he entry hn)).2

theorem verify_chunkCount {expected}
    (h : verifyIdentityAndRecordCoverage sha256 writer expected = .ok manifest) :
    manifest.chunkCount = writer.chunkCount := by
  simp only [verifyIdentityAndRecordCoverage, except_bind_ok, Except.ok.injEq] at h
  obtain ⟨_, -, _, -, rfl⟩ := h
  rfl

theorem validateManifest_visible (h : validateManifest sha256 store hash = .ok (some manifest)) :
    store.manifests hash ≠ none := by
  intro hn
  simp [validateManifest, hn] at h

theorem Sound.startBatch (h : ∃ entries, Recorded sha256 K.placed writer entries)
    (hn : nextChunkSpecifications sha256 chunker writer finalBatch = .ok specifications) :
    Sound sha256 K store
      ⟨writer, .storing expected specifications (batchChunks writer specifications) []⟩ := by
  obtain ⟨hne, hh⟩ := nextChunkSpecifications_sound hn
  refine ⟨h, hne, by simp [batchChunks], fun chunk hc => ?_⟩
  exact ⟨hh chunk hc, .inl hc⟩

theorem Sound.afterBatch (h : ∃ entries, Recorded sha256 K.placed writer entries) :
    Sound sha256 K store ⟨writer, .afterBatch expected⟩ := by
  cases expected with
  | none | some => exact h

theorem Sound.own (h : Sound sha256 K store ingest)
    (hac : Act sha256 chunker store ingest action store' ingest')
    (ha : Advances K K' action store') : Sound sha256 K' store' ingest' := by
  have hs := h.others hac ha.toExtends
  cases hac with
  | begin profile =>
    exact ⟨[], rfl, rfl, fun _ => rfl, fun _ hm => absurd hm List.not_mem_nil,
      fun _ hm => absurd hm List.not_mem_nil⟩
  | write bytes hp hz =>
    obtain ⟨entries, hr⟩ := hs
    exact ⟨entries, hr.records, hr.count, hr.owed, hr.hashes,
      hr.known⟩
  | finish expected hp => exact hs
  | batchFull hp hn | batchFinal hp hn => exact .startBatch hs hn
  | @store _ writer expected specifications todo outcomes chunk outcome hh ht =>
    obtain ⟨he, hne, hc, hb⟩ := hs
    refine ⟨he, hne, ?_, fun other hot => ?_⟩
    · have hl := List.length_erase_of_mem hh
      have hpo := List.length_pos_of_mem hh
      simp only [List.length_append, List.length_singleton]
      omega
    · obtain ⟨hha, ho⟩ := hb other hot
      refine ⟨hha, ?_⟩
      by_cases heq : other = chunk
      · right
        apply ha.present
        rw [heq, storeChunk_eq ht]
        exact Function.update_self ..
      · exact ho.imp_left fun hm => (List.mem_erase_of_ne heq).2 hm
  | storeFails | storeFailing => trivial
  | recordBatch hre =>
    obtain ⟨⟨entries, he⟩, hne, hc, hb⟩ := hs
    refine .afterBatch ⟨_, he.batch ?_ (fun chunk hh => ?_) hre⟩
    · rintro rfl
      exact hne (List.length_eq_zero_iff.1 hc.symm)
    · obtain ⟨hha, ho⟩ := hb chunk hh
      exact ⟨hha, ho.resolve_left List.not_mem_nil⟩
  | verify hp hv => exact ⟨verify_chunkCount hv, hs⟩
  | skipSync hk =>
    obtain ⟨hc, entries, he⟩ := hs
    refine ⟨hc, hk.imp (fun hem => ?_) fun hu => validateManifest_visible hu.2⟩
    -- Nothing is owed only if nothing was recorded.
    have hi := he.owed hem
    refine ⟨entries, { he with known := fun entry hen => ?_ }⟩
    rw [hi] at hen
    exact absurd hen List.not_mem_nil
  | beginSync hy =>
    obtain ⟨hc, entries, he⟩ := h
    exact ⟨hc, entries, he.mono (ha.began rfl)⟩
  | syncSucceeds =>
    obtain ⟨hc, entries, he⟩ := h
    exact ⟨hc, .inl ⟨entries, he.mono (ha.ended rfl)⟩⟩
  | syncFails | publish | fail => trivial

section Coverage

variable (sha256 chunker)
variable (start : World) (events : List (ℕ × Action)) (w : World)

/-- The chunk stood under its hash at some moment of the run. -/
def Placed (chunk : Chunk) : Prop :=
  ∃ before after v, events = before ++ after ∧ Run (Step sha256 chunker) start before v ∧
    v.shared.chunks chunk.1 = some chunk.2 ∧ Run (Step sha256 chunker) v after w

/-- A sync of `k` began after the chunk was placed. -/
def BeingSynced (k : ℕ) (chunk : Chunk) : Prop :=
  ∃ before after v, events = before ++ (k, .beginSync) :: after ∧
    Placed sha256 chunker start before v chunk ∧
    Run (Step sha256 chunker) v ((k, .beginSync) :: after) w

/-- Some sync began after the chunk was placed and has succeeded. -/
def Covered (chunk : Chunk) : Prop :=
  ∃ k before during after v,
    events = before ++ ((k, .beginSync) :: during ++ (k, .endSync true) :: after) ∧
    Placed sha256 chunker start before v chunk ∧
    Run (Step sha256 chunker) v ((k, .beginSync) :: during ++ (k, .endSync true) :: after) w

def Unopposed (chunk : Chunk) : Prop :=
  ∀ event ∈ events, ∀ other, event.2.stores = some other → other.1 = chunk.1 → other.2 = chunk.2

/-- `file` is a manifest of `hash`, and a sync has covered every chunk that it lists. A chunk is
still in place unless other content was offered under its hash. -/
def ListsSyncedChunks (hash : Digest) (file : Bytes) : Prop :=
  ∃ (manifest : ChunkManifest) (entries : List (ChunkDescriptor × Bytes)),
    manifest.identity.hash = hash ∧ manifest.chunkCount = entries.length ∧
    file = completeManifest sha256 manifest (recordsOf (entries.map Prod.fst)) ∧
    ∀ entry ∈ entries, sha256 entry.2 = entry.1.hash ∧
      Covered sha256 chunker start events w (entry.1.hash, entry.2) ∧
      (Unopposed events (entry.1.hash, entry.2) → w.shared.chunks entry.1.hash = some entry.2)

def knowledge (k : ℕ) : Knowledge where
  placed := Placed sha256 chunker start events w
  syncing := BeingSynced sha256 chunker start events w k
  covered := Covered sha256 chunker start events w

end Coverage

variable {start v w w' : World} {events after : List (ℕ × Action)} {event : ℕ × Action}
variable {chunk : Chunk} {j k : ℕ}

theorem Placed.later (h : Placed sha256 chunker start events v chunk)
    (hr : Run (Step sha256 chunker) v after w) :
    Placed sha256 chunker start (events ++ after) w chunk := by
  obtain ⟨first, second, u, rfl, hf, hp, hs⟩ := h
  exact ⟨first, second ++ after, u, List.append_assoc .., hf, hp, hs.append hr⟩

theorem BeingSynced.later (h : BeingSynced sha256 chunker start events v k chunk)
    (hs : Step sha256 chunker v event w) :
    BeingSynced sha256 chunker start (events ++ [event]) w k chunk := by
  obtain ⟨before, during, u, rfl, hp, hr⟩ := h
  exact ⟨before, during ++ [event], u, by simp, hp, .tail hr hs⟩

theorem BeingSynced.endSync (h : BeingSynced sha256 chunker start events v k chunk)
    (hs : Step sha256 chunker v (k, .endSync true) w) :
    Covered sha256 chunker start (events ++ [(k, .endSync true)]) w chunk := by
  obtain ⟨before, during, u, rfl, hp, hr⟩ := h
  exact ⟨k, before, during, [], u, by simp, hp, .tail hr hs⟩

theorem Covered.later (h : Covered sha256 chunker start events v chunk)
    (hs : Step sha256 chunker v event w) :
    Covered sha256 chunker start (events ++ [event]) w chunk := by
  obtain ⟨k, before, during, after, u, rfl, hp, hr⟩ := h
  refine ⟨k, before, during, after ++ [event], u, by simp, hp, ?_⟩
  rw [← List.cons_append, ← List.append_assoc]
  exact .tail hr hs

theorem Covered.placed (h : Covered sha256 chunker start events w chunk) :
    Placed sha256 chunker start events w chunk := by
  obtain ⟨k, before, during, after, u, rfl, hp, hr⟩ := h
  exact hp.later hr

theorem Placed.stays (h : Placed sha256 chunker start events w chunk)
    (hf : Unopposed events chunk) : w.shared.chunks chunk.1 = some chunk.2 := by
  obtain ⟨before, after, v, rfl, -, hp, hr⟩ := h
  have hf' : Unopposed after chunk := fun event he => hf event (List.mem_append_right _ he)
  clear hf
  induction hr with
  | refl => exact hp
  | tail hr ht ih =>
    have hk := ih fun event he => hf' event (List.mem_append_left _ he)
    obtain ⟨ha⟩ := ht
    rcases act_chunks ha with hs | ⟨other, ho, hu⟩
    · simp only [hs, hk]
    · simp only [hu]
      by_cases hh : other.1 = chunk.1
      · have hb := hf' _ (List.mem_append_right _ (List.mem_singleton_self _)) other ho hh
        rw [hh, hb, Function.update_self]
      · rw [Function.update_of_ne (Ne.symm hh), hk]

theorem knowledge_extends (hs : Step sha256 chunker v event w) (j : ℕ) :
    Extends (knowledge sha256 chunker start events v j)
      (knowledge sha256 chunker start (events ++ [event]) w j) where
  placed _ h := h.later (.single hs)
  syncing _ h := h.later hs
  covered _ h := h.later hs

theorem knowledge_advances (hr : Run (Step sha256 chunker) start events v)
    (hs : Step sha256 chunker v (k, action) w) :
    Advances (knowledge sha256 chunker start events v k)
      (knowledge sha256 chunker start (events ++ [(k, action)]) w k) action w.shared where
  toExtends := knowledge_extends hs k
  present _ h := ⟨_, [], w, (List.append_nil _).symm, .tail hr hs, h, .refl w⟩
  began ha _ h := by
    subst ha
    exact ⟨events, [], v, rfl, h, .single hs⟩
  ended ha _ h := by
    subst ha
    exact h.endSync hs

theorem run_sound (hr : Run (Step sha256 chunker) (.start store) events w) (k : ℕ) :
    Sound sha256 (knowledge sha256 chunker (.start store) events w k) w.shared (w.process k) := by
  refine hr.interleaved (I := fun events w k =>
    Sound sha256 (knowledge sha256 chunker (.start store) events w k) w.shared (w.process k))
    (fun _ => trivial) ?_ ?_ k
  · intro events v k action store' ingest' hr hv ha
    have hs : Step sha256 chunker v (k, action) _ := .mk ha
    have hw := hv.own ha (knowledge_advances hr hs)
    simp only [Function.update_self]
    exact hw
  · intro events v k action store' ingest' j hr hne hv ha
    have hs : Step sha256 chunker v (k, action) _ := .mk ha
    have ho := hv.others ha (knowledge_extends hs j)
    simp only [Function.update_of_ne hne]
    exact ho

/-- In every interleaving a manifest becomes visible only when syncs that succeeded have covered
all its chunks. -/
theorem manifest_visible_after_sync {hash : Digest} {file : Bytes}
    (hrun : Run (Step sha256 chunker) (.start store) events w)
    (hstep : Step sha256 chunker w event w') (hbefore : w.shared.manifests hash = none)
    (hafter : w'.shared.manifests hash = some file) :
    ListsSyncedChunks sha256 chunker (.start store) events w hash file := by
  obtain @⟨k, action, store', ingest', ha⟩ := hstep
  change store'.manifests hash = some file at hafter
  rcases act_manifests ha with hm | ⟨manifest, hp, hf, hl⟩
  · rw [hm, hbefore] at hafter
    cases hafter
  · have hs := run_sound hrun k
    simp only [Sound, hp] at hs
    obtain ⟨ho, hd⟩ := hs
    -- The sync was not skipped for an existing manifest: the name is still free.
    obtain ⟨entries, he⟩ := hd.resolve_right fun hv => hv hf
    have hh : hash = manifest.identity.hash := by
      by_contra hne
      rw [hl, Function.update_of_ne hne, hbefore] at hafter
      cases hafter
    rw [hl, hh, Function.update_self] at hafter
    refine ⟨manifest, entries, hh.symm, ho.trans he.count, ?_, ?_⟩
    · rw [← he.records]
      exact (Option.some.inj hafter).symm
    · intro entry hn
      have hc := he.known entry hn
      exact ⟨he.hashes entry hn, hc, hc.placed.stays⟩

section Uninterrupted

variable {nar : Bytes} {profile : ChunkProfile} {batch : List Chunk} {published : List PublishOutcome}

/-- The actions of an ingest of one batch, up to its verified manifest. -/
def oneBatch (sha256 : Bytes → Digest)
    (chunker : ∀ profile : ChunkProfile, Chunker UInt8 profile.minSize profile.maxSize)
    (profile : ChunkProfile) (nar : Bytes) : List Action :=
  .begin profile :: .write nar :: .finish ⟨sha256 nar, nar.length⟩ :: .batch ::
    ((named sha256 ((chunker profile).cuts nar)).map .store ++ [.recordBatch, .verify])

theorem stores_run (h : publishChunkBatch sha256 store batch = .ok (published, store')) :
    Run (fun x a y => Act sha256 chunker x.1 x.2 a y.1 y.2)
      (store, ⟨writer, .storing expected specifications batch outcomes⟩) (batch.map .store)
      (store', ⟨writer, .storing expected specifications [] (outcomes ++ published)⟩) := by
  induction batch generalizing store outcomes published with
  | nil =>
    cases h
    rw [List.append_nil]
    exact .refl _
  | cons chunk batch ih =>
    simp only [publishChunkBatch, except_bind_ok, Prod.exists, Except.ok.injEq,
      Prod.mk.injEq] at h
    obtain ⟨outcome, middle, hs, rest, _, hr, rfl, rfl⟩ := h
    refine run_cons.2 ⟨(middle, ⟨writer, .storing expected specifications batch
      (outcomes ++ [outcome])⟩), ?_, ?_⟩
    · have ha : Act sha256 chunker store
          ⟨writer, .storing expected specifications (chunk :: batch) outcomes⟩ (.store chunk) middle
          ⟨writer, .storing expected specifications ((chunk :: batch).erase chunk)
            (outcomes ++ [outcome])⟩ := .store List.mem_cons_self hs
      rwa [List.erase_cons_head] at ha
    · rw [List.append_cons outcomes outcome rest]
      exact ih hr

theorem batchOf_eq_cuts {minSize maxSize slots : ℕ} {c : Chunker UInt8 minSize maxSize}
    (h : (c.cuts nar).length ≤ slots) : batchOf c true slots nar = c.cuts nar := by
  induction slots generalizing nar with
  | zero => rw [batchOf, List.eq_nil_of_length_eq_zero (Nat.le_zero.1 h)]
  | succ slots ih =>
    by_cases hne : nar = []
    · rw [batchOf, if_pos (.inl hne), hne, Chunker.cuts_nil]
    · rw [c.cuts_of_ne_nil hne, List.length_cons] at h
      rw [batchOf, if_neg (by simp [hne]), c.cuts_of_ne_nil hne, ih (Nat.le_of_succ_le_succ h)]

variable (hne : nar ≠ []) (hl : nar.length < profile.maxSize * chunkPublicationBatchSize)
variable (hc : ((chunker profile).cuts nar).length ≤ chunkPublicationBatchSize)

include hl in
theorem oneBatch_bounded : nar.length ≤ u64Max := by
  cases profile
  change nar.length < 1048576 * 16 at hl
  rw [u64Max]
  omega

include hne hl hc in
theorem nextChunkSpecifications_oneBatch (sha256 : Bytes → Digest) (store : ChunkStore) :
    nextChunkSpecifications sha256 chunker (absorb (beginIngest store profile) nar nar.length) true =
      .ok (specify sha256 0 0 ((chunker profile).cuts nar)) := by
  have hm := oneBatch_bounded hl
  have hs : specificationsFrom sha256 chunker (absorb (beginIngest store profile) nar nar.length)
      true chunkPublicationBatchSize 0 0 none = .ok (specify sha256 0 0
        (batchOf (chunker profile) true chunkPublicationBatchSize (nar.drop 0))) :=
    specificationsFrom_eq hm _ (Nat.zero_le _) (Nat.zero_add _).symm nofun hm
  rw [List.drop_zero, batchOf_eq_cuts hc] at hs
  have hps : (chunker profile).cuts nar ≠ [] := by
    rw [(chunker profile).cuts_of_ne_nil hne]
    exact List.cons_ne_nil _ _
  refine except_bind_ok.2 ⟨_, hs, except_bind_ok.2 ⟨(), ?_, rfl⟩⟩
  exact require_ok.2 (specify_ne_nil hps)

variable {s : ChunkStore} (hs : publishChunkBatch sha256 s
  (named sha256 ((chunker profile).cuts nar)) = .ok (published, store'))

include hne hl hc hs in
/-- Uninterrupted, the actions of one batch leave what the functions of the ingest leave. -/
theorem oneBatch_run (writer : ChunkingWriter) :
    Run (fun x a y => Act sha256 chunker x.1 x.2 a y.1 y.2) (s, ⟨writer, .idle⟩)
      (oneBatch sha256 chunker profile nar)
      (store', ⟨writerOf sha256 chunker profile nar published s,
        .verified ⟨⟨sha256 nar, nar.length⟩, profile, ((chunker profile).cuts nar).length⟩⟩) := by
  have hm := oneBatch_bounded hl
  have hn := nextChunkSpecifications_oneBatch hne hl hc sha256 s
  set pieces := (chunker profile).cuts nar with hpi
  have hfl : pieces.flatten = nar := (chunker profile).flatten_cuts nar
  have hps : pieces ≠ [] := fun h => hne (by rw [← hfl, h, List.flatten_nil])
  let full := absorb (beginIngest s profile) nar nar.length
  let specifications := specify sha256 0 0 pieces
  have hb : batchChunks full specifications = named sha256 pieces :=
    specify_slices ⟨[], by rw [hfl, List.append_nil]; rfl⟩
  have hr : recordPublishedChunks (owe full ([] ++ published)) specifications =
      .ok (recorded sha256 (owe full published) pieces) :=
    recordPublishedChunks_specify ((Nat.zero_add _).trans_le (hc.trans (by decide)))
  have hd : drain (recorded sha256 (owe full published) pieces) specifications =
      writerOf sha256 chunker profile nar published s := by
    have hst : (specifications.getLast?.map ChunkSpecification.stop).getD 0 = nar.length := by
      rw [specify_last hps, hfl, Nat.zero_add]
    simp [drain, hst, recorded, owe, full, absorb, beginIngest, writerOf, hfl, ← hpi]
  refine run_cons.2 ⟨(s, ⟨beginIngest s profile, .receiving⟩), .begin _, ?_⟩
  refine run_cons.2 ⟨(s, ⟨full, .receiving⟩), .write _ (Nat.zero_lt_of_lt hl) ?_, ?_⟩
  · exact checkedAdd_eq_some.2 ⟨by change 0 + nar.length ≤ u64Max; omega, (Nat.zero_add _).symm⟩
  refine run_cons.2 ⟨(s, ⟨full, .finishing ⟨sha256 nar, nar.length⟩⟩), .finish _ hl, ?_⟩
  refine run_cons.2 ⟨(s, ⟨full, .storing (some ⟨sha256 nar, nar.length⟩) specifications
    (batchChunks full specifications) []⟩), .batchFinal hne hn, ?_⟩
  rw [hb]
  refine (stores_run hs).append ?_
  refine run_cons.2 ⟨(store', ⟨_, .finishing ⟨sha256 nar, nar.length⟩⟩), .recordBatch hr, ?_⟩
  rw [hd]
  refine .single (.verify rfl ?_)
  simp [verifyIdentityAndRecordCoverage, verifyStreamedNarIdentity, verifyChunkRecordCoverage,
    writerOf, require]
  rfl

theorem oneBatch_stores {other : Chunk} (ha : action ∈ oneBatch sha256 chunker profile nar)
    (ho : action.stores = some other) :
    ∃ p ∈ (chunker profile).cuts nar, other = (sha256 p, p) := by
  simp only [oneBatch, named, List.mem_cons, List.mem_append, List.mem_map, List.not_mem_nil,
    or_false] at ha
  rcases ha with rfl | rfl | rfl | rfl | ⟨_, ⟨p, hp, rfl⟩, rfl⟩ | rfl | rfl
  case inr.inr.inr.inr.inl => exact ⟨p, hp, (Option.some.inj ho).symm⟩
  all_goals cases ho

theorem needsSync_of_absent (hd : writer.durability ≠ .empty)
    (hh : manifest.identity.hash = hash) (hm : store.manifests hash = none) :
    NeedsSync sha256 store writer manifest := by
  subst hh
  cases hw : writer.durability with
  | empty => exact absurd hw hd
  | reused =>
    refine .inr ⟨hw, none, ?_, nofun⟩
    rw [validateManifest, hm]
  | newlyPublished => exact .inl hw

theorem publish_act (hb : encodedManifestSize manifest.chunkCount = .ok size)
    (hh : manifest.identity.hash = hash) (hm : store.manifests hash = none) :
    ∃ store' file, Act sha256 chunker store ⟨writer, .durable manifest⟩ .publish store'
        ⟨writer, .ended⟩ ∧ store'.manifests hash = some file := by
  subst hh
  exact ⟨_, _, .publish hb (publishTemporaryFile_absent hm), Function.update_self ..⟩

end Uninterrupted

section Sample

open ChunkRoundTrip

/-- A NAR of two chunks, the first of them zeros. -/
def tailed (last : Bytes) : Bytes := zeros 262144 ++ last

def sampleChunks : Set Bytes := {zeros 262144, [1, 2, 3], [4, 5]}

theorem injOn_sampleChunks : Set.InjOn sampleSha256 sampleChunks := by
  have hz : sampleSha256 (zeros 262144) ≠ sampleSha256 [1, 2, 3] ∧
      sampleSha256 (zeros 262144) ≠ sampleSha256 [4, 5] ∧
      sampleSha256 [1, 2, 3] ≠ sampleSha256 [4, 5] := by
    simp only [sampleSha256, zeros, List.length_replicate]
    decide
  obtain ⟨hf, hs, ht⟩ := hz
  rintro p (rfl | rfl | rfl) q (rfl | rfl | rfl) h
  · rfl
  · exact absurd h hf
  · exact absurd h hs
  · exact absurd h.symm hf
  · rfl
  · exact absurd h ht
  · exact absurd h.symm hs
  · exact absurd h.symm ht
  · rfl

variable {last : Bytes}

theorem length_tailed (last : Bytes) : (tailed last).length = 262144 + last.length := by
  rw [tailed, List.length_append, zeros, List.length_replicate]

theorem tailed_ne_nil (last : Bytes) : tailed last ≠ [] := by
  intro h
  have hl := length_tailed last
  rw [h, List.length_nil] at hl
  omega

theorem cuts_tailed (hne : last ≠ []) (hl : last.length ≤ 262144) :
    (fixedChunker .minCdcHash4V2).cuts (tailed last) = [zeros 262144, last] := by
  have hz : (zeros 262144).length = 262144 := by rw [zeros, List.length_replicate]
  have hc : (fixedChunker .minCdcHash4V2).cut (tailed last) = 262144 := by
    change min (tailed last).length 262144 = 262144
    rw [length_tailed]
    omega
  rw [Chunker.cuts_of_ne_nil _ (tailed_ne_nil last), hc, tailed, List.take_left' hz,
    List.drop_left' hz, cuts_short hne hl]

def tailedManifest (last : Bytes) : ChunkManifest :=
  ⟨⟨sampleSha256 (tailed last), (tailed last).length⟩, .minCdcHash4V2, 2⟩

theorem tailedManifest_hash (last : Bytes) :
    (tailedManifest last).identity.hash = sampleSha256 (tailed last) := by
  rw [tailedManifest]

variable (hlast : last ∈ [[1, 2, 3], [4, 5]])
include hlast

theorem last_short : last ≠ [] ∧ last.length ≤ 3 := by
  simp only [List.mem_cons, List.not_mem_nil, or_false] at hlast
  rcases hlast with rfl | rfl <;> simp

theorem cuts_sampleChunks : ∀ p ∈ (fixedChunker .minCdcHash4V2).cuts (tailed last),
    p ∈ sampleChunks := by
  obtain ⟨hne, hl⟩ := last_short hlast
  rw [cuts_tailed hne (by omega)]
  simp only [List.mem_cons, List.not_mem_nil, or_false] at hlast ⊢
  rintro p (rfl | rfl)
  · exact .inl rfl
  · exact .inr hlast

theorem tailed_run (writer : ChunkingWriter) (hc : Clean sampleSha256 sampleChunks store) :
    ∃ store' writer', Clean sampleSha256 sampleChunks store' ∧
      store'.manifests = store.manifests ∧ writer'.durability ≠ .empty ∧
      Run (fun x a y => Act sampleSha256 fixedChunker x.1 x.2 a y.1 y.2) (store, ⟨writer, .idle⟩)
        (oneBatch sampleSha256 fixedChunker .minCdcHash4V2 (tailed last))
        (store', ⟨writer', .verified (tailedManifest last)⟩) := by
  obtain ⟨hne, hl⟩ := last_short hlast
  have hp := cuts_sampleChunks hlast
  have ht := cuts_tailed hne (by omega)
  obtain ⟨published, store', hb⟩ := publishChunkBatch_total injOn_sampleChunks hp hc
  have ho := publishChunkBatch_stores hb
  have hs : (tailed last).length < ChunkProfile.minCdcHash4V2.maxSize * chunkPublicationBatchSize := by
    rw [length_tailed]
    change 262144 + last.length < 1048576 * 16
    omega
  have hu : published ≠ [] := by
    rintro rfl
    rw [ht] at hb
    simp [publishChunkBatch, except_bind_ok] at hb
  have hb' : ((fixedChunker .minCdcHash4V2).cuts (tailed last)).length ≤ 16 := by
    rw [ht]
    exact Nat.le_add_left 2 14
  have hr := oneBatch_run (tailed_ne_nil last) hs hb' hb writer
  rw [ht] at hr
  exact ⟨store', _, ho.clean injOn_sampleChunks hp hc, ho.manifests,
    foldl_recordPublication_ne_empty hu _, hr⟩

omit hlast

/-- Two ingests whose NARs share their first chunk. The sync of the first one fails; the second
one's sync covers the shared chunk too. -/
def sharedEvents : List (ℕ × Action) :=
  (oneBatch sampleSha256 fixedChunker .minCdcHash4V2 (tailed [1, 2, 3])).map (Prod.mk 0) ++
    (oneBatch sampleSha256 fixedChunker .minCdcHash4V2 (tailed [4, 5])).map (Prod.mk 1) ++
    [(0, .beginSync), (1, .beginSync), (0, .endSync false), (1, .endSync true)]

theorem sharedEvents_run : ∃ w writer, Run (Step sampleSha256 fixedChunker) (.start .empty)
    sharedEvents w ∧ w.shared.manifests = ChunkStore.empty.manifests ∧
      w.process 1 = ⟨writer, .durable (tailedManifest [4, 5])⟩ := by
  let v := World.start .empty
  obtain ⟨s₁, writer₁, hc₁, hm₁, hd₁, hr₁⟩ := tailed_run List.mem_cons_self (v.process 0).writer
    (fun _ _ => .inl rfl : Clean sampleSha256 sampleChunks .empty)
  obtain ⟨w₁, hw₁, hs₁, hp₁, ho₁⟩ := hr₁.alone (w := v) (k := 0) rfl rfl
  obtain ⟨s₂, writer₂, -, hm₂, hd₂, hr₂⟩ := tailed_run
    (List.mem_cons_of_mem _ List.mem_cons_self) (v.process 1).writer hc₁
  obtain ⟨w₂, hw₂, hs₂, hp₂, ho₂⟩ := hr₂.alone (w := w₁) (k := 1) hs₁ (ho₁ 1 (by decide))
  have hm : s₂.manifests = ChunkStore.empty.manifests := hm₂.trans hm₁
  have hn₁ : NeedsSync sampleSha256 s₂ writer₁ (tailedManifest [1, 2, 3]) :=
    needsSync_of_absent hd₁ (tailedManifest_hash _) (by rw [hm]; rfl)
  have hn₂ : NeedsSync sampleSha256 s₂ writer₂ (tailedManifest [4, 5]) :=
    needsSync_of_absent hd₂ (tailedManifest_hash _) (by rw [hm]; rfl)
  obtain ⟨w₃, hw₃, hs₃, hp₃, ho₃⟩ := (Run.single (Act.beginSync hn₁)).alone (w := w₂) (k := 0) hs₂
    ((ho₂ 0 (by decide)).trans hp₁)
  obtain ⟨w₄, hw₄, hs₄, hp₄, ho₄⟩ := (Run.single (Act.beginSync hn₂)).alone (w := w₃) (k := 1) hs₃
    ((ho₃ 1 (by decide)).trans hp₂)
  obtain ⟨w₅, hw₅, hs₅, hp₅, ho₅⟩ := (Run.single Act.syncFails).alone (w := w₄) (k := 0) hs₄
    ((ho₄ 0 (by decide)).trans hp₃)
  obtain ⟨w, hw, hs, hp, -⟩ := (Run.single Act.syncSucceeds).alone (w := w₅) (k := 1) hs₅
    ((ho₅ 1 (by decide)).trans hp₄)
  exact ⟨w, writer₂, (hw₁.append hw₂).append (((hw₃.append hw₄).append hw₅).append hw),
    hs ▸ hm, hp⟩

/-- The manifest of the second NAR becomes visible. -/
theorem sampleManifest_visible_after_sync :
    ∃ (w w' : World) (file : Bytes),
      Run (Step sampleSha256 fixedChunker) (.start .empty) sharedEvents w ∧
      Step sampleSha256 fixedChunker w (1, .publish) w' ∧
      w.shared.manifests (sampleSha256 (tailed [4, 5])) = none ∧
      w'.shared.manifests (sampleSha256 (tailed [4, 5])) = some file ∧
      ListsSyncedChunks sampleSha256 fixedChunker (.start .empty) sharedEvents w
        (sampleSha256 (tailed [4, 5])) file := by
  obtain ⟨w, writer, hr, hm, hp⟩ := sharedEvents_run
  have hf : w.shared.manifests (sampleSha256 (tailed [4, 5])) = none := by
    rw [hm]
    rfl
  obtain ⟨store', file, ha, hv⟩ := publish_act rfl (tailedManifest_hash _) hf
  rw [← hp] at ha
  exact ⟨w, _, file, hr, .mk ha, hf, hv, manifest_visible_after_sync hr (.mk ha) hf hv⟩

end Sample

theorem run_keeps_manifest (h : Run (Step sha256 chunker) v events w)
    (hf : v.shared.manifests hash = some file) : w.shared.manifests hash = some file := by
  refine h.invariant (I := fun w => w.shared.manifests hash = some file) hf ?_
  intro t l u ht hs
  obtain ⟨ha⟩ := hs
  rcases act_manifests ha with hm | ⟨manifest, -, hn, hm⟩
  · rwa [hm]
  · have hne : hash ≠ manifest.identity.hash := by
      rintro rfl
      rw [hn] at ht
      cases ht
    rwa [hm, Function.update_of_ne hne]

open ChunkIngestProgress ChunkReader ChunkRoundTrip

/-- In every interleaving of later ingests an ingested NAR within the serving limit stays readable,
unless other content is offered under the hash of one of its chunks. -/
theorem ingested_nar_stays_readable (hwrites : writes.flatten = nar)
    (inj : Set.InjOn sha256 (chunksOf chunker profile nar))
    (h : ChunkIngest.ingest sha256 chunker before profile writes ⟨sha256 nar, nar.length⟩ synchronize =
      .ok (completed, store))
    (hsize : ((chunker profile).cuts nar).length ≤ 3355440)
    (hrun : Run (Step sha256 chunker) (.start store) events w)
    (hfree : ∀ p ∈ (chunker profile).cuts nar, Unopposed events (sha256 p, p)) :
    ReadsBack sha256 w.shared nar := by
  obtain ⟨-, hm, hf, hp, -⟩ := ingest_ok inj hwrites h
  have hs : Stored sha256 w.shared ((chunker profile).cuts nar) := by
    intro p hc
    exact Placed.stays ⟨[], events, _, rfl, .refl _, hp p hc, hrun⟩ (hfree p hc)
  have hl : (manifestFileOf sha256 chunker profile nar).length ≤ maxChunkManifestBytes := by
    rw [length_manifestFileOf, maxChunkManifestBytes]
    omega
  intro mode first stop ho ht
  obtain ⟨r, hr, hv⟩ := openReader_serves hm (run_keeps_manifest hrun hf) hs hl ho ht mode
  refine ⟨r, hr, fun calls => ?_⟩
  obtain ⟨outputs, hu, hd⟩ := reads_delivered calls hv
  refine ⟨outputs, hu, hd, fun hc => delivered_all hd ?_⟩
  rw [List.length_take, List.length_drop]
  omega

/-- The ingest of a NAR of two chunks from its beginning to its published manifest. -/
def laterActions (last : Bytes) : List Action :=
  oneBatch sampleSha256 fixedChunker .minCdcHash4V2 (tailed last) ++
    [.beginSync, .endSync true, .publish]

theorem laterActions_run {last : Bytes} (hlast : last ∈ [[1, 2, 3], [4, 5]])
    (hc : Clean sampleSha256 sampleChunks store)
    (hm : store.manifests (sampleSha256 (tailed last)) = none) :
    ∃ w file, Run (Step sampleSha256 fixedChunker) (.start store)
      ((laterActions last).map (Prod.mk 0)) w ∧
        w.shared.manifests (sampleSha256 (tailed last)) = some file := by
  obtain ⟨s, writer, -, hk, hd, hr⟩ := tailed_run hlast (beginIngest store .minCdcHash4V2) hc
  have hf : s.manifests (sampleSha256 (tailed last)) = none := by rw [hk, hm]
  have hn : NeedsSync sampleSha256 s writer (tailedManifest last) :=
    needsSync_of_absent hd (tailedManifest_hash last) hf
  obtain ⟨store', file, ha, hv⟩ := publish_act rfl (tailedManifest_hash last) hf
  have he : Run (fun x a y => Act sampleSha256 fixedChunker x.1 x.2 a y.1 y.2)
      (s, ⟨writer, .verified (tailedManifest last)⟩) [.beginSync, .endSync true, .publish]
      (store', ⟨writer, .ended⟩) :=
    run_cons.2 ⟨(s, ⟨writer, .syncing _⟩), .beginSync hn,
      run_cons.2 ⟨(s, ⟨writer, .durable _⟩), .syncSucceeds, .single ha⟩⟩
  obtain ⟨w, hw, hs, -⟩ := (hr.append he).alone (w := World.start store) (k := 0) rfl rfl
  exact ⟨w, file, hw, hs ▸ hv⟩

theorem laterActions_stores {last : Bytes} {other : Chunk} (ha : action ∈ laterActions last)
    (ho : action.stores = some other) :
    ∃ p ∈ (fixedChunker .minCdcHash4V2).cuts (tailed last), other = (sampleSha256 p, p) := by
  rcases List.mem_append.1 ha with hb | he
  · exact oneBatch_stores hb ho
  · simp only [List.mem_cons, List.not_mem_nil, or_false] at he
    rcases he with rfl | rfl | rfl <;> cases ho

/-- A later ingest shares a chunk with the ingested NAR, stores one of its own and publishes its
manifest. -/
theorem tailed_stays_readable : ∃ completed store w file,
    ChunkIngest.ingest sampleSha256 fixedChunker .empty .minCdcHash4V2 [tailed [1, 2, 3]]
      ⟨sampleSha256 (tailed [1, 2, 3]), (tailed [1, 2, 3]).length⟩ (.ok ()) =
        .ok (completed, store) ∧
    Run (Step sampleSha256 fixedChunker) (.start store)
      ((laterActions [4, 5]).map (Prod.mk 0)) w ∧
    w.shared.manifests (sampleSha256 (tailed [4, 5])) = some file ∧
    ReadsBack sampleSha256 w.shared (tailed [1, 2, 3]) := by
  have hf : [1, 2, 3] ∈ ([[1, 2, 3], [4, 5]] : List Bytes) := List.mem_cons_self
  have hl : [4, 5] ∈ ([[1, 2, 3], [4, 5]] : List Bytes) := List.mem_cons_of_mem _ List.mem_cons_self
  have ht : (fixedChunker .minCdcHash4V2).cuts (tailed [1, 2, 3]) = [zeros 262144, [1, 2, 3]] :=
    cuts_tailed (List.cons_ne_nil _ _) (by decide)
  have inj := injOn_sampleChunks.mono (cuts_sampleChunks hf)
  obtain ⟨completed, store, h⟩ := ingest_total inj List.flatten_singleton
    (by rw [length_tailed]; decide) (by rw [ht]; decide)
  obtain ⟨-, -, -, -, hm⟩ := ingest_ok inj List.flatten_singleton h
  obtain ⟨middle, hs, hk⟩ := ingest_stores h
  rw [List.flatten_singleton] at hs
  have hc : Clean sampleSha256 sampleChunks store := by
    intro p hp
    rw [hk]
    exact hs.clean injOn_sampleChunks (cuts_sampleChunks hf) (fun _ _ => .inl rfl) p hp
  have hne : sampleSha256 (tailed [4, 5]) ≠ sampleSha256 (tailed [1, 2, 3]) := by
    simp only [sampleSha256, length_tailed]
    decide
  obtain ⟨w, file, hr, hv⟩ := laterActions_run hl hc (hm _ hne)
  refine ⟨completed, store, w, file, h, hr, hv, ?_⟩
  refine ingested_nar_stays_readable List.flatten_singleton inj h (by rw [ht]; decide) hr ?_
  intro p hp event he other ho hh
  obtain ⟨action, ha, rfl⟩ := List.mem_map.1 he
  obtain ⟨q, hq, rfl⟩ := laterActions_stores ha ho
  exact injOn_sampleChunks (cuts_sampleChunks hl q hq) (cuts_sampleChunks hf p hp) hh

end ConcurrentIngest
