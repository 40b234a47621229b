import Narjar.ChunkRoundTrip

/-!
# Ingests of one NAR in different writes

The chunks of a NAR are stored one after the other, however the batches fall. So the writer ends
in a state that depends on the NAR and on the store alone, and an ingest goes through or not for
every way of writing the same bytes.
-/
namespace ChunkFragmentation

open ByteCodecs FallibleState NarFormat ManifestFormat StreamChunking ChunkIngest
  ChunkIngestProgress ChunkRoundTrip

variable {sha256 : Bytes → Digest}
variable {chunker : ∀ profile : ChunkProfile, Chunker UInt8 profile.minSize profile.maxSize}
variable {store : ChunkStore} {profile : ChunkProfile}
variable {w : ChunkingWriter}

theorem publishChunkBatch_append :
    publishChunkBatch sha256 store (first ++ second) = .ok (outcomes, store') ↔
      ∃ before middle after, publishChunkBatch sha256 store first = .ok (before, middle) ∧
        publishChunkBatch sha256 middle second = .ok (after, store') ∧
        outcomes = before ++ after := by
  induction first generalizing store store' outcomes with
  | nil => simp [publishChunkBatch]
  | cons chunk first ih =>
    simp only [List.cons_append, publishChunkBatch, except_bind_ok, Prod.exists, ih,
      Except.ok.injEq, Prod.mk.injEq]
    constructor
    · intro h
      obtain ⟨outcome, next, hc, _, _, ⟨before, middle, after, hf, hs, rfl⟩, rfl, rfl⟩ := h
      exact ⟨_, _, after, ⟨outcome, next, hc, before, middle, hf, rfl, rfl⟩, hs, rfl⟩
    · intro h
      obtain ⟨_, _, after, ⟨outcome, next, hc, before, middle, hf, rfl, rfl⟩, hs, rfl⟩ := h
      exact ⟨outcome, next, hc, _, _, ⟨before, middle, after, hf, hs, rfl⟩, rfl, rfl⟩

def named (sha256 : Bytes → Digest) (pieces : List Bytes) : List (Digest × Bytes) :=
  pieces.map fun p => (sha256 p, p)

/-- The writer has stored the pieces one after the other into the store it began with. -/
structure Replays (sha256 : Bytes → Digest)
    (chunker : ∀ profile : ChunkProfile, Chunker UInt8 profile.minSize profile.maxSize)
    (store : ChunkStore) (profile : ChunkProfile) (nar future : Bytes) (w : ChunkingWriter) :
    Prop where
  sameProfile : w.profile = profile
  stored : ∃ pieces outcomes, Progress sha256 chunker w nar future pieces ∧
    publishChunkBatch sha256 store (named sha256 pieces) = .ok (outcomes, w.store) ∧
    w.durability = outcomes.foldl ChunkDurabilityObligation.recordPublication .empty

theorem replays_beginIngest (store : ChunkStore) (profile : ChunkProfile) (nar : Bytes) :
    Replays sha256 chunker store profile nar nar (beginIngest store profile) :=
  ⟨rfl, [], [], progress_beginIngest store profile nar, rfl, rfl⟩

theorem replays_maintained :
    Maintained sha256 chunker profile (Replays sha256 chunker store profile nar) where
  sameProfile _ _ h := h.sameProfile
  batch := by
    intro future w w' finalBatch h hne hm hok
    obtain ⟨rfl, pieces, outcomes, hp, hs, hd⟩ := h
    obtain ⟨hf, hi⟩ := batch_mode hm
    obtain ⟨later, store', hb, rfl⟩ := (publishNextBatch_ok hp hne hf rfl).1 hok
    obtain ⟨hp', hl⟩ := hp.absorbed hne hf hi rfl later store'
    refine ⟨⟨rfl, _, outcomes ++ later, hp', ?_, ?_⟩, hl⟩
    · rw [named, List.map_append]
      exact publishChunkBatch_append.2 ⟨outcomes, w.store, later, hs, hb, rfl⟩
    · change later.foldl ChunkDurabilityObligation.recordPublication w.durability = _
      rw [hd, List.foldl_append]
  extend := by
    intro bytes rest w h ho
    obtain ⟨hr, pieces, outcomes, hp, hs, hd⟩ := h
    exact ⟨hr, pieces, outcomes, hp.extend ho, hs, hd⟩

theorem replays_productive
    (hs : publishChunkBatch sha256 store (named sha256 ((chunker profile).cuts nar)) =
      .ok (outcomes, store')) (hn : nar.length ≤ u64Max) :
    Productive sha256 chunker profile (Replays sha256 chunker store profile nar) where
  toMaintained := replays_maintained
  total := by
    intro future w finalBatch h hne hm
    obtain ⟨rfl, pieces, before, hp, ht, -⟩ := h
    obtain ⟨hf, hi⟩ := batch_mode hm
    obtain ⟨hp', -⟩ := hp.absorbed hne hf hi rfl [] w.store
    -- The batch stands in the middle of the chunks of the whole stream.
    have hc := hp'.cuts
    rw [hc, named, List.map_append, List.map_append, publishChunkBatch_append] at hs
    obtain ⟨_, middle, _, hr, -, -⟩ := hs
    obtain ⟨before', store₁, batch, he, hb, -⟩ := publishChunkBatch_append.1 hr
    obtain ⟨rfl, rfl⟩ := Prod.mk.inj (Except.ok.inj (ht.symm.trans he))
    exact ⟨_, (publishNextBatch_ok hp hne hf rfl).2 ⟨batch, middle, hb, rfl⟩⟩
  bound := by
    intro future w h
    obtain ⟨-, pieces, _, hp, -⟩ := h
    rw [hp.size_add]
    exact hn

def writerOf (sha256 : Bytes → Digest)
    (chunker : ∀ profile : ChunkProfile, Chunker UInt8 profile.minSize profile.maxSize)
    (profile : ChunkProfile) (nar : Bytes) (outcomes : List PublishOutcome)
    (store : ChunkStore) : ChunkingWriter where
  store := store
  profile := profile
  pending := []
  records := recordsOf (describe sha256 0 ((chunker profile).cuts nar))
  chunkCount := ((chunker profile).cuts nar).length
  previousEnd := nar.length
  previousLength := ((chunker profile).cuts nar).getLast?.map List.length
  hashed := nar
  size := nar.length
  durability := outcomes.foldl ChunkDurabilityObligation.recordPublication .empty

theorem Replays.eq_writerOf (h : Replays sha256 chunker store profile nar [] w)
    (he : w.pending = []) : nar.length ≤ u64Max ∧ ∃ outcomes, publishChunkBatch sha256 store
        (named sha256 ((chunker profile).cuts nar)) = .ok (outcomes, w.store) ∧
      w = writerOf sha256 chunker profile nar outcomes w.store := by
  obtain ⟨rfl, pieces, outcomes, hp, ht, hd⟩ := h
  obtain ⟨hi, hh⟩ := hp.all_pieces he
  subst hi
  have hs : w.size = nar.length := by rw [hp.size, hh]
  have hr : w.previousEnd = nar.length := by
    rw [hp.previousEnd, Chunker.flatten_cuts]
  refine ⟨by rw [← hh]; exact hp.bound, outcomes, ht, ?_⟩
  obtain ⟨_, _, _, _, _, _, _, _, _, _⟩ := w
  simp only [writerOf, ChunkingWriter.mk.injEq, true_and]
  exact ⟨he, hp.records, hp.count, hr, hp.previousLength, hh, hs, hd⟩

def publishAll (sha256 : Bytes → Digest)
    (chunker : ∀ profile : ChunkProfile, Chunker UInt8 profile.minSize profile.maxSize)
    (store : ChunkStore) (profile : ChunkProfile) (writes : List Bytes) :
    Except IoError ChunkingWriter :=
  writeAll sha256 chunker (beginIngest store profile) writes >>= publishPendingChunk sha256 chunker

theorem publishAll_ok :
    publishAll sha256 chunker store profile writes = .ok w ↔
      writes.flatten.length ≤ u64Max ∧ ∃ outcomes store',
        publishChunkBatch sha256 store (named sha256 ((chunker profile).cuts writes.flatten)) =
          .ok (outcomes, store') ∧
        w = writerOf sha256 chunker profile writes.flatten outcomes store' := by
  have hb : Replays sha256 chunker store profile writes.flatten writes.flatten
      (beginIngest store profile) := replays_beginIngest store profile writes.flatten
  constructor
  · intro h
    obtain ⟨w₁, hr, hp⟩ := except_bind_ok.1 h
    obtain ⟨hl, he⟩ := replays_maintained.publishPendingChunk (replays_maintained.writeAll hb hr) hp
    obtain ⟨ho, outcomes, hs, hw⟩ := hl.eq_writerOf he
    exact ⟨ho, outcomes, w.store, hs, hw⟩
  · intro h
    obtain ⟨ho, outcomes, store', hs, rfl⟩ := h
    have hd := replays_productive hs ho
    obtain ⟨w₁, hr⟩ := hd.writeAll hb
    have hi := replays_maintained.writeAll hb hr
    obtain ⟨w₂, hp⟩ := hd.publishPendingChunk hi
    obtain ⟨hl, he⟩ := replays_maintained.publishPendingChunk hi hp
    obtain ⟨-, outcomes', hs', hw⟩ := hl.eq_writerOf he
    obtain ⟨rfl, ha⟩ := Prod.mk.inj (Except.ok.inj (hs.symm.trans hs'))
    rw [← ha] at hw
    rw [← hw]
    exact except_bind_ok.2 ⟨w₁, hr, hp⟩

theorem ingest_ok_iff :
    ingest sha256 chunker store profile writes expected synchronize = .ok result ↔
      ∃ w, publishAll sha256 chunker store profile writes = .ok w ∧
        ∃ manifest, verifyIdentityAndRecordCoverage sha256 w expected = .ok manifest ∧
          makeChunksDurable sha256 w manifest synchronize = .ok () ∧
          publishManifest sha256 w manifest = .ok result := by
  simp only [ingest, finish, publishAll, except_bind_ok, mapError_ok]
  constructor
  · intro h
    obtain ⟨w₁, hw, w₂, hp, manifest, hm, _, hd, hu⟩ := h
    exact ⟨w₂, ⟨w₁, hw, hp⟩, manifest, hm, hd, hu⟩
  · intro h
    obtain ⟨w₂, ⟨w₁, hw, hp⟩, manifest, hm, hd, hu⟩ := h
    exact ⟨w₁, hw, w₂, hp, manifest, hm, (), hd, hu⟩

theorem ingest_stores
    (h : ingest sha256 chunker store profile writes expected synchronize = .ok (completed, store')) :
    ∃ middle, Stores sha256 store middle ((chunker profile).cuts writes.flatten) ∧
      store'.chunks = middle.chunks := by
  obtain ⟨w, hw, manifest, -, -, hm⟩ := ingest_ok_iff.1 h
  obtain ⟨-, outcomes, middle, hs, rfl⟩ := publishAll_ok.1 hw
  simp only [publishManifest, except_bind_ok, mapError_ok, Prod.exists, Except.ok.injEq,
    Prod.mk.injEq] at hm
  obtain ⟨_, -, outcome, _, hp, -, rfl⟩ := hm
  exact ⟨middle, publishChunkBatch_stores hs, (publishTemporaryFile_ok hp).1⟩

theorem ingest_independent_of_writes (sha256 : Bytes → Digest)
    (chunker : ∀ profile : ChunkProfile, Chunker UInt8 profile.minSize profile.maxSize)
    (store : ChunkStore) (profile : ChunkProfile) (expected : NarIdentity)
    (synchronize : Except IoError Unit) (writes writes' : List Bytes)
    (h : writes.flatten = writes'.flatten) :
    (∀ w, publishAll sha256 chunker store profile writes = .ok w ↔
      publishAll sha256 chunker store profile writes' = .ok w) ∧
    ∀ result, ingest sha256 chunker store profile writes expected synchronize = .ok result ↔
      ingest sha256 chunker store profile writes' expected synchronize = .ok result := by
  have ha : ∀ w, publishAll sha256 chunker store profile writes = .ok w ↔
      publishAll sha256 chunker store profile writes' = .ok w := by
    intro w
    rw [publishAll_ok, publishAll_ok, h]
  refine ⟨ha, fun result => ?_⟩
  rw [ingest_ok_iff, ingest_ok_iff]
  exact exists_congr fun w => and_congr_left' (ha w)

/-- Twenty chunks of zeros, written at once or in two writes of which only the second fills a
batch. -/
theorem zeroNar_written_twice :
    [zeroNar 20].flatten = [zeroNar 3, zeroNar 17].flatten ∧ ∀ sha256 : Bytes → Digest,
      ∃ result, ingest sha256 fixedChunker .empty .minCdcHash4V2 [zeroNar 20]
          ⟨sha256 (zeroNar 20), (zeroNar 20).length⟩ (.ok ()) = .ok result ∧
        ingest sha256 fixedChunker .empty .minCdcHash4V2 [zeroNar 3, zeroNar 17]
          ⟨sha256 (zeroNar 20), (zeroNar 20).length⟩ (.ok ()) = .ok result := by
  have hw : [zeroNar 20].flatten = [zeroNar 3, zeroNar 17].flatten := by
    simp only [List.flatten_cons, List.flatten_nil, List.append_nil, zeroNar, zeros,
      List.replicate_append_replicate]
  refine ⟨hw, fun sha256 => ?_⟩
  obtain ⟨completed, store', h⟩ := zeroNar_ingested sha256 (by omega : 20 < 2 ^ 40)
  exact ⟨(completed, store'), h, ((ingest_independent_of_writes sha256 fixedChunker .empty
    .minCdcHash4V2 _ (.ok ()) _ _ hw).2 _).1 h⟩

end ChunkFragmentation
