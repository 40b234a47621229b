import Mathlib.Data.Set.Function
import Narjar.ChunkIngest

/-!
# Progress of an ingest

What the writer has published at any moment is a prefix of the chunks of every stream that
continues the bytes written so far.
-/
namespace ChunkIngestProgress

open ByteCodecs FallibleState NarFormat ManifestFormat StreamChunking ChunkIngest List

variable {sha256 : Bytes → Digest}

section Pieces

variable (sha256)

def describe : ℕ → List Bytes → List ChunkDescriptor
  | _, [] => []
  | start, p :: ps => ⟨start + p.length, sha256 p⟩ :: describe (start + p.length) ps

def specify : ℕ → ℕ → List Bytes → List ChunkSpecification
  | _, _, [] => []
  | start, narStart, p :: ps =>
    ⟨start, start + p.length, sha256 p, narStart + p.length, p.length⟩ ::
      specify (start + p.length) (narStart + p.length) ps

end Pieces

@[simp] theorem length_describe (start : ℕ) (ps : List Bytes) :
    (describe sha256 start ps).length = ps.length := by
  induction ps generalizing start with
  | nil => rfl
  | cons p ps ih => rw [describe, length_cons, length_cons, ih]

theorem describe_append (start : ℕ) (ps qs : List Bytes) :
    describe sha256 start (ps ++ qs) =
      describe sha256 start ps ++ describe sha256 (start + ps.flatten.length) qs := by
  induction ps generalizing start with
  | nil => simp [describe]
  | cons p ps ih =>
    simp only [cons_append, describe, ih, flatten_cons, length_append, Nat.add_assoc]

theorem recordsOf_append (ds es : List ChunkDescriptor) :
    recordsOf (ds ++ es) = recordsOf ds ++ recordsOf es := flatMap_append

variable {ps : List Bytes}
variable {p : Bytes} {hash : Digest}

theorem specify_ne_nil (h : ps ≠ []) : specify sha256 start narStart ps ≠ [] := by
  cases ps with
  | nil => exact absurd rfl h
  | cons p ps => simp [specify]

theorem specify_slices {pending : Bytes} (h : ps.flatten <+: pending.drop start) :
    (specify sha256 start narStart ps).map
        (fun s => (s.hash, (pending.drop s.start).take (s.stop - s.start))) =
      ps.map fun p => (sha256 p, p) := by
  induction ps generalizing start narStart with
  | nil => rfl
  | cons p ps ih =>
    obtain ⟨rest, hr⟩ := h
    rw [flatten_cons, append_assoc] at hr
    have hf : (pending.drop start).take (start + p.length - start) = p := by
      rw [← hr, Nat.add_sub_cancel_left, take_left]
    have hb : ps.flatten <+: pending.drop (start + p.length) := by
      rw [← drop_drop, ← hr, drop_left]
      exact prefix_append _ _
    simp only [specify, map_cons, hf, ih hb]

theorem specify_last (h : ps ≠ []) :
    ((specify sha256 start narStart ps).getLast?.map ChunkSpecification.stop).getD 0 =
      start + ps.flatten.length := by
  induction ps generalizing start narStart with
  | nil => exact absurd rfl h
  | cons p ps ih =>
    cases ps with
    | nil => simp [specify]
    | cons q qs =>
      have hr := @ih (start + p.length) (narStart + p.length) (by simp)
      rw [specify, specify, List.getLast?_cons_cons, ← specify, hr]
      simp only [flatten_cons, length_append]
      omega

theorem min_le_of_more (h : Chunker.WellSized minSize maxSize (ps ++ qs)) (hqs : qs ≠ [])
    (hp : p ∈ ps) : minSize ≤ p.length := by
  induction ps with
  | nil => cases hp
  | cons a ps ih =>
    obtain ⟨-, -, hm, hr⟩ := h
    rcases mem_cons.1 hp with hh | ht
    · rw [hh]
      apply hm
      simp [hqs]
    · exact ih hr ht

theorem length_le_flatten (h : Chunker.WellSized minSize maxSize (ps ++ qs)) :
    ps.length ≤ ps.flatten.length := by
  induction ps with
  | nil => exact Nat.zero_le _
  | cons p ps ih =>
    have hr := ih h.2.2.2
    have hp := h.1
    rw [length_cons, flatten_cons, length_append]
    omega

def batchOf {minSize maxSize : ℕ} (c : Chunker UInt8 minSize maxSize) (finalBatch : Bool) :
    ℕ → Bytes → List Bytes
  | 0, _ => []
  | slots + 1, s =>
    if s = [] ∨ (!finalBatch ∧ s.length < maxSize) then []
    else s.take (c.cut s) :: batchOf c finalBatch slots (s.drop (c.cut s))

theorem batchOf_cuts (c : Chunker UInt8 minSize maxSize) (finalBatch : Bool) (slots : ℕ) (s : Bytes) :
    ∃ rest, s = (batchOf c finalBatch slots s).flatten ++ rest ∧
      ∀ future, (finalBatch = true → future = []) →
        c.cuts (s ++ future) = batchOf c finalBatch slots s ++ c.cuts (rest ++ future) := by
  induction slots generalizing s with
  | zero => exact ⟨s, rfl, fun _ _ => rfl⟩
  | succ slots ih =>
    rw [batchOf]
    by_cases hs : s = [] ∨ (!finalBatch ∧ s.length < maxSize)
    · rw [if_pos hs]
      exact ⟨s, rfl, fun _ _ => rfl⟩
    · rw [if_neg hs]
      obtain ⟨rest, hp, hc⟩ := ih (s.drop (c.cut s))
      refine ⟨rest, ?_, ?_⟩
      · rw [flatten_cons, append_assoc, ← hp, take_append_drop]
      · intro future hf
        have hne : s ≠ [] := fun h => hs (.inl h)
        have hw : maxSize ≤ s.length ∨ future = [] := by
          cases finalBatch with
          | true => exact .inr (hf rfl)
          | false =>
            left
            by_contra hh
            exact hs (.inr ⟨rfl, by omega⟩)
        rw [c.cuts_append hne hw, hc future hf, cons_append]

theorem batchOf_ne_nil (c : Chunker UInt8 minSize maxSize) (hs : s ≠ [])
    (hu : finalBatch = true ∨ maxSize ≤ s.length) : batchOf c finalBatch (slots + 1) s ≠ [] := by
  rw [batchOf, if_neg]
  · simp
  · rintro (hn | ⟨hm, hh⟩)
    · exact hs hn
    · rcases hu with hf | hl
      · simp [hf] at hm
      · omega

theorem specificationsFrom_eq (hb : w.size ≤ u64Max) (slots : ℕ) (hst : start ≤ w.pending.length)
    (hz : w.size = narStart + (w.pending.length - start))
    (hp : w.pending.drop start ≠ [] → ∀ length ∈ previousLength, w.profile.minSize ≤ length)
    (hf : w.pending.length ≤ u64Max) :
    specificationsFrom sha256 chunker w finalBatch slots start narStart previousLength =
      .ok (specify sha256 start narStart
        (batchOf (chunker w.profile) finalBatch slots (w.pending.drop start))) := by
  induction slots generalizing start narStart previousLength with
  | zero => rfl
  | succ slots ih =>
    have hr : (w.pending.drop start).length = w.pending.length - start := length_drop
    rw [specificationsFrom, batchOf]
    by_cases he : w.pending.length ≤ start
    · have hi := drop_eq_nil_iff.2 he
      rw [if_pos he, if_pos (.inl hi), specify]
    · have hne : w.pending.drop start ≠ [] := fun h => he (drop_eq_nil_iff.1 h)
      rw [if_neg he]
      by_cases hw : !finalBatch ∧ w.pending.length - start < w.profile.maxSize
      · rw [if_pos hw, if_pos (.inr (by rwa [hr])), specify]
      · have hgo : ¬(w.pending.drop start = [] ∨
            (!finalBatch ∧ (w.pending.drop start).length < w.profile.maxSize)) := by
          rw [hr]
          exact fun h => h.elim hne hw
        rw [if_neg hw, if_neg hgo]
        set c := chunker w.profile with hc
        set s := w.pending.drop start with hs
        have hu := c.cut_le_length s
        have hl : (s.take (c.cut s)).length = c.cut s := by
          rw [length_take, Nat.min_eq_left hu]
        have hd : w.pending.drop (start + c.cut s) = s.drop (c.cut s) := by
          rw [hs, drop_drop]
        have hx : w.pending.drop (start + c.cut s) ≠ [] →
            ∀ length ∈ some (c.cut s), w.profile.minSize ≤ length := by
          intro ho length hn
          cases Option.mem_some_iff.1 hn
          rcases c.min_le_cut s with hm | hwh
          · exact hm
          · rw [hd, hwh, drop_length] at ho
            exact absurd rfl ho
        have ht := @ih (start + c.cut s) (narStart + c.cut s) (some (c.cut s)) (by omega)
          (by omega) hx
        have ha : ¬previousLength.any (· < w.profile.minSize) := by
          intro hh
          obtain ⟨length, hme, hlt⟩ := (Option.any_eq_true _ _).1 hh
          have hm := hp hne length hme
          simp only [decide_eq_true_eq] at hlt
          omega
        have hna : w.size - (w.pending.length - (start + c.cut s)) = narStart + c.cut s := by
          omega
        simp only [except_bind_ok, require_ok, okOr_ok, checkedAdd_eq_some, checkedSub_eq_some,
          ChunkSpecification.fromByteRange, exists_const, Except.ok.injEq]
        refine ⟨ha, start + c.cut s, ⟨by omega, rfl⟩, narStart + c.cut s, ⟨by omega, by omega⟩,
          _, ⟨c.cut s, ⟨by omega, by omega⟩, _, ⟨by omega, rfl⟩, rfl, rfl⟩, _, ht, ?_⟩
        rw [specify, hl, Nat.add_sub_cancel_left, hd]

theorem batchBytes_specify (h : total + ps.flatten.length ≤ u64Max) :
    batchBytes total (specify sha256 start narStart ps) = .ok (total + ps.flatten.length) := by
  induction ps generalizing total start narStart with
  | nil => rfl
  | cons p ps ih =>
    rw [flatten_cons, length_append, ← Nat.add_assoc] at h ⊢
    simp only [specify, batchBytes, except_bind_ok, okOr_ok, checkedAdd_eq_some]
    exact ⟨total + p.length, ⟨by omega, rfl⟩, ih h⟩

def recorded (sha256 : Bytes → Digest) (w : ChunkingWriter) (ps : List Bytes) : ChunkingWriter :=
  { w with
    records := w.records ++ recordsOf (describe sha256 w.previousEnd ps)
    previousEnd := w.previousEnd + ps.flatten.length
    previousLength := (ps.getLast?.map List.length).or w.previousLength
    chunkCount := w.chunkCount + ps.length }

theorem recordPublishedChunks_specify (h : w.chunkCount + ps.length ≤ u64Max) :
    recordPublishedChunks w (specify sha256 start w.previousEnd ps) =
      .ok (recorded sha256 w ps) := by
  induction ps generalizing w start with
  | nil => simp [recordPublishedChunks, specify, recorded, describe]
  | cons p ps ih =>
    rw [length_cons] at h
    simp only [specify, recordPublishedChunks, recordPublishedChunk, except_bind_ok, okOr_ok,
      checkedAdd_eq_some, Except.ok.injEq]
    refine ⟨_, ⟨w.chunkCount + 1, ⟨by omega, rfl⟩, rfl⟩, ?_⟩
    rw [ih (by simp only; omega)]
    have hl : (ps.getLast?.map List.length).or (some p.length) =
        ((p :: ps).getLast?.map List.length).or w.previousLength := by
      cases ps with
      | nil => rfl
      | cons q qs =>
        rw [List.getLast?_cons_cons, List.getLast?_cons]
        rfl
    simp only [recorded, describe, recordsOf_cons, flatten_cons, length_append,
      length_cons, append_assoc, hl, Nat.add_assoc, Nat.add_comm 1]

structure Stores (sha256 : Bytes → Digest) (store store' : ChunkStore) (ps : List Bytes) :
    Prop where
  manifests : store'.manifests = store.manifests
  frame : ∀ hash, store'.chunks hash = store.chunks hash ∨
    ∃ p ∈ ps, sha256 p = hash ∧ store'.chunks hash = some p
  present : ∀ p ∈ ps, ∃ q ∈ ps, sha256 q = sha256 p ∧ store'.chunks (sha256 p) = some q

theorem storeChunk_stores (h : storeChunk sha256 store (sha256 p) p = .ok (outcome, store')) :
    Stores sha256 store store' [p] := by
  have hu : Stores sha256 store
      { store with chunks := Function.update store.chunks (sha256 p) (some p) } [p] := by
    refine ⟨rfl, ?_, ?_⟩
    · intro hash
      by_cases heq : hash = sha256 p
      · right
        exact ⟨p, mem_singleton_self p, heq.symm, by rw [heq]; exact Function.update_self ..⟩
      · left
        exact Function.update_of_ne heq _ _
    · intro q hq
      rw [mem_singleton.1 hq]
      exact ⟨p, mem_singleton_self p, rfl, Function.update_self ..⟩
  have hs : store.chunks (sha256 p) = some p → Stores sha256 store store [p] := by
    intro hf
    refine ⟨rfl, fun hash => .inl rfl, ?_⟩
    intro q hq
    rw [mem_singleton.1 hq]
    exact ⟨p, mem_singleton_self p, rfl, hf⟩
  unfold storeChunk at h
  cases hf : store.chunks (sha256 p) with
  | none =>
    rw [hf] at h
    obtain ⟨-, rfl⟩ := Prod.mk.inj (Except.ok.inj h)
    exact hu
  | some existing =>
    rw [hf] at h
    simp only [replaceCorruptChunk] at h
    by_cases heq : existing = p
    · rw [if_pos heq] at h
      obtain ⟨-, rfl⟩ := Prod.mk.inj (Except.ok.inj h)
      exact hs (by rw [hf, heq])
    · rw [if_neg heq, if_neg heq] at h
      split at h
      · cases h
      · obtain ⟨-, rfl⟩ := Prod.mk.inj (Except.ok.inj h)
        exact hu

theorem Stores.trans (h : Stores sha256 first second ps)
    (h' : Stores sha256 second third qs) : Stores sha256 first third (ps ++ qs) := by
  refine ⟨h'.manifests.trans h.manifests, ?_, ?_⟩
  · intro hash
    rcases h'.frame hash with hk | ⟨q, hq, hh, hn⟩
    · rcases h.frame hash with ho | ⟨p, hp, hh, hn⟩
      · exact .inl (hk.trans ho)
      · exact .inr ⟨p, mem_append_left _ hp, hh, hk.trans hn⟩
    · exact .inr ⟨q, mem_append_right _ hq, hh, hn⟩
  · intro p hp
    rcases mem_append.1 hp with hi | hs
    · obtain ⟨q, hq, hh, hf⟩ := h.present p hi
      rcases h'.frame (sha256 p) with hk | ⟨r, hr, hh', hn⟩
      · exact ⟨q, mem_append_left _ hq, hh, hk.trans hf⟩
      · exact ⟨r, mem_append_right _ hr, hh', hn⟩
    · obtain ⟨q, hq, hh, hf⟩ := h'.present p hs
      exact ⟨q, mem_append_right _ hq, hh, hf⟩

theorem publishChunkBatch_stores
    (h : publishChunkBatch sha256 store (ps.map fun p => (sha256 p, p)) = .ok (outcomes, store')) :
    Stores sha256 store store' ps := by
  induction ps generalizing store outcomes with
  | nil =>
    obtain ⟨-, rfl⟩ := Prod.mk.inj (Except.ok.inj h)
    exact ⟨rfl, fun _ => .inl rfl, fun _ hp => by cases hp⟩
  | cons p ps ih =>
    simp only [map_cons, publishChunkBatch, except_bind_ok, Prod.exists, Except.ok.injEq,
      Prod.mk.injEq] at h
    obtain ⟨outcome, middle, hf, rest, final, hr, -, rfl⟩ := h
    exact (storeChunk_stores hf).trans (ih hr)

section CollisionFree

variable (inj : Set.InjOn sha256 S)

variable {ps : List Bytes}

include inj in
theorem Stores.holds (h : Stores sha256 store store' ps) (hps : ∀ p ∈ ps, p ∈ S)
    (hqs : ∀ q ∈ qs, q ∈ S) (hs : ∀ q ∈ qs, store.chunks (sha256 q) = some q) :
    ∀ p ∈ qs ++ ps, store'.chunks (sha256 p) = some p := by
  intro p hp
  rcases mem_append.1 hp with ho | hn
  · rcases h.frame (sha256 p) with hk | ⟨q, hq, hh, hf⟩
    · exact hk.trans (hs p ho)
    · rw [hf, inj (hps q hq) (hqs p ho) hh]
  · obtain ⟨q, hq, hh, hf⟩ := h.present p hn
    rw [hf, inj (hps q hq) (hps p hn) hh]

/-- No file under the name of a chunk in `S` has other contents. -/
def Clean (sha256 : Bytes → Digest) (S : Set Bytes) (store : ChunkStore) : Prop :=
  ∀ p ∈ S, store.chunks (sha256 p) = none ∨ store.chunks (sha256 p) = some p

include inj in
theorem Stores.clean (h : Stores sha256 store store' ps) (hps : ∀ p ∈ ps, p ∈ S)
    (hc : Clean sha256 S store) : Clean sha256 S store' := by
  intro p hp
  rcases h.frame (sha256 p) with hk | ⟨q, hq, hh, hf⟩
  · rw [hk]
    exact hc p hp
  · right
    rw [hf, inj (hps q hq) hp hh]

theorem storeChunk_total
    (h : store.chunks (sha256 p) = none ∨ store.chunks (sha256 p) = some p) :
    ∃ outcome store', storeChunk sha256 store (sha256 p) p = .ok (outcome, store') := by
  unfold storeChunk
  rcases h with hn | hs
  · rw [hn]
    exact ⟨_, _, rfl⟩
  · rw [hs]
    simp only [if_true]
    exact ⟨_, _, rfl⟩

include inj in
theorem publishChunkBatch_total (hps : ∀ p ∈ ps, p ∈ S) (hc : Clean sha256 S store) :
    ∃ outcomes store',
      publishChunkBatch sha256 store (ps.map fun p => (sha256 p, p)) = .ok (outcomes, store') := by
  induction ps generalizing store with
  | nil => exact ⟨[], store, rfl⟩
  | cons p ps ih =>
    have hp := hps p mem_cons_self
    obtain ⟨outcome, middle, hf⟩ := storeChunk_total (hc p hp)
    have hc' : Clean sha256 S middle := by
      apply (storeChunk_stores hf).clean inj _ hc
      intro q hq
      rwa [mem_singleton.1 hq]
    obtain ⟨outcomes, final, hr⟩ := ih (fun q hq => hps q (mem_cons_of_mem _ hq)) hc'
    refine ⟨outcome :: outcomes, final, ?_⟩
    simp only [map_cons, publishChunkBatch, except_bind_ok, Prod.exists, Except.ok.injEq,
      Prod.mk.injEq]
    exact ⟨outcome, middle, hf, outcomes, final, hr, rfl, rfl⟩

end CollisionFree

/-- The writer has absorbed the front of the stream `nar`, of which `future` is still to come,
and has published `pieces`, the first of its chunks. -/
structure Progress (sha256 : Bytes → Digest)
    (chunker : ∀ profile : ChunkProfile, Chunker UInt8 profile.minSize profile.maxSize)
    (w : ChunkingWriter) (nar future : Bytes) (pieces : List Bytes) : Prop where
  total : w.hashed ++ future = nar
  size : w.size = w.hashed.length
  bound : w.hashed.length ≤ u64Max
  split : w.hashed = pieces.flatten ++ w.pending
  cuts : (chunker w.profile).cuts nar = pieces ++ (chunker w.profile).cuts (w.pending ++ future)
  records : w.records = recordsOf (describe sha256 0 pieces)
  count : w.chunkCount = pieces.length
  previousEnd : w.previousEnd = pieces.flatten.length
  previousLength : w.previousLength = pieces.getLast?.map List.length

def Stored (sha256 : Bytes → Digest) (store : ChunkStore) (pieces : List Bytes) : Prop :=
  ∀ p ∈ pieces, store.chunks (sha256 p) = some p

def absorbed (sha256 : Bytes → Digest) (w : ChunkingWriter) (batch : List Bytes)
    (outcomes : List PublishOutcome) (store : ChunkStore) : ChunkingWriter :=
  { recorded sha256 w batch with
    store := store
    durability := outcomes.foldl ChunkDurabilityObligation.recordPublication w.durability
    pending := w.pending.drop batch.flatten.length }

section

variable (h : Progress sha256 chunker w nar future pieces)
include h

theorem Progress.pieces_wellSized : Chunker.WellSized w.profile.minSize w.profile.maxSize
      (pieces ++ (chunker w.profile).cuts (w.pending ++ future)) := by
  rw [← h.cuts]
  exact (chunker w.profile).wellSized_cuts nar

theorem publishNextBatch_ok (hne : w.pending ≠ [])
    (hf : finalBatch = true ∨ w.profile.maxSize ≤ w.pending.length)
    (hb : batch = batchOf (chunker w.profile) finalBatch chunkPublicationBatchSize w.pending) :
    publishNextBatch sha256 chunker w finalBatch = .ok w' ↔
      ∃ outcomes store,
        publishChunkBatch sha256 w.store (batch.map fun p => (sha256 p, p)) =
          .ok (outcomes, store) ∧ w' = absorbed sha256 w batch outcomes store := by
  have hl : w.size = pieces.flatten.length + w.pending.length := by
    rw [h.size, h.split, length_append]
  have ho : w.size ≤ u64Max := h.size ▸ h.bound
  obtain ⟨rest, hs, hc⟩ :=
    batchOf_cuts (chunker w.profile) finalBatch chunkPublicationBatchSize w.pending
  rw [← hb] at hs hc
  have hfi : batch.flatten.length + rest.length = w.pending.length := by
    rw [hs, length_append]
  have hba : batch.length ≤ batch.flatten.length := by
    have hi := (chunker w.profile).wellSized_cuts (w.pending ++ [])
    rw [hc [] (fun _ => rfl)] at hi
    exact length_le_flatten hi
  have hpi : pieces.length ≤ pieces.flatten.length := length_le_flatten h.pieces_wellSized
  have hr : w.pending.drop 0 ≠ [] → ∀ length ∈ w.previousLength, w.profile.minSize ≤ length := by
    intro _ length hl
    rw [h.previousLength] at hl
    obtain ⟨p, hp, rfl⟩ := Option.map_eq_some_iff.1 hl
    apply min_le_of_more h.pieces_wellSized _ (mem_of_getLast? hp)
    rw [(chunker w.profile).cuts_of_ne_nil (append_ne_nil_of_left_ne_nil hne future)]
    exact cons_ne_nil _ _
  have hsp : specificationsFrom sha256 chunker w finalBatch chunkPublicationBatchSize 0
      w.previousEnd w.previousLength = .ok (specify sha256 0 w.previousEnd batch) := by
    rw [specificationsFrom_eq ho _ (Nat.zero_le _) (by rw [h.previousEnd, hl]; rfl)
      hr (by omega), drop_zero, ← hb]
  have ha : batch ≠ [] := hb ▸ batchOf_ne_nil (chunker w.profile) hne hf
  have hsl : (specify sha256 0 w.previousEnd batch).map
      (fun s => (s.hash, (w.pending.drop s.start).take (s.stop - s.start))) =
        batch.map fun p => (sha256 p, p) := by
    apply specify_slices
    rw [drop_zero]
    exact ⟨rest, hs.symm⟩
  have hy : batchBytes 0 (specify sha256 0 w.previousEnd batch) =
      .ok (0 + batch.flatten.length) := batchBytes_specify (by omega)
  have he : ∀ outcomes store, recordPublishedChunks
      { w with
        store := store
        durability := List.foldl ChunkDurabilityObligation.recordPublication w.durability outcomes }
      (specify sha256 0 w.previousEnd batch) = .ok (recorded sha256 { w with
        store := store
        durability := List.foldl ChunkDurabilityObligation.recordPublication w.durability outcomes }
      batch) := by
    intro outcomes store
    apply recordPublishedChunks_specify
    rw [h.count]
    omega
  simp only [publishNextBatch, nextChunkSpecifications, except_bind_ok, Prod.exists, require_ok,
    exists_const, Except.ok.injEq, hsp, exists_eq_left', hy, hsl,
    specify_ne_nil ha, ne_eq, not_false_eq_true, true_and, he, specify_last ha, Nat.zero_add]
  constructor
  · rintro ⟨outcomes, store, ht, rfl⟩
    exact ⟨outcomes, store, ht, rfl⟩
  · rintro ⟨outcomes, store, ht, rfl⟩
    exact ⟨outcomes, store, ht, rfl⟩

theorem Progress.absorbed (hne : w.pending ≠ [])
    (hu : finalBatch = true ∨ w.profile.maxSize ≤ w.pending.length)
    (hf : finalBatch = true → future = [])
    (hb : batch = batchOf (chunker w.profile) finalBatch chunkPublicationBatchSize w.pending)
    (outcomes : List PublishOutcome) (store : ChunkStore) :
    Progress sha256 chunker (absorbed sha256 w batch outcomes store) nar future (pieces ++ batch) ∧
      (absorbed sha256 w batch outcomes store).pending.length < w.pending.length := by
  obtain ⟨rest, hs, hc⟩ :=
    batchOf_cuts (chunker w.profile) finalBatch chunkPublicationBatchSize w.pending
  rw [← hb] at hs hc
  have hp : w.pending.drop batch.flatten.length = rest := by
    conv_lhs => rw [hs]
    exact drop_left
  have ha := hb ▸ batchOf_ne_nil (chunker w.profile) hne hu
  constructor
  · refine ⟨h.total, h.size, h.bound, ?_, ?_, ?_, ?_, ?_, ?_⟩
    · change w.hashed = (pieces ++ batch).flatten ++ w.pending.drop batch.flatten.length
      rw [hp, flatten_append, append_assoc, ← hs, h.split]
    · change (chunker w.profile).cuts nar =
        pieces ++ batch ++ (chunker w.profile).cuts (w.pending.drop batch.flatten.length ++ future)
      rw [hp, h.cuts, hc future hf, append_assoc]
    · change w.records ++ recordsOf (describe sha256 w.previousEnd batch) = _
      rw [h.records, h.previousEnd, describe_append, recordsOf_append, Nat.zero_add]
    · change w.chunkCount + batch.length = _
      rw [h.count, length_append]
    · change w.previousEnd + batch.flatten.length = _
      rw [h.previousEnd, flatten_append, length_append]
    · change (batch.getLast?.map List.length).or w.previousLength = _
      rw [h.previousLength, List.getLast?_append]
      cases hl : batch.getLast? with
      | none => exact absurd (List.getLast?_eq_none_iff.1 hl) ha
      | some p => rfl
  · change (w.pending.drop batch.flatten.length).length < w.pending.length
    have hi := (chunker w.profile).wellSized_cuts (w.pending ++ [])
    rw [hc [] (fun _ => rfl)] at hi
    have he := length_le_flatten hi
    have ho := length_pos_iff.2 ha
    have hn := length_pos_iff.2 hne
    rw [length_drop]
    omega

end

def chunksOf (chunker : ∀ profile : ChunkProfile, Chunker UInt8 profile.minSize profile.maxSize)
    (profile : ChunkProfile) (nar : Bytes) : Set Bytes :=
  {p | p ∈ (chunker profile).cuts nar}

theorem Progress.mem_chunksOf (h : Progress sha256 chunker w nar future pieces) (hp : p ∈ pieces) :
    p ∈ chunksOf chunker w.profile nar := by
  change p ∈ (chunker w.profile).cuts nar
  rw [h.cuts]
  exact mem_append_left _ hp

/-- A batch may be cut from a buffer with a full window, or at the end of the stream. -/
def BatchMode (w : ChunkingWriter) (future : Bytes) (finalBatch : Bool) : Prop :=
  finalBatch = false ∧ w.profile.maxSize ≤ w.pending.length ∨ finalBatch = true ∧ future = []

theorem batch_mode (hm : BatchMode w future finalBatch) :
    (finalBatch = true ∨ w.profile.maxSize ≤ w.pending.length) ∧
      (finalBatch = true → future = []) := by
  rcases hm with ⟨ho, hw⟩ | ⟨hl, he⟩
  · exact ⟨.inr hw, fun h => absurd (ho.symm.trans h) Bool.false_ne_true⟩
  · exact ⟨.inl hl, fun _ => he⟩

theorem window_of_batch {w : ChunkingWriter} {batchBytes : ℕ}
    (hy : batchBytes = w.profile.maxSize * chunkPublicationBatchSize)
    (hf : batchBytes ≤ w.pending.length) :
    w.pending ≠ [] ∧ w.profile.maxSize ≤ w.pending.length := by
  have hm : 0 < w.profile.maxSize := by
    cases w.profile
    exact Nat.succ_pos _
  have hb : w.profile.maxSize ≤ w.profile.maxSize * chunkPublicationBatchSize :=
    Nat.le_mul_of_pos_right _ (Nat.succ_pos _)
  refine ⟨?_, by omega⟩
  apply ne_nil_of_length_pos
  omega

def extended (w : ChunkingWriter) (bytes : Bytes) : ChunkingWriter :=
  { w with
    hashed := w.hashed ++ bytes
    size := w.size + bytes.length
    pending := w.pending ++ bytes }

/-- What holds of the writer and the rest of the stream before and after every batch. -/
structure Maintained (sha256 : Bytes → Digest)
    (chunker : ∀ profile : ChunkProfile, Chunker UInt8 profile.minSize profile.maxSize)
    (profile : ChunkProfile) (I : Bytes → ChunkingWriter → Prop) : Prop where
  sameProfile : ∀ future w, I future w → w.profile = profile
  batch : ∀ future w w' finalBatch, I future w → w.pending ≠ [] → BatchMode w future finalBatch →
    publishNextBatch sha256 chunker w finalBatch = .ok w' →
    I future w' ∧ w'.pending.length < w.pending.length
  extend : ∀ bytes rest w, I (bytes ++ rest) w → w.size + bytes.length ≤ u64Max →
    I rest (extended w bytes)

/-- Moreover every batch goes through, and the stream is not too long. -/
structure Productive (sha256 : Bytes → Digest)
    (chunker : ∀ profile : ChunkProfile, Chunker UInt8 profile.minSize profile.maxSize)
    (profile : ChunkProfile) (I : Bytes → ChunkingWriter → Prop) : Prop
    extends Maintained sha256 chunker profile I where
  total : ∀ future w finalBatch, I future w → w.pending ≠ [] → BatchMode w future finalBatch →
    ∃ w', publishNextBatch sha256 chunker w finalBatch = .ok w'
  bound : ∀ future w, I future w → w.size + future.length ≤ u64Max

section Loops

namespace Maintained

theorem publishCompleteChunks (hI : Maintained sha256 chunker profile I) (h : I future w)
    (hok : publishCompleteChunks sha256 chunker w = .ok w') : I future w' := by
  simp only [ChunkIngest.publishCompleteChunks, except_bind_ok, okOr_ok, checkedMul_eq_some] at hok
  obtain ⟨batchBytes, ⟨-, hb⟩, hl⟩ := hok
  rw [hI.sameProfile _ _ h] at hb
  refine whileLoop_invariant (I := I future) (fun s t hs hf hp => ?_) h hl
  obtain ⟨hne, hw⟩ := window_of_batch (by rw [hI.sameProfile _ _ hs, hb]) hf
  exact (hI.batch _ _ _ _ hs hne (.inl ⟨rfl, hw⟩) hp).1

theorem writeAll (hI : Maintained sha256 chunker profile I)
    (h : I writes.flatten w) (hok : writeAll sha256 chunker w writes = .ok w') : I [] w' := by
  induction writes generalizing w with
  | nil =>
    cases Except.ok.inj hok
    exact h
  | cons bytes writes ih =>
    simp only [ChunkIngest.writeAll, write, except_bind_ok, okOr_ok, checkedAdd_eq_some] at hok
    obtain ⟨w₁, ⟨size, ⟨hb, rfl⟩, hp⟩, hr⟩ := hok
    rw [flatten_cons] at h
    exact ih (hI.publishCompleteChunks (hI.extend _ _ _ h hb) hp) hr

theorem publishPendingChunk (hI : Maintained sha256 chunker profile I) (h : I [] w)
    (hok : publishPendingChunk sha256 chunker w = .ok w') : I [] w' ∧ w'.pending = [] := by
  have he : ∀ s t : ChunkingWriter, I [] s → s.pending ≠ [] →
      publishNextBatch sha256 chunker s true = .ok t →
      I [] t ∧ t.pending.length < s.pending.length := by
    intro s t hs hne hp
    exact hI.batch _ _ _ _ hs hne (.inr ⟨rfl, rfl⟩) hp
  unfold ChunkIngest.publishPendingChunk at hok
  refine ⟨whileLoop_invariant (fun s t hs hc ht => (he s t hs hc ht).1) h hok, ?_⟩
  have hd := whileLoop_done (fun s : ChunkingWriter => s.pending.length)
    (fun s hne => length_pos_iff.2 hne) he h le_rfl hok
  exact not_not.1 hd

end Maintained

namespace Productive

theorem publishCompleteChunks (hI : Productive sha256 chunker profile I) (h : I future w) :
    ∃ w', publishCompleteChunks sha256 chunker w = .ok w' := by
  have hb : w.profile.maxSize * chunkPublicationBatchSize ≤ u64Max := by
    cases w.profile
    decide
  simp only [ChunkIngest.publishCompleteChunks, except_bind_ok, okOr_ok, checkedMul_eq_some]
  have hw : ∀ s : ChunkingWriter, I future s →
      w.profile.maxSize * chunkPublicationBatchSize ≤ s.pending.length →
      s.pending ≠ [] ∧ s.profile.maxSize ≤ s.pending.length := by
    intro s hs hf
    have hp := (hI.sameProfile _ _ hs).trans (hI.sameProfile _ _ h).symm
    exact window_of_batch (by rw [hp]) hf
  obtain ⟨w', hl⟩ := whileLoop_total (I := I future)
    (fun s t hs hc ht => (hI.batch _ _ _ _ hs (hw s hs hc).1 (.inl ⟨rfl, (hw s hs hc).2⟩) ht).1)
    (fun s hs hc => hI.total _ _ _ hs (hw s hs hc).1 (.inl ⟨rfl, (hw s hs hc).2⟩))
    w.pending.length h
  exact ⟨w', _, ⟨hb, rfl⟩, hl⟩

theorem writeAll (hI : Productive sha256 chunker profile I)
    (h : I writes.flatten w) : ∃ w', writeAll sha256 chunker w writes = .ok w' := by
  induction writes generalizing w with
  | nil => exact ⟨w, rfl⟩
  | cons bytes writes ih =>
    have hs := hI.bound _ _ h
    rw [flatten_cons] at h hs
    rw [length_append] at hs
    have hb : w.size + bytes.length ≤ u64Max := by omega
    have he := hI.extend _ _ _ h hb
    obtain ⟨w₁, hp⟩ := hI.publishCompleteChunks he
    obtain ⟨w', hr⟩ := ih (hI.toMaintained.publishCompleteChunks he hp)
    simp only [ChunkIngest.writeAll, write, except_bind_ok, okOr_ok, checkedAdd_eq_some]
    exact ⟨w', w₁, ⟨_, ⟨hb, rfl⟩, hp⟩, hr⟩

theorem publishPendingChunk (hI : Productive sha256 chunker profile I) (h : I [] w) :
    ∃ w', publishPendingChunk sha256 chunker w = .ok w' := whileLoop_total (I := I [])
    (fun _ _ hs hne ht => (hI.batch _ _ _ _ hs hne (.inr ⟨rfl, rfl⟩) ht).1)
    (fun _ hs hne => hI.total _ _ _ hs hne (.inr ⟨rfl, rfl⟩)) w.pending.length h

end Productive

end Loops

theorem Progress.size_add (h : Progress sha256 chunker w nar future pieces) :
    w.size + future.length = nar.length := by
  rw [h.size, ← h.total, length_append]

theorem Progress.extend (h : Progress sha256 chunker w nar (bytes ++ rest) pieces)
    (hb : w.size + bytes.length ≤ u64Max) :
    Progress sha256 chunker (extended w bytes) nar rest pieces where
  total := by
    rw [← h.total, ← append_assoc]
    rfl
  size := by
    change w.size + bytes.length = (w.hashed ++ bytes).length
    rw [h.size, length_append]
  bound := by
    change (w.hashed ++ bytes).length ≤ u64Max
    rw [length_append, ← h.size]
    exact hb
  split := by
    change w.hashed ++ bytes = pieces.flatten ++ (w.pending ++ bytes)
    rw [h.split, append_assoc]
  cuts := by
    rw [h.cuts, ← append_assoc]
    rfl
  records := h.records
  count := h.count
  previousEnd := h.previousEnd
  previousLength := h.previousLength

/-- What holds of the writer between two calls, for an ingest of `nar` into `store`. -/
structure Consistent (sha256 : Bytes → Digest)
    (chunker : ∀ profile : ChunkProfile, Chunker UInt8 profile.minSize profile.maxSize)
    (store : ChunkStore) (profile : ChunkProfile) (nar future : Bytes) (w : ChunkingWriter) :
    Prop where
  sameProfile : w.profile = profile
  manifests : w.store.manifests = store.manifests
  clean : Clean sha256 (chunksOf chunker profile nar) store →
    Clean sha256 (chunksOf chunker profile nar) w.store
  progress : ∃ pieces, Progress sha256 chunker w nar future pieces ∧ Stored sha256 w.store pieces

section Steps

variable (inj : Set.InjOn sha256 (chunksOf chunker profile nar))

include inj in
theorem publishNextBatch_consistent (h : Consistent sha256 chunker store profile nar future w)
    (hne : w.pending ≠ []) (ho : BatchMode w future finalBatch)
    (hok : publishNextBatch sha256 chunker w finalBatch = .ok w') :
    Consistent sha256 chunker store profile nar future w' ∧
      w'.pending.length < w.pending.length := by
  obtain ⟨rfl, ha, hc, pieces, hr, hst⟩ := h
  obtain ⟨hf, hi⟩ := batch_mode ho
  obtain ⟨outcomes, store', hb, rfl⟩ := (publishNextBatch_ok hr hne hf rfl).1 hok
  obtain ⟨hr', hl⟩ := hr.absorbed hne hf hi rfl outcomes store'
  have hs := publishChunkBatch_stores hb
  have hm : ∀ p ∈ batchOf (chunker w.profile) finalBatch chunkPublicationBatchSize w.pending,
      p ∈ chunksOf chunker w.profile nar := fun p hp => hr'.mem_chunksOf (mem_append_right _ hp)
  refine ⟨⟨rfl, hs.manifests.trans ha, ?_, _, hr', ?_⟩, hl⟩
  · intro ht
    exact hs.clean inj hm (hc ht)
  · exact hs.holds inj hm (fun p hp => hr.mem_chunksOf hp) hst

include inj in
theorem publishNextBatch_total (h : Consistent sha256 chunker store profile nar future w)
    (hs : Clean sha256 (chunksOf chunker profile nar) store)
    (hne : w.pending ≠ []) (hm : BatchMode w future finalBatch) :
    ∃ w', publishNextBatch sha256 chunker w finalBatch = .ok w' := by
  obtain ⟨rfl, -, hc, pieces, hr, -⟩ := h
  obtain ⟨hf, hi⟩ := batch_mode hm
  obtain ⟨hr', -⟩ := hr.absorbed hne hf hi rfl [] w.store
  obtain ⟨outcomes, store', hb⟩ := publishChunkBatch_total inj
    (fun p hp => hr'.mem_chunksOf (mem_append_right _ hp)) (hc hs)
  exact ⟨_, (publishNextBatch_ok hr hne hf rfl).2 ⟨outcomes, store', hb, rfl⟩⟩

include inj in
theorem consistent_maintained :
    Maintained sha256 chunker profile (Consistent sha256 chunker store profile nar) where
  sameProfile _ _ h := h.sameProfile
  batch _ _ _ _ h hne ho hok := publishNextBatch_consistent inj h hne ho hok
  extend := by
    intro bytes rest w h hb
    obtain ⟨hp, hm, hc, pieces, hr, hs⟩ := h
    exact ⟨hp, hm, hc, pieces, hr.extend hb, hs⟩

include inj in
theorem consistent_productive (hs : Clean sha256 (chunksOf chunker profile nar) store)
    (hn : nar.length ≤ u64Max) :
    Productive sha256 chunker profile (Consistent sha256 chunker store profile nar) where
  toMaintained := consistent_maintained inj
  total _ _ _ h hne hm := publishNextBatch_total inj h hs hne hm
  bound := by
    intro future w h
    obtain ⟨-, -, -, pieces, hp, -⟩ := h
    rw [hp.size_add]
    exact hn

end Steps

theorem progress_beginIngest (store : ChunkStore) (profile : ChunkProfile) (nar : Bytes) :
    Progress sha256 chunker (beginIngest store profile) nar nar [] :=
  ⟨rfl, rfl, Nat.zero_le _, rfl, rfl, rfl, rfl, rfl, rfl⟩

theorem beginIngest_consistent (store : ChunkStore) (profile : ChunkProfile) (nar : Bytes) :
    Consistent sha256 chunker store profile nar nar (beginIngest store profile) := by
  refine ⟨rfl, rfl, id, [], progress_beginIngest store profile nar, ?_⟩
  intro p hp
  cases hp

def manifestOf (sha256 : Bytes → Digest)
    (chunker : ∀ profile : ChunkProfile, Chunker UInt8 profile.minSize profile.maxSize)
    (profile : ChunkProfile) (nar : Bytes) : ChunkManifest :=
  ⟨⟨sha256 nar, nar.length⟩, profile, ((chunker profile).cuts nar).length⟩

def manifestFileOf (sha256 : Bytes → Digest)
    (chunker : ∀ profile : ChunkProfile, Chunker UInt8 profile.minSize profile.maxSize)
    (profile : ChunkProfile) (nar : Bytes) : Bytes :=
  completeManifest sha256 (manifestOf sha256 chunker profile nar)
    (recordsOf (describe sha256 0 ((chunker profile).cuts nar)))

theorem length_manifestFileOf (profile : ChunkProfile) (nar : Bytes) :
    (manifestFileOf sha256 chunker profile nar).length =
      60 + ((chunker profile).cuts nar).length * 40 + 32 := by
  simp only [manifestFileOf, completeManifest, length_append, length_manifestHeader,
    length_recordsOf, length_describe, Digest.length_eq]

theorem encodedManifestSize_ok {count bytes : ℕ} :
    encodedManifestSize count = .ok bytes ↔
      60 + count * 40 + 32 ≤ u64Max ∧ bytes = 60 + count * 40 + 32 := by
  simp only [encodedManifestSize, except_bind_ok, okOr_ok, checkedMul_eq_some, checkedAdd_eq_some,
    manifestRecordBytes, manifestHeaderBytes, manifestChecksumBytes]
  constructor
  · rintro ⟨_, ⟨-, rfl⟩, hf, rfl⟩
    omega
  · rintro ⟨hf, rfl⟩
    exact ⟨_, ⟨by omega, rfl⟩, by omega, by omega⟩

theorem publishTemporaryFile_ok (h : publishTemporaryFile store hash bytes = .ok (outcome, store')) :
    store'.chunks = store.chunks ∧ store'.manifests hash = some bytes ∧
      ∀ other, other ≠ hash → store'.manifests other = store.manifests other := by
  unfold publishTemporaryFile at h
  cases hf : store.manifests hash with
  | none =>
    rw [hf] at h
    obtain ⟨-, rfl⟩ := Prod.mk.inj (Except.ok.inj h)
    exact ⟨rfl, Function.update_self .., fun _ ho => Function.update_of_ne ho ..⟩
  | some existing =>
    rw [hf] at h
    simp only at h
    split at h
    · rename_i heq
      obtain ⟨-, rfl⟩ := Prod.mk.inj (Except.ok.inj h)
      exact ⟨rfl, by rw [hf, heq], fun _ _ => rfl⟩
    · cases h

theorem publishTemporaryFile_absent (h : store.manifests hash = none) :
    publishTemporaryFile store hash bytes = .ok (.created,
      { store with manifests := Function.update store.manifests hash (some bytes) }) := by
  simp only [publishTemporaryFile, h]

section Whole

variable (inj : Set.InjOn sha256 (chunksOf chunker profile nar))

theorem Progress.all_pieces (h : Progress sha256 chunker w nar [] pieces) (he : w.pending = []) :
    pieces = (chunker w.profile).cuts nar ∧ w.hashed = nar := by
  have hc := h.cuts
  rw [he, append_nil, Chunker.cuts_nil, append_nil] at hc
  refine ⟨hc.symm, ?_⟩
  rw [← h.total, append_nil]

include inj in
theorem ingest_ok (hwr : writes.flatten = nar) {expected}
    (h : ingest sha256 chunker store profile writes expected synchronize =
      .ok (completed, store')) :
    completed.manifest = manifestOf sha256 chunker profile nar ∧
      Encodable (manifestOf sha256 chunker profile nar) ∧
      store'.manifests (sha256 nar) = some (manifestFileOf sha256 chunker profile nar) ∧
      Stored sha256 store' ((chunker profile).cuts nar) ∧
      ∀ other, other ≠ sha256 nar → store'.manifests other = store.manifests other := by
  simp only [ingest, finish, verifyIdentityAndRecordCoverage, publishManifest, except_bind_ok,
    mapError_ok, Prod.exists, Except.ok.injEq, Prod.mk.injEq] at h
  obtain ⟨w₁, hw, w₂, hn, _, ⟨_, -, _, -, rfl⟩, _, -, bytes, hs, outcome, published,
    hu, rfl, rfl⟩ := h
  have ha : Consistent sha256 chunker store profile nar writes.flatten
      (beginIngest store profile) := by
    rw [hwr]
    exact beginIngest_consistent store profile nar
  obtain ⟨⟨rfl, hk, -, pieces, hr, ho⟩, he⟩ := (consistent_maintained inj).publishPendingChunk
      ((consistent_maintained inj).writeAll ha hw) hn
  obtain ⟨hi, hh⟩ := hr.all_pieces he
  have hm : (⟨⟨sha256 w₂.hashed, w₂.size⟩, w₂.profile, w₂.chunkCount⟩ : ChunkManifest) =
      manifestOf sha256 chunker w₂.profile nar := by
    rw [manifestOf, hr.size, hr.count, hh, hi]
  obtain ⟨ht, -⟩ := encodedManifestSize_ok.1 hs
  rw [hm] at hu ht
  obtain ⟨hc, hf, hn⟩ := publishTemporaryFile_ok hu
  refine ⟨hm, ⟨?_, ht⟩, ?_, ?_, fun other hne => (hn other hne).trans (congrFun hk other)⟩
  · have hb := hr.bound
    rwa [hh] at hb
  · rw [hr.records, hi] at hf
    exact hf
  · intro p hp
    rw [hc]
    exact ho p (hi ▸ hp)

include inj in
/-- Into an empty store, with a working barrier, every NAR whose length and manifest length
fit a word is ingested. -/
theorem ingest_total (ht : writes.flatten = nar) (ha : nar.length ≤ u64Max)
    (hf : 60 + ((chunker profile).cuts nar).length * 40 + 32 ≤ u64Max) :
    ∃ completed store', ingest sha256 chunker .empty profile writes ⟨sha256 nar, nar.length⟩
      (.ok ()) = .ok (completed, store') := by
  have hs : Consistent sha256 chunker .empty profile nar writes.flatten
      (beginIngest .empty profile) := by
    rw [ht]
    exact beginIngest_consistent .empty profile nar
  have hc : Clean sha256 (chunksOf chunker profile nar) .empty := fun _ _ => .inl rfl
  have hr := consistent_productive inj hc ha
  obtain ⟨w₁, hw⟩ := hr.writeAll hs
  have hi := (consistent_maintained inj).writeAll hs hw
  obtain ⟨w₂, hd⟩ := hr.publishPendingChunk hi
  obtain ⟨⟨hpr, hm, -, pieces, hp, -⟩, he⟩ := (consistent_maintained inj).publishPendingChunk hi hd
  obtain ⟨hpi, hh⟩ := hp.all_pieces he
  have hn : ∀ hash, w₂.store.manifests hash = none := fun hash => by rw [hm]; rfl
  have ho : w₂.chunkCount = ((chunker profile).cuts nar).length := by
    rw [hp.count, hpi, hpr]
  have hv : w₂.previousEnd = w₂.size := by
    rw [hp.previousEnd, hp.size, hp.split, he, append_nil]
  have hu : ∀ manifest, makeChunksDurable sha256 w₂ manifest (.ok ()) = .ok () := by
    intro manifest
    unfold makeChunksDurable validateManifest
    cases w₂.durability with
    | empty => rfl
    | reused =>
      rw [hn]
      simp [except_bind_ok]
    | newlyPublished => simp
  simp only [ingest, finish, verifyIdentityAndRecordCoverage, verifyStreamedNarIdentity,
    verifyChunkRecordCoverage, publishManifest, except_bind_ok, require_ok, mapError_ok,
    Prod.exists, Except.ok.injEq, Prod.mk.injEq, encodedManifestSize_ok]
  refine ⟨_, _, w₁, hw, w₂, hd, _,
    ⟨(), ⟨(), by rw [hh], by rw [hp.size, hh]⟩, (), hv, rfl⟩, (),
    hu _, _, ⟨by rw [ho]; exact hf, rfl⟩, .created, _, publishTemporaryFile_absent (hn _), rfl, rfl⟩

end Whole

end ChunkIngestProgress
