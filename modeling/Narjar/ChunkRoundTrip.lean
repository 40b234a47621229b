import Narjar.ChunkReader

/-!
# Reading back what was ingested

The reader delivers exactly the requested range of a NAR whose chunks and manifest are in
the store. Together with the ingest this gives the round trip, up to the size limit that
the serving path puts on manifests and the ingest does not check.
-/
namespace ChunkRoundTrip

open ByteCodecs FallibleState NarFormat ManifestFormat StreamChunking ChunkIngest
open ChunkIngestProgress ChunkReader List

variable {sha256 : Bytes → Digest} {store : ChunkStore} {call : ReadCall}

/-- The loaded chunk still has the bytes `slice` to give, up to the NAR offset `narEnd`. -/
def Holds (slice : Bytes) (narEnd : ℕ) : LoadedChunk → Prop
  | .serving file remaining stop => stop = narEnd ∧ remaining ≤ file.length ∧ slice = file.take remaining
  | .verified bytes position endPosition stop =>
    stop = narEnd ∧ position ≤ endPosition ∧ endPosition ≤ bytes.length ∧
      slice = (bytes.drop position).take (endPosition - position)

theorem readLoaded_holds {slice : Bytes} {narEnd : ℕ}
    (hc : Holds slice narEnd chunk) (hne : slice ≠ []) (hm : call.bufferLength ≠ 0) :
    ∃ output rest left, slice = output ++ rest ∧ output ≠ [] ∧
      output.length ≤ call.bufferLength ∧ Holds rest narEnd left ∧
      readLoaded call r chunk = .ok (output, keepChunk r narEnd (rest = []) left) := by
  have hp := length_pos_iff.2 hne
  cases chunk with
  | serving file remaining stop =>
    obtain ⟨rfl, hr, rfl⟩ := hc
    rw [length_take, Nat.min_eq_left hr] at hp
    set read := min (min (min remaining call.bufferLength) file.length) (max call.readLimit 1)
      with ha
    have hle : read ≤ remaining := by omega
    have he : file.take remaining = file.take read ++ (file.drop read).take (remaining - read) := by
      rw [← take_add, Nat.add_sub_cancel' hle]
    have hd : (remaining - read = 0) = ((file.drop read).take (remaining - read) = []) := by
      rw [← length_eq_zero_iff, length_take, length_drop]
      apply propext
      omega
    refine ⟨file.take read, (file.drop read).take (remaining - read),
      .serving (file.drop read) (remaining - read) stop, he, ?_, ?_, ⟨rfl, ?_, rfl⟩, ?_⟩
    · apply ne_nil_of_length_pos
      rw [length_take]
      omega
    · rw [length_take]
      omega
    · rw [length_drop]
      omega
    · simp only [readLoaded, ← ha]
      rw [if_neg (by omega)]
      simp only [hd]
  | verified bytes position endPosition stop =>
    obtain ⟨rfl, hs, hn, rfl⟩ := hc
    set remaining := (bytes.drop position).take (endPosition - position) with hr
    have hl : remaining.length = endPosition - position := by
      rw [hr, length_take, length_drop]
      omega
    set copied := min remaining.length call.bufferLength with ho
    have he : remaining.drop copied =
        (bytes.drop (position + copied)).take (endPosition - (position + copied)) := by
      rw [hr, drop_take, drop_drop, Nat.sub_sub]
    have hd : (position + copied = endPosition) = (remaining.drop copied = []) := by
      rw [← length_eq_zero_iff, length_drop]
      apply propext
      omega
    refine ⟨remaining.take copied, remaining.drop copied,
      .verified bytes (position + copied) endPosition stop,
      (take_append_drop copied remaining).symm, ?_, ?_, ⟨rfl, by omega, hn, he⟩, ?_⟩
    · apply ne_nil_of_length_pos
      rw [length_take]
      omega
    · rw [length_take]
      omega
    · simp only [readLoaded, ← hr, ← ho, hd]

/-- The records still to come describe the pieces `ps`, all of them stored. -/
structure Ahead (sha256 : Bytes → Digest) (store : ChunkStore) (r : ChunkedNarReader)
    (ps : List Bytes) : Prop where
  listing : ∃ m, r.manifest = some m ∧ Continues sha256 m (describe sha256 r.nextChunkStart ps)
  stored : Stored sha256 store ps

/-- `data` is what the reader has still to deliver. -/
inductive Serves (sha256 : Bytes → Digest) (store : ChunkStore) :
    ChunkedNarReader → Bytes → Prop
  | between {r : ChunkedNarReader} {ps : List Bytes} (ahead : Ahead sha256 store r ps)
      (idle : r.currentChunk = none) (ordered : r.rangeCursor ≤ r.rangeEnd)
      (inside : r.rangeCursor = r.rangeEnd ∨ r.nextChunkStart ≤ r.rangeCursor ∧
        r.rangeEnd ≤ r.nextChunkStart + ps.flatten.length) :
      Serves sha256 store r
        ((ps.flatten.drop (r.rangeCursor - r.nextChunkStart)).take (r.rangeEnd - r.rangeCursor))
  | loaded {r : ChunkedNarReader} {ps : List Bytes} {chunk : LoadedChunk} {slice : Bytes}
      {narEnd : ℕ} (ahead : Ahead sha256 store r ps) (busy : r.currentChunk = some chunk)
      (holds : Holds slice narEnd chunk) (more : slice ≠ [])
      (boundary : narEnd = r.rangeEnd ∧ narEnd ≤ r.nextChunkStart ∨
        narEnd = r.nextChunkStart ∧ narEnd ≤ r.rangeEnd ∧
          r.rangeEnd ≤ r.nextChunkStart + ps.flatten.length) :
      Serves sha256 store r (slice ++ ps.flatten.take (r.rangeEnd - narEnd))
  | finished {r : ChunkedNarReader} (closed : r.manifest = none) (idle : r.currentChunk = none)
      (exhausted : r.rangeCursor = r.rangeEnd) : Serves sha256 store r []

theorem readLoaded_serves
    {slice : Bytes} {narEnd : ℕ} (ahead : Ahead sha256 store r ps)
    (holds : Holds slice narEnd chunk) (more : slice ≠ [])
    (boundary : narEnd = r.rangeEnd ∧ narEnd ≤ r.nextChunkStart ∨
      narEnd = r.nextChunkStart ∧ narEnd ≤ r.rangeEnd ∧
        r.rangeEnd ≤ r.nextChunkStart + ps.flatten.length) (hm : call.bufferLength ≠ 0) :
    ∃ output rest r', slice ++ ps.flatten.take (r.rangeEnd - narEnd) = output ++ rest ∧
      output ≠ [] ∧ output.length ≤ call.bufferLength ∧ Serves sha256 store r' rest ∧
      readLoaded call r chunk = .ok (output, r') := by
  obtain ⟨output, rest, left, hi, ho, he, hl, ha⟩ := readLoaded_holds (r := r) holds more hm
  refine ⟨output, rest ++ ps.flatten.take (r.rangeEnd - narEnd), _,
    by rw [hi, append_assoc], ho, he, ?_, ha⟩
  by_cases hr : rest = []
  · rw [hr, nil_append]
    have hs : Serves sha256 store { r with rangeCursor := narEnd, currentChunk := none }
        ((ps.flatten.drop (narEnd - r.nextChunkStart)).take (r.rangeEnd - narEnd)) := by
      refine .between ⟨ahead.listing, ahead.stored⟩ rfl (by simp only; omega) ?_
      simp only
      omega
    have hz : narEnd - r.nextChunkStart = 0 := by omega
    rw [hz, drop_zero] at hs
    exact hs
  · have hk : keepChunk r narEnd (decide (rest = [])) left =
        { r with currentChunk := some left } := by
      simp [keepChunk, hr]
    rw [hk]
    exact .loaded ⟨ahead.listing, ahead.stored⟩ rfl hl hr boundary

theorem loadChunk_ok {p : Bytes} {chunkStart start stop narEnd : ℕ}
    (hr : store.chunks (sha256 p) = some p) (hs : start ≤ stop) (ht : stop ≤ p.length) :
    ∃ chunk, loadChunk sha256 store call mode ⟨chunkStart + p.length, sha256 p⟩ chunkStart start
        stop narEnd = .ok chunk ∧ Holds ((p.drop start).take (stop - start)) narEnd chunk := by
  have ho : openListedChunk store ⟨chunkStart + p.length, sha256 p⟩ chunkStart = .ok p := by
    simp only [openListedChunk, except_bind_ok, okOr_ok, checkedSub_eq_some, require_ok,
      Except.ok.injEq]
    exact ⟨p.length, ⟨by omega, by omega⟩, p, hr, (), rfl, rfl⟩
  cases mode with
  | serving =>
    refine ⟨.serving (p.drop start) (stop - start) narEnd, ?_, rfl, ?_, rfl⟩
    · simp only [loadChunk, openServingChunk, except_bind_ok]
      exact ⟨p, ho, rfl⟩
    · rw [length_drop]
      omega
  | verified =>
    refine ⟨.verified p start stop narEnd, ?_, rfl, hs, ht, rfl⟩
    simp only [loadChunk, readVerifiedChunk, except_bind_ok, require_ok]
    exact ⟨p, ⟨p, ho, (), .inr rfl, rfl⟩, rfl⟩

theorem take_across {p q : Bytes} {i : ℕ} (hi : i ≤ p.length) (n : ℕ) :
    ((p ++ q).drop i).take n =
      (p.drop i).take (min n (p.length - i)) ++ q.take (n - (p.length - i)) := by
  have hl : (p.drop i).length = p.length - i := length_drop
  rw [drop_append_of_le_length hi, take_append, hl, ← hl, ← take_eq_take_min]

theorem loadNextOverlappingChunk_ok {ps r}
    (ahead : Ahead sha256 store r ps) (hle : r.rangeCursor < r.rangeEnd)
    (hst : r.nextChunkStart ≤ r.rangeCursor)
    (he : r.rangeEnd ≤ r.nextChunkStart + ps.flatten.length) {rounds : ℕ}
    (hr : ps.length ≤ rounds) :
    ∃ r' ps' chunk slice narEnd,
      loadNextOverlappingChunk sha256 store call rounds r =
        .ok (true, { r' with currentChunk := some chunk }) ∧
      Ahead sha256 store r' ps' ∧ Holds slice narEnd chunk ∧ slice ≠ [] ∧
      (narEnd = r'.rangeEnd ∧ narEnd ≤ r'.nextChunkStart ∨
        narEnd = r'.nextChunkStart ∧ narEnd ≤ r'.rangeEnd ∧
          r'.rangeEnd ≤ r'.nextChunkStart + ps'.flatten.length) ∧
      (ps.flatten.drop (r.rangeCursor - r.nextChunkStart)).take (r.rangeEnd - r.rangeCursor) =
        slice ++ ps'.flatten.take (r'.rangeEnd - narEnd) := by
  induction ps generalizing r rounds with
  | nil =>
    simp only [flatten_nil, length_nil] at he
    omega
  | cons p ps ih =>
    obtain ⟨⟨m, hm, hl⟩, ht⟩ := ahead
    cases rounds with
    | zero => simp at hr
    | succ rounds =>
      rw [length_cons, Nat.add_le_add_iff_right] at hr
      rw [flatten_cons, length_append] at he
      have hn := continues_nextRecord hl
      set d : ChunkDescriptor := ⟨r.nextChunkStart + p.length, sha256 p⟩ with hd
      set r₁ : ChunkedNarReader :=
        { r with manifest := some (m.advance d), nextChunkStart := d.narEnd } with hr₁
      have ha : Ahead sha256 store r₁ ps :=
        ⟨⟨_, rfl, hl.2.2.2.2⟩, fun q hq => ht q (mem_cons_of_mem _ hq)⟩
      by_cases hs : r.nextChunkStart + p.length ≤ r.rangeCursor
      · obtain ⟨r', ps', chunk, slice, narEnd, hlo, hre⟩ :=
          @ih r₁ ha hle hs (by simp only [hr₁, hd]; omega) rounds hr
        refine ⟨r', ps', chunk, slice, narEnd, ?_, ?_⟩
        · rw [loadNextOverlappingChunk, hm]
          simp only [hn, except_bind_ok, mapError_ok, Except.ok.injEq, Prod.exists, Prod.mk.injEq]
          refine ⟨_, _, ⟨rfl, rfl⟩, ?_⟩
          simp only
          rw [if_pos (.inl hs)]
          exact hlo
        · rw [flatten_cons, drop_append, drop_eq_nil_of_le (by omega), nil_append, Nat.sub_sub]
          exact hre
      · have hi := take_across (p := p) (q := ps.flatten)
          (i := r.rangeCursor - r.nextChunkStart) (by omega) (r.rangeEnd - r.rangeCursor)
        obtain ⟨chunk, hc, hh⟩ := @loadChunk_ok sha256 store call r.mode p
          r.nextChunkStart (r.rangeCursor - r.nextChunkStart)
          (min r.rangeEnd (r.nextChunkStart + p.length) - r.nextChunkStart)
          (min r.rangeEnd (r.nextChunkStart + p.length)) (ht p mem_cons_self) (by omega) (by omega)
        have ho : min r.rangeEnd (r.nextChunkStart + p.length) - r.nextChunkStart -
            (r.rangeCursor - r.nextChunkStart) = min (r.rangeEnd - r.rangeCursor)
              (p.length - (r.rangeCursor - r.nextChunkStart)) := by omega
        rw [ho] at hh
        refine ⟨r₁, ps, chunk, _, _, ?_, ha, hh, ?_, ?_, ?_⟩
        · rw [loadNextOverlappingChunk, hm]
          simp only [hn, except_bind_ok, mapError_ok, Except.ok.injEq, Prod.exists, Prod.mk.injEq]
          refine ⟨_, _, ⟨rfl, rfl⟩, ?_⟩
          simp only
          rw [if_neg (by simp only [hd]; omega), Nat.max_eq_left hst]
          simp only [except_bind_ok, Except.ok.injEq, Prod.mk.injEq, true_and]
          exact ⟨chunk, hc, rfl⟩
        · apply ne_nil_of_length_pos
          rw [length_take, length_drop]
          omega
        · simp only [hr₁, hd]
          omega
        · rw [flatten_cons, hi]
          congr 2
          simp only [hr₁]
          omega

theorem read_serves {r} {data : Bytes} (h : Serves sha256 store r data) :
    ∃ output rest r', ChunkReader.read sha256 store call r = .ok (output, r') ∧ data = output ++ rest ∧
      output.length ≤ call.bufferLength ∧ (output = [] ↔ data = [] ∨ call.bufferLength = 0) ∧
      Serves sha256 store r' rest := by
  unfold ChunkReader.read
  by_cases hr : call.bufferLength = 0
  · rw [if_pos hr]
    exact ⟨[], data, r, rfl, rfl, Nat.zero_le _, by simp [hr], h⟩
  · rw [if_neg hr]
    cases h with
    | @between ps ahead idle ordered inside =>
      rw [idle]
      by_cases hd : r.rangeCursor = r.rangeEnd
      · obtain ⟨m, hm, hi⟩ := ahead.listing
        have hf : m.finishRemaining sha256 = .ok () := finishRemaining_ok.2 ⟨_, hi⟩
        rw [hd, Nat.sub_self, take_zero]
        refine ⟨[], [], { r with manifest := none }, ?_, rfl, Nat.zero_le _, by simp,
          .finished rfl idle hd⟩
        simp only [if_true, finishManifest, hm, except_bind_ok, mapError_ok]
        exact ⟨_, ⟨(), hf, rfl⟩, rfl⟩
      · obtain ⟨hst, hn⟩ := inside.resolve_left hd
        obtain ⟨m, hm, hi⟩ := ahead.listing
        have hu : ps.length ≤ m.recordsRemaining + 1 := by
          have hl := continues_length hi
          rw [length_describe] at hl
          omega
        obtain ⟨r₁, ps₁, chunk, slice, narEnd, hlo, ha, hh, hmo, hb, ht⟩ :=
          @loadNextOverlappingChunk_ok sha256 store call ps r ahead (by omega) hst hn _ hu
        obtain ⟨output, rest, r', hs, ho, hl, hv, he⟩ :=
          @readLoaded_serves sha256 store call { r₁ with currentChunk := some chunk } ps₁ chunk slice
            narEnd ⟨ha.listing, ha.stored⟩ hh hmo hb hr
        refine ⟨output, rest, r', ?_, ht.trans hs, hl, ?_, hv⟩
        · simp only [if_neg hd, hm, Option.map_some, Option.getD_some, except_bind_ok, Prod.exists]
          exact ⟨_, _, hlo, he⟩
        · rw [ht, hs]
          simp [ho, hr]
    | @loaded ps chunk slice narEnd ahead busy holds more boundary =>
      rw [busy]
      obtain ⟨output, rest, r', hs, ho, hl, hv, he⟩ :=
        readLoaded_serves ahead holds more boundary hr
      refine ⟨output, rest, r', he, hs, hl, ?_, hv⟩
      rw [hs]
      simp [ho, hr]
    | finished closed idle exhausted =>
      rw [idle]
      refine ⟨[], [], r, ?_, rfl, Nat.zero_le _, by simp, .finished closed idle exhausted⟩
      simp only [if_pos exhausted, finishManifest, closed, except_bind_ok]
      exact ⟨r, rfl, rfl⟩

theorem reads_delivered (calls : List ReadCall) {data : Bytes}
    (h : Serves sha256 store r data) :
    ∃ outputs, reads sha256 store r calls = .ok outputs ∧ Delivered data calls outputs := by
  induction calls generalizing r data with
  | nil => exact ⟨[], rfl, trivial⟩
  | cons call calls ih =>
    obtain ⟨output, rest, r', hr, hp, hl, he, hs⟩ := @read_serves sha256 store call r data h
    obtain ⟨outputs, ha, hd⟩ := ih hs
    refine ⟨output :: outputs, ?_, rest, hp, hl, he, hd⟩
    simp only [reads, except_bind_ok, Prod.exists, Except.ok.injEq]
    exact ⟨output, r', hr, outputs, ha, rfl⟩

theorem tiles_describe {start : ℕ} {previous : Option ℕ}
    (hz : Chunker.WellSized m.profile.minSize m.profile.maxSize ps)
    (hr : ps ≠ [] → ∀ length ∈ previous, m.profile.minSize ≤ length)
    (hs : start + ps.flatten.length = m.identity.size) :
    Tiles m start previous (describe sha256 start ps) := by
  induction ps generalizing start previous with
  | nil => simpa [describe, Tiles] using hs
  | cons p ps ih =>
    obtain ⟨hp, ha, hi, he⟩ := hz
    rw [flatten_cons, length_append] at hs
    have hl : start + p.length - start = p.length := Nat.add_sub_cancel_left _ _
    refine ⟨Nat.lt_add_of_pos_right hp, by rwa [hl], by rw [← hs]; exact Nat.add_le_add_left (Nat.le_add_right _ _) _,
      hr (cons_ne_nil _ _), ?_⟩
    apply ih he _ (by rw [← hs, Nat.add_assoc])
    intro ho length hm
    rw [hl] at hm
    cases Option.mem_some_iff.1 hm
    exact hi ho

variable {chunker : ∀ profile : ChunkProfile, Chunker UInt8 profile.minSize profile.maxSize}
variable {profile : ChunkProfile} {nar : Bytes}

theorem manifestFileOf_opens (hm : Encodable (manifestOf sha256 chunker profile nar))
    {maxBytes : ℕ} (ha : (manifestFileOf sha256 chunker profile nar).length ≤ maxBytes) :
    ∃ m, ManifestReader.new (manifestFileOf sha256 chunker profile nar) maxBytes = .ok m ∧
      m.manifest = manifestOf sha256 chunker profile nar ∧
      Continues sha256 m (describe sha256 0 ((chunker profile).cuts nar)) := by
  apply completeManifest_opens hm (length_describe 0 _).symm _ ha
  apply tiles_describe ((chunker profile).wellSized_cuts nar)
  · intro _ length hl
    cases hl
  · rw [Chunker.flatten_cuts, Nat.zero_add]
    rfl

theorem openReader_serves (hm : Encodable (manifestOf sha256 chunker profile nar))
    (hf : store.manifests (sha256 nar) = some (manifestFileOf sha256 chunker profile nar))
    (hr : Stored sha256 store ((chunker profile).cuts nar)) {maxBytes : ℕ}
    (hx : (manifestFileOf sha256 chunker profile nar).length ≤ maxBytes) {start stop : ℕ}
    (ho : start ≤ stop) (ht : stop ≤ nar.length) (mode : ChunkReadMode) :
    ∃ r, openReaderWithMode store (sha256 nar) start stop maxBytes mode = .ok r ∧
      Serves sha256 store r ((nar.drop start).take (stop - start)) := by
  obtain ⟨m, hn, ha, hl⟩ := manifestFileOf_opens hm hx
  refine ⟨⟨some m, start, stop, 0, none, mode⟩, ?_, ?_⟩
  · simp only [openReaderWithMode, validateRange, except_bind_ok, okOr_ok, mapError_ok, require_ok]
    refine ⟨_, hf, m, hn, (), by rw [ha]; rfl, (), ?_, rfl⟩
    rw [ha]
    simp only [manifestOf]
    omega
  · have hs : Serves sha256 store ⟨some m, start, stop, 0, none, mode⟩
        ((((chunker profile).cuts nar).flatten.drop (start - 0)).take (stop - start)) := by
      refine .between ⟨⟨m, rfl, hl⟩, hr⟩ rfl ho (.inr ⟨Nat.zero_le _, ?_⟩)
      rw [Chunker.flatten_cuts, Nat.zero_add]
      exact ht
    rwa [Chunker.flatten_cuts, Nat.sub_zero] at hs

theorem openReader_too_large {hash : Digest} {file : Bytes}
    (hf : store.manifests hash = some file) {maxBytes : ℕ} (hl : maxBytes < file.length)
    (start stop : ℕ) (mode : ChunkReadMode) :
    openReaderWithMode store hash start stop maxBytes mode =
      .error (.manifest .lengthOverflow) := by
  have hn : ManifestReader.new file maxBytes = .error .lengthOverflow := by
    rw [ManifestReader.new, require, if_neg (by omega)]
    rfl
  simp only [openReaderWithMode, hf, okOr, bind, Except.bind, hn, Except.mapError]

/-- Every range of the NAR opens under the serving limit, in both modes, and any sequence of
reads returns its bytes and then nothing. -/
def ReadsBack (sha256 : Bytes → Digest) (store : ChunkStore) (nar : Bytes) : Prop :=
  ∀ mode start stop, start ≤ stop → stop ≤ nar.length →
    ∃ r, openReaderWithMode store (sha256 nar) start stop maxChunkManifestBytes mode = .ok r ∧
      ∀ calls : List ReadCall, ∃ outputs, reads sha256 store r calls = .ok outputs ∧
        Delivered ((nar.drop start).take (stop - start)) calls outputs ∧
        (stop - start ≤ (calls.filter fun call => 0 < call.bufferLength).length →
          outputs.flatten = (nar.drop start).take (stop - start))

variable {store' : ChunkStore} {writes : List Bytes} {synchronize : Except IoError Unit}
variable {completed : CompletedChunkedIngest}

/-- Ingesting a NAR and reading it back returns its bytes exactly when the NAR is cut into at
most 3355440 chunks: the manifest of more chunks is published but exceeds the serving limit. -/
theorem ingested_nar_reads_back_iff (hwrites : writes.flatten = nar)
    (inj : Set.InjOn sha256 (chunksOf chunker profile nar))
    (h : ingest sha256 chunker store profile writes ⟨sha256 nar, nar.length⟩ synchronize =
      .ok (completed, store')) :
    ReadsBack sha256 store' nar ↔ ((chunker profile).cuts nar).length ≤ 3355440 := by
  obtain ⟨-, hm, hf, hst, -⟩ := ingest_ok inj hwrites h
  have hl : (manifestFileOf sha256 chunker profile nar).length = _ :=
    length_manifestFileOf profile nar
  have hi : maxChunkManifestBytes = 134217728 := rfl
  constructor
  · intro he
    by_contra ha
    obtain ⟨r, ho, -⟩ := he .serving 0 0 le_rfl (Nat.zero_le _)
    rw [openReader_too_large hf (by omega)] at ho
    cases ho
  · intro hfe mode start stop hr ht
    have hw : (manifestFileOf sha256 chunker profile nar).length ≤ maxChunkManifestBytes := by omega
    obtain ⟨r, ho, hs⟩ := openReader_serves hm hf hst hw hr ht mode
    refine ⟨r, ho, fun calls => ?_⟩
    obtain ⟨outputs, hu, hd⟩ := reads_delivered calls hs
    refine ⟨outputs, hu, hd, fun hc => delivered_all hd ?_⟩
    rw [length_take, length_drop]
    omega

/-- Cuts at the minimum, as a stream of zeros is cut: no position is better than the first. -/
def fixedChunker (profile : ChunkProfile) :
    Chunker UInt8 profile.minSize profile.maxSize where
  cut s := min s.length profile.minSize
  cut_pos s hs := by
    have hlength := List.length_pos_iff.2 hs
    have hmin : 0 < profile.minSize := by
      cases profile
      exact Nat.succ_pos _
    omega
  cut_le_length s := Nat.min_le_left _ _
  min_le_cut s := by omega
  cut_window s := by
    have hmin : profile.minSize ≤ profile.maxSize := by
      cases profile
      decide
    rw [List.length_take]
    omega

def zeros (length : ℕ) : Bytes := List.replicate length 0

def zeroNar (count : ℕ) : Bytes := zeros (count * 262144)

theorem cuts_short (hne : bytes ≠ []) (hl : bytes.length ≤ 262144) :
    (fixedChunker .minCdcHash4V2).cuts bytes = [bytes] := by
  have hc : (fixedChunker .minCdcHash4V2).cut bytes = bytes.length := Nat.min_eq_left hl
  rw [Chunker.cuts_of_ne_nil _ hne, hc, take_length, drop_length, Chunker.cuts_nil]

theorem cuts_zeros (count rest : ℕ) :
    (fixedChunker .minCdcHash4V2).cuts (zeros (count * 262144 + rest)) =
      List.replicate count (zeros 262144) ++ (fixedChunker .minCdcHash4V2).cuts (zeros rest) := by
  induction count with
  | zero => rw [Nat.zero_mul, Nat.zero_add, replicate_zero, nil_append]
  | succ count ih =>
    have hne : zeros ((count + 1) * 262144 + rest) ≠ [] := by
      rw [zeros, Ne, replicate_eq_nil_iff]
      omega
    have hc : (fixedChunker .minCdcHash4V2).cut (zeros ((count + 1) * 262144 + rest)) = 262144 := by
      change min (zeros ((count + 1) * 262144 + rest)).length 262144 = 262144
      rw [zeros, length_replicate]
      omega
    have ht : (zeros ((count + 1) * 262144 + rest)).take 262144 = zeros 262144 := by
      rw [zeros, take_replicate, Nat.min_eq_left (by omega), zeros]
    have hd : (zeros ((count + 1) * 262144 + rest)).drop 262144 = zeros (count * 262144 + rest) := by
      rw [zeros, drop_replicate, zeros, show (count + 1) * 262144 + rest - 262144 =
        count * 262144 + rest by omega]
    rw [Chunker.cuts_of_ne_nil _ hne, hc, ht, hd, ih, replicate_succ (n := count), cons_append]

theorem cuts_zeroNar (count : ℕ) :
    (fixedChunker .minCdcHash4V2).cuts (zeroNar count) = List.replicate count (zeros 262144) := by
  have hc := cuts_zeros count 0
  have hz : zeros 0 = [] := rfl
  rwa [Nat.add_zero, hz, Chunker.cuts_nil, append_nil] at hc

theorem injOn_zeroNar (sha256 : Bytes → Digest) (count : ℕ) :
    Set.InjOn sha256 (chunksOf fixedChunker .minCdcHash4V2 (zeroNar count)) := by
  intro p hp q hq _
  change p ∈ (fixedChunker .minCdcHash4V2).cuts (zeroNar count) at hp
  change q ∈ (fixedChunker .minCdcHash4V2).cuts (zeroNar count) at hq
  rw [cuts_zeroNar] at hp hq
  rw [eq_of_mem_replicate hp, eq_of_mem_replicate hq]

theorem zeroNar_ingested (sha256 : Bytes → Digest) {count : ℕ} (hc : count < 2 ^ 40) :
    ∃ completed store', ingest sha256 fixedChunker .empty .minCdcHash4V2 [zeroNar count]
      ⟨sha256 (zeroNar count), (zeroNar count).length⟩ (.ok ()) = .ok (completed, store') := by
  apply ingest_total (injOn_zeroNar sha256 count) flatten_singleton
  · rw [zeroNar, zeros, length_replicate, u64Max]
    omega
  · rw [cuts_zeroNar, length_replicate, u64Max]
    omega

/-- The hashes of the contents that the samples store, which differ in length: `[4, 5]` and
`[1, 2, 3]`, alone and after a chunk of zeros, and zeros. -/
def sampleSha256 (bytes : Bytes) : Digest :=
  match bytes.length with
  | 2 => .ofNat 0x2fa1b377bf67309f65e5e7bc9d924345ca648dec4e601a398a9cb497dcba3765
  | 3 => .ofNat 0x039058c6f2c0cb492c533b0a4d14ef77cc0f78abccced5287d84a1a2011cfb81
  | 5 => .ofNat 0x8855508aade16ec573d21e6a485dfd0a7624085c1a14b5ecdd6485de0c6839a4
  | 262144 => .ofNat 0x8a39d2abd3999ab73c34db2476849cddf303ce389b35826850f9a700589b4a90
  | 262146 => .ofNat 0xce92f56d8953e75591a1174b60a511af8ecbe26fe42972390b3f4e0ddca2fc62
  | 262147 => .ofNat 0x3b5d1703784d529d17361dc68b02bfc814a506f76700bab0b7d03da7a7ab0881
  | 786437 => .ofNat 0x16d4246c2b62fd7ebfb682cc9d513a6f29020c3629887ecf04aabb59501c792a
  | _ => .ofNat 0

/-- Three equal chunks and a short one, written in two calls. -/
theorem four_chunks_read_back :
    (fixedChunker .minCdcHash4V2).cuts (zeros 786437) =
      [zeros 262144, zeros 262144, zeros 262144, zeros 5] ∧
    ∃ completed store', ingest sampleSha256 fixedChunker .empty .minCdcHash4V2
        [zeros 300000, zeros 486437] ⟨sampleSha256 (zeros 786437), (zeros 786437).length⟩ (.ok ()) =
          .ok (completed, store') ∧
      ReadsBack sampleSha256 store' (zeros 786437) := by
  have hc : (fixedChunker .minCdcHash4V2).cuts (zeros 786437) =
      [zeros 262144, zeros 262144, zeros 262144, zeros 5] := by
    have hs : (fixedChunker .minCdcHash4V2).cuts (zeros 5) = [zeros 5] :=
      cuts_short (cons_ne_nil _ _) (by decide)
    have ha := cuts_zeros 3 5
    rwa [hs] at ha
  have hw : [zeros 300000, zeros 486437].flatten = zeros 786437 := by
    simp only [flatten_cons, flatten_nil, append_nil, zeros, replicate_append_replicate]
  have inj : Set.InjOn sampleSha256 (chunksOf fixedChunker .minCdcHash4V2 (zeros 786437)) := by
    have hm : ∀ p ∈ chunksOf fixedChunker .minCdcHash4V2 (zeros 786437),
        p = zeros 262144 ∨ p = zeros 5 := by
      intro p hp
      change p ∈ (fixedChunker .minCdcHash4V2).cuts (zeros 786437) at hp
      rw [hc] at hp
      simpa using hp
    have hne : sampleSha256 (zeros 262144) ≠ sampleSha256 (zeros 5) := by
      simp only [sampleSha256, zeros, length_replicate]
      decide
    intro p hp q hq h
    rcases hm p hp with rfl | rfl <;> rcases hm q hq with rfl | rfl
    · rfl
    · exact absurd h hne
    · exact absurd h.symm hne
    · rfl
  obtain ⟨completed, store', h⟩ := ingest_total inj hw
    (by rw [zeros, length_replicate]; decide) (by rw [hc]; decide)
  exact ⟨hc, completed, store', h, (ingested_nar_reads_back_iff hw inj h).2 (by rw [hc]; decide)⟩

/-- Whatever the hash function, 3355441 chunks of zeros are ingested and then refused. -/
theorem zeroNar_ingested_but_not_served :
    (zeroNar 3355441).length ≤ u64Max ∧ ∀ sha256 : Bytes → Digest, ∃ completed store',
      ingest sha256 fixedChunker .empty .minCdcHash4V2 [zeroNar 3355441]
        ⟨sha256 (zeroNar 3355441), (zeroNar 3355441).length⟩ (.ok ()) = .ok (completed, store') ∧
      Set.InjOn sha256 (chunksOf fixedChunker .minCdcHash4V2 (zeroNar 3355441)) ∧
      (∀ start stop mode, openReaderWithMode store' (sha256 (zeroNar 3355441)) start stop
        maxChunkManifestBytes mode = .error (.manifest .lengthOverflow)) ∧
      ¬ReadsBack sha256 store' (zeroNar 3355441) := by
  refine ⟨by rw [zeroNar, zeros, length_replicate, u64Max]; omega, fun sha256 => ?_⟩
  obtain ⟨completed, store', h⟩ := zeroNar_ingested sha256 (by omega : 3355441 < 2 ^ 40)
  obtain ⟨-, -, hf, -⟩ := ingest_ok (injOn_zeroNar sha256 3355441) flatten_singleton h
  have hl : maxChunkManifestBytes <
      (manifestFileOf sha256 fixedChunker .minCdcHash4V2 (zeroNar 3355441)).length := by
    rw [length_manifestFileOf, cuts_zeroNar, length_replicate, maxChunkManifestBytes]
    omega
  refine ⟨completed, store', h, injOn_zeroNar sha256 3355441,
    fun start stop mode => openReader_too_large hf hl _ _ _, ?_⟩
  intro hr
  obtain ⟨r, ho, -⟩ := hr .serving 0 0 le_rfl (Nat.zero_le _)
  rw [openReader_too_large hf hl] at ho
  cases ho

end ChunkRoundTrip
