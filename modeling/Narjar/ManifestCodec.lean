import Narjar.ManifestFormat

/-!
# Which files are manifests

The reader takes a manifest record by record and keeps a running offset, the number of records
left and the bytes that the checksum covers. Here it is compared with a description of the whole
file: a header, a list of records that cover the NAR in chunks of admissible lengths, and the
checksum over both.
-/
namespace ManifestFormat

open ByteCodecs FallibleState

variable {sha256 : Bytes → Digest} {m : ChunkManifest} {d : ChunkDescriptor}
variable {ds : List ChunkDescriptor} {start : ℕ}

def chunkLengths : ℕ → List ChunkDescriptor → List ℕ
  | _, [] => []
  | start, d :: ds => (d.narEnd - start) :: chunkLengths d.narEnd ds

def offsets (start : ℕ) (ds : List ChunkDescriptor) : List ℕ := start :: ds.map ChunkDescriptor.narEnd

theorem offsets_ne_nil (start : ℕ) (ds : List ChunkDescriptor) : offsets start ds ≠ [] :=
  List.cons_ne_nil _ _

theorem offsets_cons (start : ℕ) (d : ChunkDescriptor) (ds : List ChunkDescriptor) :
    offsets start (d :: ds) = start :: offsets d.narEnd ds := rfl

/-- From `start` on, the records list chunks of the NAR up to its size: the offsets increase, no
chunk is longer than the maximum and only the last one may be shorter than the minimum. -/
structure Listing (m : ChunkManifest) (start : ℕ) (ds : List ChunkDescriptor) : Prop where
  increasing : (offsets start ds).Pairwise (· < ·)
  bounded : ∀ length ∈ chunkLengths start ds, 0 < length ∧ length ≤ m.profile.maxSize
  full : ∀ length ∈ (chunkLengths start ds).dropLast, m.profile.minSize ≤ length
  covers : (offsets start ds).getLast (offsets_ne_nil start ds) = m.identity.size

theorem chunkLengths_eq_nil : chunkLengths start ds = [] ↔ ds = [] := by
  cases ds with
  | nil | cons => simp [chunkLengths]

theorem mem_dropLast_chunkLengths :
    length ∈ (chunkLengths start (d :: ds)).dropLast ↔
      ds ≠ [] ∧ (length = d.narEnd - start ∨ length ∈ (chunkLengths d.narEnd ds).dropLast) := by
  by_cases hds : ds = []
  · simp [hds, chunkLengths]
  · have hl : chunkLengths d.narEnd ds ≠ [] := fun h => hds (chunkLengths_eq_nil.1 h)
    rw [chunkLengths, List.dropLast_cons_of_ne_nil hl]
    simp [hds]

theorem Listing.start_le (h : Listing m start ds) : start ≤ m.identity.size := by
  rw [← h.covers]
  have hm := List.getLast_mem (offsets_ne_nil start ds)
  rcases List.mem_cons.1 hm with hf | hl
  · exact hf.ge
  · exact Nat.le_of_lt ((List.pairwise_cons.1 h.increasing).1 _ hl)

theorem listing_cons :
    Listing m start (d :: ds) ↔
      start < d.narEnd ∧ d.narEnd - start ≤ m.profile.maxSize ∧
        (ds ≠ [] → m.profile.minSize ≤ d.narEnd - start) ∧ Listing m d.narEnd ds := by
  constructor
  · intro h
    obtain ⟨hf, hr⟩ := List.pairwise_cons.1 h.increasing
    have hb := List.forall_mem_cons.1 h.bounded
    refine ⟨hf _ List.mem_cons_self, hb.1.2, ?_, hr, hb.2, ?_, ?_⟩
    · intro hds
      exact h.full _ (mem_dropLast_chunkLengths.2 ⟨hds, .inl rfl⟩)
    · intro length he
      have hds : ds ≠ [] := by
        rintro rfl
        cases he
      exact h.full _ (mem_dropLast_chunkLengths.2 ⟨hds, .inr he⟩)
    · have hc := h.covers
      simp only [offsets_cons] at hc
      rwa [List.getLast_cons (offsets_ne_nil d.narEnd ds)] at hc
  · intro h
    obtain ⟨hs, hm, hi, hl⟩ := h
    refine ⟨?_, ?_, ?_, ?_⟩
    · rw [offsets_cons]
      refine List.pairwise_cons.2 ⟨?_, hl.increasing⟩
      intro offset ho
      rcases List.mem_cons.1 ho with rfl | ha
      · exact hs
      · exact hs.trans ((List.pairwise_cons.1 hl.increasing).1 _ ha)
    · refine List.forall_mem_cons.2 ⟨⟨?_, hm⟩, hl.bounded⟩
      omega
    · intro length he
      obtain ⟨hds, rfl | ha⟩ := mem_dropLast_chunkLengths.1 he
      · exact hi hds
      · exact hl.full length ha
    · simp only [offsets_cons]
      rw [List.getLast_cons (offsets_ne_nil d.narEnd ds)]
      exact hl.covers

/-- What the reader checks record by record is the description of the whole list. The minimum is
checked one record late, when it is known that another one follows. -/
theorem tiles_iff_listing :
    Tiles m start previous ds ↔
      Listing m start ds ∧ (ds ≠ [] → ∀ length ∈ previous, m.profile.minSize ≤ length) := by
  induction ds generalizing start previous with
  | nil =>
    constructor
    · intro h
      exact ⟨⟨List.pairwise_singleton _ _, by simp [chunkLengths], by simp [chunkLengths], h⟩, by simp⟩
    · intro h
      exact h.1.covers
  | cons d ds ih =>
    rw [Tiles, ih, listing_cons]
    constructor
    · intro h
      obtain ⟨hs, hm, -, hp, hl, hi⟩ := h
      exact ⟨⟨hs, hm, fun hds => hi hds _ rfl, hl⟩, fun _ => hp⟩
    · intro h
      obtain ⟨⟨hs, hm, hi, hl⟩, hp⟩ := h
      refine ⟨hs, hm, hl.start_le, hp (List.cons_ne_nil _ _), hl, ?_⟩
      intro hds length he
      cases Option.mem_some_iff.1 he
      exact hi hds

def nextRecords : ℕ → ManifestReader → Except ManifestError (List ChunkDescriptor × ManifestReader)
  | 0, r => .ok ([], r)
  | rounds + 1, r => do
    match ← r.nextRecord with
    | (none, r) => .ok ([], r)
    | (some d, r) =>
      let (ds, r) ← nextRecords rounds r
      .ok (d :: ds, r)

def readManifest (sha256 : Bytes → Digest) (file : Bytes) (maxBytes : ℕ) :
    Except ManifestError (ChunkManifest × List ChunkDescriptor) := do
  let r ← ManifestReader.new file maxBytes
  let (ds, rest) ← nextRecords (r.manifest.chunkCount + 1) r
  rest.finishRemaining sha256
  .ok (r.manifest, ds)

theorem finishRemaining_of_zero (hz : r.recordsRemaining = 0) :
    r.finishRemaining sha256 = .ok () ↔ Continues sha256 r [] := by
  rw [finishRemaining_ok]
  constructor
  · intro h
    obtain ⟨ds, hds⟩ := h
    have hl := continues_length hds
    rw [hz, List.length_eq_zero_iff] at hl
    rwa [hl] at hds
  · intro h
    exact ⟨[], h⟩

theorem nextRecords_finish (hu : r.recordsRemaining < rounds) :
    (∃ rest, nextRecords rounds r = .ok (ds, rest) ∧ rest.finishRemaining sha256 = .ok ()) ↔
      Continues sha256 r ds := by
  induction rounds generalizing r ds with
  | zero => exact absurd hu (Nat.not_lt_zero _)
  | succ rounds ih =>
    rw [nextRecords]
    by_cases hz : r.recordsRemaining = 0
    · rw [nextRecord_none.2 ⟨hz, rfl⟩]
      constructor
      · intro h
        obtain ⟨rest, hok, hf⟩ := h
        cases Except.ok.inj hok
        exact (finishRemaining_of_zero hz).1 hf
      · intro h
        have hl := continues_length h
        rw [hz, List.length_eq_zero_iff] at hl
        subst hl
        exact ⟨r, rfl, (finishRemaining_of_zero hz).2 h⟩
    · have hs : ∀ d, (r.advance d).recordsRemaining < rounds := by
        intro d
        simp only [ManifestReader.advance]
        omega
      constructor
      · intro h
        obtain ⟨rest, hok, hf⟩ := h
        obtain ⟨⟨record, r₁⟩, hn, hr⟩ := except_bind_ok.1 hok
        cases record with
        | none => exact absurd (nextRecord_none.1 hn).1 hz
        | some d =>
          obtain ⟨⟨ds', r₂⟩, hm, he⟩ := except_bind_ok.1 hr
          obtain ⟨rfl, rfl⟩ := Prod.mk.inj (Except.ok.inj he)
          obtain ⟨hp, hi, ha, ho, rfl⟩ := nextRecord_some.1 hn
          exact ⟨hp, hi, ha, ho, (ih (hs d)).1 ⟨_, hm, hf⟩⟩
      · intro h
        cases ds with
        | nil => exact absurd h.1 hz
        | cons d ds =>
          obtain ⟨rest, hm, hf⟩ := (ih (hs d)).2 h.2.2.2.2
          refine ⟨rest, ?_, hf⟩
          rw [continues_nextRecord h]
          simp only [bind, Except.bind, hm]

/-- The file as a whole: the header, the records it announces and the checksum, nothing more. -/
structure IsManifest (sha256 : Bytes → Digest) (file : Bytes) (m : ChunkManifest)
    (ds : List ChunkDescriptor) : Prop where
  bytes : file = manifestHeader m ++ recordsOf ds ++ (sha256 (manifestHeader m ++ recordsOf ds)).bytes
  encodable : Encodable m
  count : m.chunkCount = ds.length
  listing : Listing m 0 ds

theorem isManifest_iff :
    IsManifest sha256 file m ds ↔ file = completeManifest sha256 m (recordsOf ds) ∧ Encodable m ∧
      m.chunkCount = ds.length ∧ Tiles m 0 none ds := by
  have ht : Tiles m 0 none ds ↔ Listing m 0 ds := by
    rw [tiles_iff_listing]
    simp
  constructor
  · intro h
    exact ⟨h.bytes, h.encodable, h.count, ht.2 h.listing⟩
  · intro h
    obtain ⟨hf, hm, hc, hl⟩ := h
    exact ⟨hf, hm, hc, ht.1 hl⟩

theorem readManifest_ok :
    readManifest sha256 file maxBytes = .ok (m, ds) ↔
      IsManifest sha256 file m ds ∧ file.length ≤ maxBytes := by
  unfold readManifest
  constructor
  · intro h
    obtain ⟨r, hn, hd⟩ := except_bind_ok.1 h
    obtain ⟨⟨ds', rest⟩, hr, he⟩ := except_bind_ok.1 hd
    obtain ⟨_, hf, hu⟩ := except_bind_ok.1 he
    obtain ⟨m', input, hi, hm, hp, hx, rfl⟩ := new_ok.1 hn
    cases Except.ok.inj hu
    have ho := (nextRecords_finish (Nat.lt_succ_self _)).1 ⟨rest, hr, hf⟩
    obtain ⟨hc, ht, hs⟩ := (continues_iff hm.size ds).1 ho
    refine ⟨isManifest_iff.2 ⟨?_, hm, hc, ht⟩, hx⟩
    -- The announced length leaves no room after the checksum.
    have hw : input = recordsOf ds ++ (sha256 (manifestHeader m' ++ recordsOf ds)).bytes := by
      refine (hs.eq_of_length ?_).symm
      simp only [List.length_append, length_recordsOf, Digest.length_eq, hp]
      simp only at hc
      omega
    rw [hi, hw, completeManifest, List.append_assoc]
  · intro h
    obtain ⟨ha, hx⟩ := h
    obtain ⟨rfl, hm, hc, ht⟩ := isManifest_iff.1 ha
    obtain ⟨r, hn, ha, hl⟩ := completeManifest_opens hm hc ht hx
    have hro : r.recordsRemaining < r.manifest.chunkCount + 1 := by
      have hg := continues_length hl
      rw [ha]
      omega
    obtain ⟨rest, hr, hf⟩ := (nextRecords_finish hro).2 hl
    rw [hn]
    simp only [bind, Except.bind, hr, hf]
    rw [ha]

/-- The reader accepts exactly the manifests within its size limit, and what the writer wrote
reads back as the same header and records. -/
theorem manifest_codec_exact (sha256 : Bytes → Digest) :
    (∀ file maxBytes,
      (∃ r, ManifestReader.new file maxBytes = .ok r ∧ r.finishRemaining sha256 = .ok ()) ↔
        ∃ m ds, IsManifest sha256 file m ds ∧ file.length ≤ maxBytes) ∧
    (∀ file maxBytes m ds, readManifest sha256 file maxBytes = .ok (m, ds) ↔
      IsManifest sha256 file m ds ∧ file.length ≤ maxBytes) ∧
    ∀ m ds maxBytes, Encodable m → m.chunkCount = ds.length → Listing m 0 ds →
      (completeManifest sha256 m (recordsOf ds)).length ≤ maxBytes →
      readManifest sha256 (completeManifest sha256 m (recordsOf ds)) maxBytes = .ok (m, ds) := by
  refine ⟨?_, ?_, ?_⟩
  · intro file maxBytes
    rw [manifest_accepted_iff]
    simp only [isManifest_iff, and_assoc]
  · intro file maxBytes m ds
    exact readManifest_ok
  · intro m ds maxBytes hm hc hl ha
    exact readManifest_ok.2 ⟨⟨rfl, hm, hc, hl⟩, ha⟩

/-- A NAR of 524293 zeros: two chunks of the minimal length and the rest, which may be short
because it is the last one. -/
def shortManifest : ChunkManifest :=
  ⟨⟨.ofNat 0x53a9d3b91ae56eab456e228c75bd217cf1eeb3793ee6dd08d3e1024654a024d7, 524293⟩,
    .minCdcHash4V2, 3⟩

def zeroChunk : Digest :=
  .ofNat 0x8a39d2abd3999ab73c34db2476849cddf303ce389b35826850f9a700589b4a90

def shortRecords : List ChunkDescriptor :=
  [⟨262144, zeroChunk⟩, ⟨524288, zeroChunk⟩,
    ⟨524293, .ofNat 0x8855508aade16ec573d21e6a485dfd0a7624085c1a14b5ecdd6485de0c6839a4⟩]

/-- The hash of the header and the records. -/
def shortChecksum (_ : Bytes) : Digest :=
  .ofNat 0x0f62924ab50998a98818dc041282e377d29082e36bbbb322331658111d2d8cbd

theorem shortManifest_reads_back :
    readManifest shortChecksum
      (completeManifest shortChecksum shortManifest (recordsOf shortRecords)) 212 =
        .ok (shortManifest, shortRecords) := by
  obtain ⟨-, -, hw⟩ := manifest_codec_exact shortChecksum
  apply hw
  · exact ⟨by decide, by decide⟩
  · rfl
  · exact ⟨by decide, by decide, by decide, rfl⟩
  · simp [completeManifest, shortRecords]

end ManifestFormat
