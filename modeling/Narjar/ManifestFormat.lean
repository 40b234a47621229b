import Narjar.FallibleState
import Narjar.NarFormat

/-!
# Chunk manifests

The on-disk list of the chunks of one NAR: a sixty byte header, a forty byte record for
every chunk and a checksum over both. The hash function is a parameter.
-/
namespace ManifestFormat

open ByteCodecs FallibleState NarFormat List

def checkedSub (a b : ℕ) : Option ℕ := if b ≤ a then some (a - b) else none

def checkedMul (a b : ℕ) : Option ℕ := if a * b ≤ u64Max then some (a * b) else none

variable {r r' : ManifestReader} {bytes front file : Bytes} {d : ChunkDescriptor}
variable {maxBytes a b c count : ℕ} {ds : List ChunkDescriptor} {m : ChunkManifest} {u : Unit}

theorem checkedSub_eq_some : checkedSub a b = some c ↔ b ≤ a ∧ c = a - b := by
  unfold checkedSub
  split <;> simp_all [eq_comm]

theorem checkedMul_eq_some : checkedMul a b = some c ↔ a * b ≤ u64Max ∧ c = a * b := by
  unfold checkedMul
  split <;> simp_all [eq_comm]

structure Digest where
  bytes : Bytes
  length_bytes : bytes.length = 32
  deriving DecidableEq

theorem length_repeated (byte : UInt8) : (List.replicate 32 byte).length = 32 :=
  length_replicate

theorem length_zeros : (List.replicate 32 (0 : UInt8)).length = 32 := length_repeated 0

/-- A digest read as a big-endian number. -/
def Digest.ofNat (value : ℕ) : Digest := ⟨(leBytes 32 value).reverse, by simp⟩

@[simp] theorem Digest.length_eq (d : Digest) : d.bytes.length = 32 := d.length_bytes

structure NarIdentity where
  hash : Digest
  size : ℕ
  deriving DecidableEq

def manifestMagic : Bytes := ascii ['N', 'A', 'R', 'J', 'C', 'H', 'N', 'K']
def manifestVersion : UInt8 := 1
def manifestHeaderBytes : ℕ := 60
def manifestRecordBytes : ℕ := 40
def manifestChecksumBytes : ℕ := 32

def maxChunkManifestBytes : ℕ := 128 * 1024 * 1024

inductive ManifestError where
  | checksumMismatch
  | finalSizeMismatch (expected actual : ℕ)
  | invalidChunkLength
  | invalidHeader
  | invalidMagic
  | unexpectedEof
  | lengthOverflow
  | nonMonotonicEnds
  | trailingBytes
  | truncated
  | unsupportedProfile (id : UInt8)
  | unsupportedVersion (version : UInt8)
  deriving DecidableEq, Repr

inductive ChunkProfile where
  | minCdcHash4V2
  deriving DecidableEq, Repr

def ChunkProfile.id : ChunkProfile → UInt8
  | .minCdcHash4V2 => 2

def ChunkProfile.minSize : ChunkProfile → ℕ
  | .minCdcHash4V2 => 256 * 1024

def ChunkProfile.maxSize : ChunkProfile → ℕ
  | .minCdcHash4V2 => 1024 * 1024

def ChunkProfile.fromId (id : UInt8) : Except ManifestError ChunkProfile :=
  if id = 2 then .ok .minCdcHash4V2 else .error (.unsupportedProfile id)

structure ChunkDescriptor where
  narEnd : ℕ
  hash : Digest
  deriving DecidableEq

structure ChunkManifest where
  identity : NarIdentity
  profile : ChunkProfile
  chunkCount : ℕ
  deriving DecidableEq

def manifestHeader (m : ChunkManifest) : Bytes :=
  manifestMagic ++ [manifestVersion, m.profile.id, 0, 0] ++ m.identity.hash.bytes ++
    leBytes 8 m.identity.size ++ leBytes 8 m.chunkCount

def manifestRecord (d : ChunkDescriptor) : Bytes := leBytes 8 d.narEnd ++ d.hash.bytes

@[simp] theorem length_manifestHeader (m : ChunkManifest) : (manifestHeader m).length = 60 := by
  simp [manifestHeader, manifestMagic, ascii]

@[simp] theorem length_manifestRecord (d : ChunkDescriptor) : (manifestRecord d).length = 40 := by
  simp [manifestRecord]

/-- The manifest described by the first sixty bytes and the length of everything before the
checksum. -/
def parseHeader (bytes : Bytes) : Except ManifestError (ChunkManifest × ℕ) :=
  if h : bytes.length < manifestHeaderBytes then .error .truncated
  else do
    require (bytes.take manifestMagic.length = manifestMagic) .invalidMagic
    require (bytes.getD 8 0 = manifestVersion) (.unsupportedVersion (bytes.getD 8 0))
    require ((bytes.drop 10).take 2 = [0, 0]) .invalidHeader
    let profile ← ChunkProfile.fromId (bytes.getD 9 0)
    let hash : Digest := ⟨(bytes.drop 12).take 32, by
      simp only [manifestHeaderBytes] at h
      simp only [List.length_take, List.length_drop]
      omega⟩
    let size := leValue ((bytes.drop 44).take 8)
    let count := leValue ((bytes.drop 52).take 8)
    let records ← okOr (checkedMul count manifestRecordBytes) .lengthOverflow
    let contentBytes ← okOr (checkedAdd manifestHeaderBytes records) .lengthOverflow
    .ok (⟨⟨hash, size⟩, profile, count⟩, contentBytes)

def parseRecord (bytes : Bytes) : Except ManifestError ChunkDescriptor :=
  if h : bytes.length ≠ manifestRecordBytes then .error .truncated
  else .ok ⟨leValue (bytes.take 8), ⟨bytes.drop 8, by
    simp only [manifestRecordBytes, ne_eq, not_not] at h
    simp only [List.length_drop]
    omega⟩⟩

/-- A manifest file that is being read: `input` is what follows the read position and
`content` what the hasher has absorbed. -/
structure ManifestReader where
  input : Bytes
  manifest : ChunkManifest
  recordsRemaining : ℕ
  previousEnd : ℕ
  previousLength : Option ℕ
  content : Bytes
  deriving DecidableEq

def readExact (count : ℕ) (input : Bytes) : Except ManifestError (Bytes × Bytes) :=
  if input.length < count then .error .unexpectedEof
  else .ok (input.take count, input.drop count)

namespace ManifestReader

def new (file : Bytes) (maxBytes : ℕ) : Except ManifestError ManifestReader := do
  require (file.length ≤ maxBytes) .lengthOverflow
  let (header, input) ← readExact manifestHeaderBytes file
  let (manifest, contentBytes) ← parseHeader header
  let expectedLength ← okOr (checkedAdd contentBytes manifestChecksumBytes) .lengthOverflow
  require (file.length = expectedLength)
    (if file.length < expectedLength then .truncated else .trailingBytes)
  .ok ⟨input, manifest, manifest.chunkCount, 0, none, header⟩

def validateDescriptor (r : ManifestReader) (d : ChunkDescriptor) :
    Except ManifestError ManifestReader := do
  let length ← okOr (checkedSub d.narEnd r.previousEnd) .nonMonotonicEnds
  require (¬(length = 0 ∨ r.manifest.profile.maxSize < length ∨
    r.manifest.identity.size < d.narEnd)) .invalidChunkLength
  require (¬r.previousLength.any (· < r.manifest.profile.minSize)) .invalidChunkLength
  .ok { r with previousEnd := d.narEnd, previousLength := some length }

def nextRecord (r : ManifestReader) :
    Except ManifestError (Option ChunkDescriptor × ManifestReader) :=
  if r.recordsRemaining = 0 then .ok (none, r)
  else do
    let (bytes, input) ← readExact manifestRecordBytes r.input
    let r := { r with input := input, content := r.content ++ bytes }
    let d ← parseRecord bytes
    let r ← r.validateDescriptor d
    .ok (some d, { r with recordsRemaining := r.recordsRemaining - 1 })

def finish (sha256 : Bytes → Digest) (r : ManifestReader) : Except ManifestError Unit := do
  require (r.recordsRemaining = 0) .invalidHeader
  require (r.previousEnd = r.manifest.identity.size)
    (.finalSizeMismatch r.manifest.identity.size r.previousEnd)
  let (expectedChecksum, _) ← readExact manifestChecksumBytes r.input
  require ((sha256 r.content).bytes = expectedChecksum) .checksumMismatch

/-- `next_record` the given number of times. -/
def skipRecords : ℕ → ManifestReader → Except ManifestError ManifestReader
  | 0, r => .ok r
  | n + 1, r => do
    let (_, r) ← r.nextRecord
    skipRecords n r

def finishRemaining (sha256 : Bytes → Digest) (r : ManifestReader) : Except ManifestError Unit := do
  let r ← skipRecords r.recordsRemaining r
  r.finish sha256

end ManifestReader

structure Follows (r : ManifestReader) (d : ChunkDescriptor) : Prop where
  start : r.previousEnd < d.narEnd
  size : d.narEnd - r.previousEnd ≤ r.manifest.profile.maxSize
  within : d.narEnd ≤ r.manifest.identity.size
  previous : ∀ length ∈ r.previousLength, r.manifest.profile.minSize ≤ length

def ManifestReader.advance (r : ManifestReader) (d : ChunkDescriptor) : ManifestReader where
  input := r.input.drop 40
  manifest := r.manifest
  recordsRemaining := r.recordsRemaining - 1
  previousEnd := d.narEnd
  previousLength := some (d.narEnd - r.previousEnd)
  content := r.content ++ manifestRecord d

theorem u64_bytes_iff :
    bytes = leBytes 8 n ∧ n ≤ u64Max ↔ bytes.length = 8 ∧ leValue bytes = n := by
  constructor
  · rintro ⟨rfl, hn⟩
    have hlt : n < 256 ^ 8 := by simp only [u64Max] at hn; omega
    exact ⟨length_leBytes 8 n, leValue_leBytes 8 n hlt⟩
  · rintro ⟨hl, rfl⟩
    have hlt := leValue_lt bytes
    rw [hl] at hlt
    refine ⟨?_, ?_⟩
    · rw [← hl, leBytes_leValue]
    · simp only [u64Max]
      omega

theorem parseRecord_ok :
    parseRecord bytes = .ok d ↔ bytes = manifestRecord d ∧ d.narEnd ≤ u64Max := by
  unfold parseRecord
  by_cases hl : bytes.length = 40
  · rw [dif_neg (by simp [manifestRecordBytes, hl])]
    rw [Except.ok.injEq]
    constructor
    · rintro rfl
      have hf : (bytes.take 8).length = 8 := by rw [length_take]; omega
      obtain ⟨hw, hm⟩ := u64_bytes_iff.2 ⟨hf, rfl⟩
      refine ⟨?_, hm⟩
      rw [manifestRecord, ← hw, take_append_drop]
    · rintro ⟨rfl, hm⟩
      have hw := (u64_bytes_iff.1 ⟨rfl, hm⟩).2
      simp [manifestRecord, hw]
  · rw [dif_pos (by simpa [manifestRecordBytes] using hl)]
    simp only [reduceCtorEq, false_iff]
    rintro ⟨rfl, -⟩
    exact hl (length_manifestRecord d)

theorem readExact_ok :
    readExact count input = .ok (front, rest) ↔ front.length = count ∧ input = front ++ rest := by
  unfold readExact
  split
  · rename_i hs
    simp only [reduceCtorEq, false_iff]
    rintro ⟨hl, rfl⟩
    rw [length_append] at hs
    omega
  · rename_i ho
    simp only [Except.ok.injEq, Prod.mk.injEq]
    constructor
    · rintro ⟨rfl, rfl⟩
      exact ⟨by rw [length_take]; omega, (take_append_drop count input).symm⟩
    · rintro ⟨rfl, rfl⟩
      exact ⟨take_left, drop_left⟩

theorem validateDescriptor_ok :
    r.validateDescriptor d = .ok r' ↔
      Follows r d ∧
        r' = { r with previousEnd := d.narEnd, previousLength := some (d.narEnd - r.previousEnd) } := by
  unfold ManifestReader.validateDescriptor
  simp only [except_bind_ok, okOr_ok, require_ok, checkedSub_eq_some, exists_const, Except.ok.injEq]
  constructor
  · rintro ⟨length, ⟨hle, rfl⟩, hl, hp, rfl⟩
    refine ⟨⟨by omega, by omega, by omega, ?_⟩, rfl⟩
    intro length hm
    by_contra hlt
    exact hp ((Option.any_eq_true _ _).2 ⟨length, hm, by simpa using hlt⟩)
  · rintro ⟨hf, rfl⟩
    have ht := hf.start
    have hz := hf.size
    have hw := hf.within
    refine ⟨_, ⟨by omega, rfl⟩, by omega, ?_, rfl⟩
    intro hs
    obtain ⟨length, hm, hlt⟩ := (Option.any_eq_true _ _).1 hs
    have hi := hf.previous length hm
    simp only [decide_eq_true_eq] at hlt
    omega

/-- A record is read exactly when the file continues with it and it fits what came before. -/
theorem nextRecord_some :
    r.nextRecord = .ok (some d, r') ↔
      r.recordsRemaining ≠ 0 ∧ manifestRecord d <+: r.input ∧ d.narEnd ≤ u64Max ∧ Follows r d ∧
        r' = r.advance d := by
  unfold ManifestReader.nextRecord
  by_cases hz : r.recordsRemaining = 0
  · rw [if_pos hz]
    simp [hz]
  · rw [if_neg hz]
    simp only [except_bind_ok, Prod.exists, readExact_ok, parseRecord_ok, validateDescriptor_ok,
      Except.ok.injEq, Prod.mk.injEq, Option.some.injEq]
    constructor
    · rintro ⟨bytes, input, ⟨-, hi⟩, d', ⟨rfl, hm⟩, r₁, ⟨hf, rfl⟩, rfl, rfl⟩
      refine ⟨hz, ⟨input, hi.symm⟩, hm, ⟨hf.start, hf.size, hf.within, hf.previous⟩, ?_⟩
      have hd : r.input.drop 40 = input := by
        rw [hi, ← length_manifestRecord d', drop_left]
      simp [ManifestReader.advance, hd]
    · rintro ⟨-, ⟨input, hi⟩, hm, hf, rfl⟩
      refine ⟨manifestRecord d, input, ⟨length_manifestRecord d, hi.symm⟩, d, ⟨rfl, hm⟩, _,
        ⟨⟨hf.start, hf.size, hf.within, hf.previous⟩, rfl⟩, rfl, ?_⟩
      have hd : r.input.drop 40 = input := by
        rw [← hi, ← length_manifestRecord d, drop_left]
      simp [ManifestReader.advance, hd]

theorem nextRecord_none : r.nextRecord = .ok (none, r') ↔ r.recordsRemaining = 0 ∧ r' = r := by
  unfold ManifestReader.nextRecord
  by_cases hz : r.recordsRemaining = 0
  · simp [hz, eq_comm]
  · rw [if_neg hz]
    simp [except_bind_ok, hz]

structure Encodable (m : ChunkManifest) : Prop where
  size : m.identity.size ≤ u64Max
  length : 60 + m.chunkCount * 40 + 32 ≤ u64Max

theorem slice_middle (hf : front.length = start)
    (hm : middle.length = count) : ((front ++ middle ++ back).drop start).take count = middle := by
  rw [append_assoc, drop_left' hf, take_left' hm]

theorem header_layout (h : bytes.length = 60) :
    bytes = bytes.take 8 ++ [bytes.getD 8 0, bytes.getD 9 0] ++ (bytes.drop 10).take 2 ++
      (bytes.drop 12).take 32 ++ (bytes.drop 44).take 8 ++ (bytes.drop 52).take 8 := by
  have hg : ∀ i, i < 60 → bytes.drop i = bytes.getD i 0 :: bytes.drop (i + 1) := by
    intro i hi
    rw [drop_eq_getElem_cons (by omega), getD_eq_getElem?_getD,
      List.getElem?_eq_getElem (by omega), Option.getD_some]
  have hj : ∀ i n, bytes.drop i = (bytes.drop i).take n ++ bytes.drop (i + n) := by
    intro i n
    rw [← drop_drop, take_append_drop]
  have hl : (bytes.drop 52).take 8 = bytes.drop 52 := by
    rw [take_of_length_le]
    rw [length_drop]
    omega
  have hp : [bytes.getD 8 0, bytes.getD 9 0] = (bytes.drop 8).take 2 := by
    rw [hg 8 (by omega), hg 9 (by omega)]
    rfl
  rw [hp, hl, append_assoc, append_assoc, append_assoc, append_assoc,
    ← hj 44 8, ← hj 12 32, ← hj 10 2, ← hj 8 2, take_append_drop]

theorem fromId_ok {id : UInt8} :
    ChunkProfile.fromId id = .ok profile ↔ id = profile.id := by
  cases profile
  unfold ChunkProfile.fromId ChunkProfile.id
  split <;> simp_all

theorem parseHeader_ok (hl : bytes.length = 60) {content : ℕ} :
    parseHeader bytes = .ok (m, content) ↔
      bytes = manifestHeader m ∧ m.identity.size ≤ u64Max ∧ 60 + m.chunkCount * 40 ≤ u64Max ∧
        content = 60 + m.chunkCount * 40 := by
  have hw : ∀ i, i + 8 ≤ 60 → ((bytes.drop i).take 8).length = 8 := by
    intro i hi
    rw [length_take, length_drop]
    omega
  unfold parseHeader
  rw [dif_neg (by simp [manifestHeaderBytes, hl])]
  simp only [except_bind_ok, require_ok, okOr_ok, fromId_ok, checkedMul_eq_some,
    checkedAdd_eq_some, exists_const, Except.ok.injEq, Prod.mk.injEq]
  constructor
  · rintro ⟨hm, hv, hr, profile, hp, -, ⟨-, rfl⟩, -, ⟨hf, rfl⟩, rfl, rfl⟩
    obtain ⟨hz, hs⟩ := u64_bytes_iff.2 ⟨hw 44 (by omega), rfl⟩
    obtain ⟨hc, -⟩ := u64_bytes_iff.2 ⟨hw 52 (by omega), rfl⟩
    have hm' : bytes.take 8 = manifestMagic := hm
    refine ⟨?_, hs, hf, rfl⟩
    simp only [manifestHeader, ← hz, ← hc, ← hm', ← hv, ← hp]
    conv_lhs => rw [header_layout hl, hr]
    simp only [append_assoc, cons_append, nil_append]
  · rintro ⟨rfl, hs, hf, rfl⟩
    have he : ((manifestHeader m).drop 44).take 8 = leBytes 8 m.identity.size :=
      slice_middle (by simp [manifestMagic, ascii]) (length_leBytes 8 _)
    have ho : ((manifestHeader m).drop 52).take 8 = leBytes 8 m.chunkCount := by
      rw [← append_nil (manifestHeader m)]
      exact slice_middle (by simp [manifestMagic, ascii]) (length_leBytes 8 _)
    have hh : ((manifestHeader m).drop 12).take 32 = m.identity.hash.bytes := by
      simp only [manifestHeader]
      rw [append_assoc]
      exact slice_middle (by simp [manifestMagic, ascii]) (Digest.length_eq _)
    have hz := (u64_bytes_iff.1 ⟨rfl, hs⟩).2
    have hc := (u64_bytes_iff.1 ⟨rfl, (by omega : m.chunkCount ≤ u64Max)⟩).2
    simp only [he, ho, hh, hz, hc]
    refine ⟨?_, ?_, ?_, m.profile, ?_, _, ⟨?_, rfl⟩, _, ⟨?_, rfl⟩, trivial, rfl⟩
    · simp [manifestHeader]
    · simp [manifestHeader, manifestMagic, ascii]
    · simp [manifestHeader, manifestMagic, ascii]
    · simp [manifestHeader, manifestMagic, ascii]
    · simp only [manifestRecordBytes]
      omega
    · exact hf

/-- A manifest file opens exactly when it is a header followed by as many bytes as the chunk
count announces, within the size limit. -/
theorem new_ok :
    ManifestReader.new file maxBytes = .ok r ↔
      ∃ m input, file = manifestHeader m ++ input ∧ Encodable m ∧
        input.length = m.chunkCount * 40 + 32 ∧ file.length ≤ maxBytes ∧
        r = ⟨input, m, m.chunkCount, 0, none, manifestHeader m⟩ := by
  unfold ManifestReader.new
  simp only [except_bind_ok, require_ok, okOr_ok, Prod.exists, readExact_ok, checkedAdd_eq_some,
    exists_const, Except.ok.injEq]
  constructor
  · rintro ⟨hm, header, input, ⟨hh, hf⟩, m, content, hp, total, ⟨ht, rfl⟩, hl, rfl⟩
    obtain ⟨rfl, hs, -, rfl⟩ := (parseHeader_ok hh).1 hp
    refine ⟨m, input, hf, ⟨hs, ht⟩, ?_, hm, rfl⟩
    simp only [hf, length_append, length_manifestHeader, manifestChecksumBytes] at hl
    omega
  · rintro ⟨m, input, rfl, ⟨hs, hi⟩, hn, hm, rfl⟩
    refine ⟨hm, _, input, ⟨length_manifestHeader m, rfl⟩, m, _,
      (parseHeader_ok (length_manifestHeader m)).2 ⟨rfl, hs, by omega, rfl⟩, _, ⟨hi, rfl⟩, ?_, rfl⟩
    simp only [length_append, length_manifestHeader, manifestChecksumBytes, hn]
    omega

/-- The rest of the file lists exactly the chunks `ds` and ends with a matching checksum. -/
def Continues (sha256 : Bytes → Digest) : ManifestReader → List ChunkDescriptor → Prop
  | r, [] =>
    r.recordsRemaining = 0 ∧ r.previousEnd = r.manifest.identity.size ∧
      (sha256 r.content).bytes <+: r.input
  | r, d :: ds =>
    r.recordsRemaining ≠ 0 ∧ manifestRecord d <+: r.input ∧ d.narEnd ≤ u64Max ∧ Follows r d ∧
      Continues sha256 (r.advance d) ds

variable {sha256 : Bytes → Digest}

theorem continues_length (h : Continues sha256 r ds) : ds.length = r.recordsRemaining := by
  induction ds generalizing r with
  | nil => exact h.1.symm
  | cons d ds ih =>
    obtain ⟨hp, -, -, -, hr⟩ := h
    have hl : ds.length = r.recordsRemaining - 1 := ih hr
    rw [length_cons]
    omega

theorem continues_nextRecord (h : Continues sha256 r (d :: ds)) :
    r.nextRecord = .ok (some d, r.advance d) := by
  obtain ⟨hp, hi, hm, hf, -⟩ := h
  exact nextRecord_some.2 ⟨hp, hi, hm, hf, rfl⟩

theorem finish_ok : r.finish sha256 = .ok u ↔ Continues sha256 r [] := by
  unfold ManifestReader.finish Continues
  simp only [except_bind_ok, require_ok, exists_const, Prod.exists, readExact_ok]
  constructor
  · rintro ⟨hz, he, front, rest, ⟨-, hi⟩, hs⟩
    exact ⟨hz, he, rest, by rw [hs, hi]⟩
  · rintro ⟨hz, he, rest, hi⟩
    exact ⟨hz, he, _, rest, ⟨Digest.length_eq _, hi.symm⟩, rfl⟩

theorem finishRemaining_ok : r.finishRemaining sha256 = .ok u ↔ ∃ ds, Continues sha256 r ds := by
  unfold ManifestReader.finishRemaining
  induction hn : r.recordsRemaining generalizing r with
  | zero =>
    simp only [ManifestReader.skipRecords, except_bind_ok, Except.ok.injEq, exists_eq_left',
      finish_ok]
    constructor
    · intro h
      exact ⟨[], h⟩
    · rintro ⟨ds, h⟩
      have hl := continues_length h
      rw [hn, length_eq_zero_iff] at hl
      rwa [hl] at h
  | succ n ih =>
    simp only [except_bind_ok] at ih
    simp only [ManifestReader.skipRecords, except_bind_ok, Prod.exists]
    constructor
    · rintro ⟨r₂, ⟨d?, r₁, he, hs⟩, hf⟩
      cases d? with
      | none =>
        have := (nextRecord_none.1 he).1
        omega
      | some d =>
        obtain ⟨hp, hi, hm, ho, rfl⟩ := nextRecord_some.1 he
        have hc : (r.advance d).recordsRemaining = n := by
          simp only [ManifestReader.advance]
          omega
        obtain ⟨ds, hds⟩ := (ih hc).1 ⟨r₂, hs, hf⟩
        exact ⟨d :: ds, hp, hi, hm, ho, hds⟩
    · rintro ⟨ds, h⟩
      have hl := continues_length h
      cases ds with
      | nil => simp [hn] at hl
      | cons d ds =>
        have hc : (r.advance d).recordsRemaining = n := by
          simp only [ManifestReader.advance]
          omega
        obtain ⟨r₂, hs, hf⟩ := (ih hc).2 ⟨ds, h.2.2.2.2⟩
        exact ⟨r₂, ⟨some d, r.advance d, continues_nextRecord h, hs⟩, hf⟩

/-- What `write_complete_manifest` writes: header, records and the checksum over both. -/
def completeManifest (sha256 : Bytes → Digest) (m : ChunkManifest) (records : Bytes) : Bytes :=
  manifestHeader m ++ records ++ (sha256 (manifestHeader m ++ records)).bytes

def recordsOf (ds : List ChunkDescriptor) : Bytes := ds.flatMap manifestRecord

@[simp] theorem recordsOf_nil : recordsOf [] = [] := rfl

@[simp] theorem recordsOf_cons (d : ChunkDescriptor) (ds : List ChunkDescriptor) :
    recordsOf (d :: ds) = manifestRecord d ++ recordsOf ds := rfl

@[simp] theorem length_recordsOf (ds : List ChunkDescriptor) :
    (recordsOf ds).length = ds.length * 40 := by
  induction ds with
  | nil => rfl
  | cons d ds ih =>
    rw [recordsOf_cons, length_append, length_manifestRecord, ih, length_cons]
    omega

/-- The chunks tile the NAR from `start` to its size, each within the profile's bounds and only
the last one below the minimum. -/
def Tiles (m : ChunkManifest) : ℕ → Option ℕ → List ChunkDescriptor → Prop
  | start, _, [] => start = m.identity.size
  | start, previousLength, d :: ds =>
    start < d.narEnd ∧ d.narEnd - start ≤ m.profile.maxSize ∧ d.narEnd ≤ m.identity.size ∧
      (∀ length ∈ previousLength, m.profile.minSize ≤ length) ∧
      Tiles m d.narEnd (some (d.narEnd - start)) ds

theorem continues_iff (hs : r.manifest.identity.size ≤ u64Max) (ds : List ChunkDescriptor) :
    Continues sha256 r ds ↔
      r.recordsRemaining = ds.length ∧ Tiles r.manifest r.previousEnd r.previousLength ds ∧
        recordsOf ds ++ (sha256 (r.content ++ recordsOf ds)).bytes <+: r.input := by
  induction ds generalizing r with
  | nil =>
    rw [Continues, Tiles, recordsOf_nil, append_nil, nil_append, length_nil]
  | cons d ds ih =>
    have hn : r.manifest = (r.advance d).manifest := rfl
    rw [Continues, ih (hn ▸ hs), Tiles, recordsOf_cons]
    simp only [ManifestReader.advance, length_cons]
    constructor
    · rintro ⟨ho, ⟨rest, hi⟩, -, hf, hc, ht, hr⟩
      refine ⟨by omega, ⟨hf.start, hf.size, hf.within, hf.previous, ht⟩, ?_⟩
      rw [← hi, drop_left' (length_manifestRecord d)] at hr
      rw [← hi, append_assoc, ← append_assoc r.content]
      exact (prefix_append_right_inj _).2 hr
    · rintro ⟨hc, ⟨ha, hl, hw, hp, ht⟩, hi⟩
      rw [append_assoc, ← append_assoc r.content] at hi
      obtain ⟨rest, hr⟩ := hi
      rw [append_assoc] at hr
      refine ⟨by omega, ⟨_, hr⟩, by omega, ⟨ha, hl, hw, hp⟩, by omega, ht, ?_⟩
      rw [← hr, drop_left' (length_manifestRecord d)]
      exact ⟨rest, rfl⟩

theorem completeManifest_opens (hm : Encodable m) (hc : m.chunkCount = ds.length)
    (ht : Tiles m 0 none ds) (ha : (completeManifest sha256 m (recordsOf ds)).length ≤ maxBytes) :
    ∃ r, ManifestReader.new (completeManifest sha256 m (recordsOf ds)) maxBytes = .ok r ∧
      r.manifest = m ∧ Continues sha256 r ds := by
  rw [completeManifest, append_assoc] at ha ⊢
  refine ⟨_, new_ok.2 ⟨m, _, rfl, hm, ?_, ha, rfl⟩, rfl, ?_⟩
  · simp only [length_append, length_recordsOf, Digest.length_eq, hc]
  · exact (continues_iff hm.size ds).2 ⟨hc, ht, prefix_rfl⟩

/-- The files the store accepts as manifests are exactly the complete encodings of tilings. -/
theorem manifest_accepted_iff :
    (∃ r, ManifestReader.new file maxBytes = .ok r ∧ r.finishRemaining sha256 = .ok ()) ↔
      ∃ m ds, file = completeManifest sha256 m (recordsOf ds) ∧ Encodable m ∧
        m.chunkCount = ds.length ∧ Tiles m 0 none ds ∧ file.length ≤ maxBytes := by
  constructor
  · rintro ⟨r, hn, hi⟩
    obtain ⟨m, input, hf, hm, hp, ha, rfl⟩ := new_ok.1 hn
    obtain ⟨ds, hds⟩ := finishRemaining_ok.1 hi
    obtain ⟨hc, ht, hr⟩ := (continues_iff hm.size ds).1 hds
    refine ⟨m, ds, ?_, hm, hc, ht, ha⟩
    have hw : input = recordsOf ds ++ (sha256 (manifestHeader m ++ recordsOf ds)).bytes := by
      refine (hr.eq_of_length ?_).symm
      simp only [length_append, length_recordsOf, Digest.length_eq, hp]
      simp only at hc
      omega
    rw [hf, hw, completeManifest, append_assoc]
  · rintro ⟨m, ds, rfl, hm, hc, ht, ha⟩
    obtain ⟨r, hn, -, hl⟩ := completeManifest_opens hm hc ht ha
    exact ⟨r, hn, finishRemaining_ok.2 ⟨ds, hl⟩⟩

end ManifestFormat
