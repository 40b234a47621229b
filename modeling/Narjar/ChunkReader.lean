import Narjar.ChunkIngestProgress

/-!
# Reading a chunked NAR

A reader walks the records of a manifest, skips the chunks outside its range and copies
from one chunk at a time. Serving reads stream from the chunk file, verified reads load and
hash the whole chunk first. The files do not change while they are read.
-/
namespace ChunkReader

open ByteCodecs FallibleState NarFormat ManifestFormat ChunkIngest

def manifestErrorMessage : ManifestError → String
  | .checksumMismatch => "chunk manifest checksum mismatch"
  | .finalSizeMismatch expected actual =>
    s!"chunk manifest ends at {actual} bytes, expected {expected}"
  | .invalidChunkLength => "invalid chunk length"
  | .invalidHeader => "invalid chunk manifest header"
  | .invalidMagic => "invalid chunk manifest magic"
  | .unexpectedEof => "failed to fill whole buffer"
  | .lengthOverflow => "chunk manifest length overflow"
  | .nonMonotonicEnds => "chunk manifest ends are not increasing"
  | .trailingBytes => "trailing bytes after chunk manifest"
  | .truncated => "truncated chunk manifest"
  | .unsupportedProfile id => s!"unsupported chunk profile {id}"
  | .unsupportedVersion version => s!"unsupported chunk manifest version {version}"

def ioForManifestError (error : ManifestError) : IoError :=
  match error with
  | .unexpectedEof => ⟨.unexpectedEof, manifestErrorMessage error⟩
  | _ => invalidData (manifestErrorMessage error)

inductive ChunkReadMode where
  | serving
  | verified
  deriving DecidableEq, Repr

/-- The chunk being copied. A serving chunk keeps the file from its read position on. -/
inductive LoadedChunk where
  | serving (file : Bytes) (remaining narEnd : ℕ)
  | verified (bytes : Bytes) (position endPosition narEnd : ℕ)
  deriving DecidableEq

structure ChunkedNarReader where
  manifest : Option ManifestReader
  rangeCursor : ℕ
  rangeEnd : ℕ
  nextChunkStart : ℕ
  currentChunk : Option LoadedChunk
  mode : ChunkReadMode

/-- One call of `read`: the size of the output buffer, how much a single file read returns at
most, and which chunks have a verified stamp. -/
structure ReadCall where
  bufferLength : ℕ
  readLimit : ℕ
  stampVerified : Digest → Bool

def validateRange (manifest : ChunkManifest) (start stop : ℕ) : Except ChunkStoreError Unit :=
  require (¬(stop < start ∨ manifest.identity.size < stop))
    (.invalidRange start stop manifest.identity.size)

def openReaderWithMode (store : ChunkStore) (hash : Digest) (start stop maxManifestBytes : ℕ)
    (mode : ChunkReadMode) : Except ChunkStoreError ChunkedNarReader := do
  let file ← okOr (store.manifests hash) (.io ⟨.notFound, "entity not found"⟩)
  let manifest ← (ManifestReader.new file maxManifestBytes).mapError .manifest
  require (manifest.manifest.identity.hash = hash) (.manifest .invalidHeader)
  validateRange manifest.manifest start stop
  .ok ⟨some manifest, start, stop, 0, none, mode⟩

def openListedChunk (store : ChunkStore) (d : ChunkDescriptor) (chunkStart : ℕ) :
    Except IoError Bytes := do
  let chunkLength ← okOr (checkedSub d.narEnd chunkStart) (invalidData "chunk end moved backwards")
  let file ← okOr (store.chunks d.hash) ⟨.notFound, "entity not found"⟩
  require (file.length = chunkLength)
    (invalidData "chunk length does not match its manifest record")
  .ok file

def openServingChunk (store : ChunkStore) (d : ChunkDescriptor)
    (chunkStart start stop narEnd : ℕ) : Except IoError LoadedChunk := do
  let file ← openListedChunk store d chunkStart
  .ok (.serving (file.drop start) (stop - start) narEnd)

section Functions

variable (sha256 : Bytes → Digest) (store : ChunkStore) (call : ReadCall)

def readVerifiedChunk (d : ChunkDescriptor) (chunkStart : ℕ) : Except IoError Bytes := do
  let chunk ← openListedChunk store d chunkStart
  require (call.stampVerified d.hash ∨ sha256 chunk = d.hash)
    (invalidData "chunk hash does not match its manifest record")
  .ok chunk

def loadChunk (mode : ChunkReadMode) (d : ChunkDescriptor) (chunkStart start stop narEnd : ℕ) :
    Except IoError LoadedChunk :=
  match mode with
  | .serving => openServingChunk store d chunkStart start stop narEnd
  | .verified => do
    let bytes ← readVerifiedChunk sha256 store call d chunkStart
    .ok (.verified bytes start stop narEnd)

/-- The loop over the records; every round but the last takes one record. -/
def loadNextOverlappingChunk : ℕ → ChunkedNarReader → Except IoError (Bool × ChunkedNarReader)
  | 0, r => .ok (false, r)
  | rounds + 1, r =>
    match r.manifest with
    | none => .ok (false, r)
    | some manifest => do
      let (descriptor, manifest) ← manifest.nextRecord.mapError ioForManifestError
      match descriptor with
      | none =>
        (manifest.finishRemaining sha256).mapError ioForManifestError
        .ok (false, { r with manifest := none })
      | some d =>
        let chunkStart := r.nextChunkStart
        let r := { r with manifest := some manifest, nextChunkStart := d.narEnd }
        if d.narEnd ≤ r.rangeCursor ∨ r.rangeEnd ≤ chunkStart then
          loadNextOverlappingChunk rounds r
        else
          let chunk ← loadChunk sha256 store call r.mode d chunkStart
            (max r.rangeCursor chunkStart - chunkStart) (min r.rangeEnd d.narEnd - chunkStart)
            (min r.rangeEnd d.narEnd)
          .ok (true, { r with currentChunk := some chunk })

def finishManifest (r : ChunkedNarReader) : Except IoError ChunkedNarReader :=
  match r.manifest with
  | none => .ok r
  | some manifest => do
    (manifest.finishRemaining sha256).mapError ioForManifestError
    .ok { r with manifest := none }

/-- The reader when `chunk` is what remains of the current chunk, or when it is used up. -/
def keepChunk (r : ChunkedNarReader) (narEnd : ℕ) (usedUp : Bool) (chunk : LoadedChunk) :
    ChunkedNarReader :=
  if usedUp then { r with rangeCursor := narEnd, currentChunk := none }
  else { r with currentChunk := some chunk }

def readLoaded (r : ChunkedNarReader) : LoadedChunk → Except IoError (Bytes × ChunkedNarReader)
  | .serving file remaining narEnd =>
    let requested := min remaining call.bufferLength
    let read := min (min requested file.length) (max call.readLimit 1)
    if read = 0 then .error ⟨.unexpectedEof, "chunk ended before its manifest length"⟩
    else
      .ok (file.take read, keepChunk r narEnd (remaining - read = 0)
        (.serving (file.drop read) (remaining - read) narEnd))
  | .verified bytes position endPosition narEnd =>
    let remaining := (bytes.drop position).take (endPosition - position)
    let copied := min remaining.length call.bufferLength
    .ok (remaining.take copied, keepChunk r narEnd (position + copied = endPosition)
      (.verified bytes (position + copied) endPosition narEnd))

def read (r : ChunkedNarReader) : Except IoError (Bytes × ChunkedNarReader) :=
  if call.bufferLength = 0 then .ok ([], r)
  else
    match r.currentChunk with
    | some chunk => readLoaded call r chunk
    | none =>
      if r.rangeCursor = r.rangeEnd then do
        let r ← finishManifest sha256 r
        .ok ([], r)
      else do
        let rounds := (r.manifest.map ManifestReader.recordsRemaining).getD 0 + 1
        let (loaded, r) ← loadNextOverlappingChunk sha256 store call rounds r
        match loaded, r.currentChunk with
        | true, some chunk => readLoaded call r chunk
        | _, _ =>
          .error ⟨.unexpectedEof, "chunk manifest ended before the requested range"⟩

end Functions

def reads (sha256 : Bytes → Digest) (store : ChunkStore) (r : ChunkedNarReader) :
    List ReadCall → Except IoError (List Bytes)
  | [] => .ok []
  | call :: calls => do
    let (output, r) ← read sha256 store call r
    let outputs ← reads sha256 store r calls
    .ok (output :: outputs)

/-- The outputs are consecutive pieces of `data`, none larger than its buffer, and a call with
room in its buffer returns nothing only at the end of the data. -/
def Delivered : Bytes → List ReadCall → List Bytes → Prop
  | _, [], [] => True
  | data, call :: calls, output :: outputs =>
    ∃ rest, data = output ++ rest ∧ output.length ≤ call.bufferLength ∧
      (output = [] ↔ data = [] ∨ call.bufferLength = 0) ∧ Delivered rest calls outputs
  | _, _, _ => False

/-- Enough calls with room in their buffers return all of the data, and the next one nothing. -/
theorem delivered_all (h : Delivered data calls outputs)
    (hc : data.length ≤ (calls.filter fun call => 0 < call.bufferLength).length) :
    outputs.flatten = data := by
  induction calls generalizing data outputs with
  | nil =>
    cases outputs with
    | nil =>
      have hn := List.eq_nil_of_length_eq_zero (by simpa using hc)
      rw [hn, List.flatten_nil]
    | cons output outputs => exact h.elim
  | cons call calls ih =>
    cases outputs with
    | nil => exact h.elim
    | cons output outputs =>
      obtain ⟨rest, rfl, hm, he, hr⟩ := h
      rw [List.flatten_cons, ih hr]
      rw [List.filter_cons, List.length_append] at hc
      by_cases hb : 0 < call.bufferLength
      · rw [if_pos (by simpa using hb), List.length_cons] at hc
        by_cases ho : output = []
        · rcases he.1 ho with hn | hz
          · rw [List.append_eq_nil_iff.1 hn |>.2]
            exact Nat.zero_le _
          · omega
        · have := List.length_pos_iff.2 ho
          omega
      · rw [if_neg (by simpa using hb)] at hc
        omega

end ChunkReader
