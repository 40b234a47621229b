import Mathlib.Logic.Function.Basic
import Narjar.ManifestFormat
import Narjar.StreamChunking

/-!
# Ingesting a NAR into the chunk store

The writer buffers the stream, cuts complete chunks off its front in batches, stores each
chunk under its hash and publishes the manifest last. The chunker and the hash function are
parameters; files are read and written without failing, except for the filesystem barrier,
whose outcome is given to `finish`.
-/
namespace ChunkIngest

open ByteCodecs FallibleState NarFormat ManifestFormat StreamChunking

inductive ErrorKind where
  | invalidData
  | invalidInput
  | notFound
  | alreadyExists
  | unexpectedEof
  | other
  deriving DecidableEq, Repr

structure IoError where
  kind : ErrorKind
  message : String
  deriving DecidableEq, Repr

def invalidData (message : String) : IoError := ⟨.invalidData, message⟩

inductive ChunkStoreError where
  | io (error : IoError)
  | manifest (error : ManifestError)
  | invalidRange (start stop size : ℕ)
  | narHashMismatch (expected actual : Digest)
  | narSizeMismatch (expected actual : ℕ)
  deriving DecidableEq

inductive PublishOutcome where
  | created
  | identical
  deriving DecidableEq, Repr

/-- The files of the store by the hash in their name. -/
structure ChunkStore where
  chunks : Digest → Option Bytes
  manifests : Digest → Option Bytes

def ChunkStore.empty : ChunkStore := ⟨fun _ => none, fun _ => none⟩

/-- Whether the chunks of an ingest still need a filesystem barrier. -/
inductive ChunkDurabilityObligation where
  | empty
  | reused
  | newlyPublished
  deriving DecidableEq, Repr

def ChunkDurabilityObligation.recordPublication :
    ChunkDurabilityObligation → PublishOutcome → ChunkDurabilityObligation
  | _, .created => .newlyPublished
  | .empty, .identical => .reused
  | .reused, .identical => .reused
  | .newlyPublished, .identical => .newlyPublished

structure ChunkSpecification where
  start : ℕ
  stop : ℕ
  hash : Digest
  narEnd : ℕ
  length : ℕ
  deriving DecidableEq

def ChunkSpecification.fromByteRange (start stop : ℕ) (hash : Digest)
    (previousNarEnd narEnd : ℕ) : Except IoError ChunkSpecification := do
  let length ← okOr (checkedSub stop start) (invalidData "chunk range underflow")
  let expectedNarEnd ← okOr (checkedAdd previousNarEnd length) (invalidData "chunk end overflow")
  require (expectedNarEnd = narEnd)
    (invalidData "chunk byte range does not match its absolute NAR offsets")
  .ok ⟨start, stop, hash, narEnd, length⟩

structure ChunkingWriter where
  store : ChunkStore
  profile : ChunkProfile
  pending : Bytes
  records : Bytes
  chunkCount : ℕ
  previousEnd : ℕ
  previousLength : Option ℕ
  hashed : Bytes
  size : ℕ
  durability : ChunkDurabilityObligation

def beginIngest (store : ChunkStore) (profile : ChunkProfile) : ChunkingWriter where
  store := store
  profile := profile
  pending := []
  records := []
  chunkCount := 0
  previousEnd := 0
  previousLength := none
  hashed := []
  size := 0
  durability := .empty

def chunkPublicationBatchSize : ℕ := 16

section Functions

variable (sha256 : Bytes → Digest)
variable (chunker : ∀ profile : ChunkProfile, Chunker UInt8 profile.minSize profile.maxSize)

/-- A different file under the chunk's name is replaced unless it really has that hash. -/
def replaceCorruptChunk (store : ChunkStore) (hash : Digest) (bytes existing : Bytes) :
    Except IoError (PublishOutcome × ChunkStore) :=
  if existing.length = bytes.length ∧ sha256 existing = hash then
    if existing = bytes then .ok (.identical, store)
    else .error (invalidData "content-addressed chunk collision")
  else .ok (.created, { store with chunks := Function.update store.chunks hash (some bytes) })

def storeChunk (store : ChunkStore) (hash : Digest) (bytes : Bytes) :
    Except IoError (PublishOutcome × ChunkStore) :=
  match store.chunks hash with
  | none => .ok (.created, { store with chunks := Function.update store.chunks hash (some bytes) })
  | some existing =>
    if existing = bytes then .ok (.identical, store)
    else replaceCorruptChunk sha256 store hash bytes existing

def publishChunkBatch (store : ChunkStore) :
    List (Digest × Bytes) → Except IoError (List PublishOutcome × ChunkStore)
  | [] => .ok ([], store)
  | (hash, bytes) :: batch => do
    let (outcome, store) ← storeChunk sha256 store hash bytes
    let (outcomes, store) ← publishChunkBatch store batch
    .ok (outcome :: outcomes, store)

/-- The loop of `next_chunk_specifications`; `slots` counts the free places of the batch. -/
def specificationsFrom (w : ChunkingWriter) (finalBatch : Bool) :
    ℕ → ℕ → ℕ → Option ℕ → Except IoError (List ChunkSpecification)
  | 0, _, _, _ => .ok []
  | slots + 1, start, previousEnd, previousLength =>
    if w.pending.length ≤ start then .ok []
    else if !finalBatch ∧ w.pending.length - start < w.profile.maxSize then .ok []
    else do
      let chunkLength := (chunker w.profile).cut (w.pending.drop start)
      require (¬previousLength.any (· < w.profile.minSize))
        (invalidData "non-final chunk is too small")
      let stop ← okOr (checkedAdd start chunkLength) (invalidData "chunk end overflow")
      let narEnd ← okOr (checkedSub w.size (w.pending.length - stop))
        (invalidData "chunk end underflow")
      let hash := sha256 ((w.pending.drop start).take (stop - start))
      let specification ← ChunkSpecification.fromByteRange start stop hash previousEnd narEnd
      let rest ← specificationsFrom w finalBatch slots stop specification.narEnd
        (some specification.length)
      .ok (specification :: rest)

def nextChunkSpecifications (w : ChunkingWriter) (finalBatch : Bool) :
    Except IoError (List ChunkSpecification) := do
  let specifications ← specificationsFrom sha256 chunker w finalBatch chunkPublicationBatchSize 0
    w.previousEnd w.previousLength
  require (specifications ≠ []) (invalidData "chunk batch has no complete chunk")
  .ok specifications

def batchBytes : ℕ → List ChunkSpecification → Except IoError ℕ
  | total, [] => .ok total
  | total, specification :: specifications => do
    let total ← okOr (checkedAdd total specification.length)
      (invalidData "chunk batch size overflow")
    batchBytes total specifications

def recordPublishedChunk (w : ChunkingWriter) (specification : ChunkSpecification) :
    Except IoError ChunkingWriter := do
  let chunkCount ← okOr (checkedAdd w.chunkCount 1) (invalidData "too many chunks")
  .ok { w with
    records := w.records ++ manifestRecord ⟨specification.narEnd, specification.hash⟩
    previousEnd := specification.narEnd
    previousLength := some specification.length
    chunkCount := chunkCount }

def recordPublishedChunks (w : ChunkingWriter) :
    List ChunkSpecification → Except IoError ChunkingWriter
  | [] => .ok w
  | specification :: specifications => do
    let w ← recordPublishedChunk w specification
    recordPublishedChunks w specifications

def publishNextBatch (w : ChunkingWriter) (finalBatch : Bool) : Except IoError ChunkingWriter := do
  let specifications ← nextChunkSpecifications sha256 chunker w finalBatch
  let _ ← batchBytes 0 specifications
  let batch := specifications.map fun s => (s.hash, (w.pending.drop s.start).take (s.stop - s.start))
  let (outcomes, store) ← publishChunkBatch sha256 w.store batch
  let durability := outcomes.foldl ChunkDurabilityObligation.recordPublication w.durability
  let w ← recordPublishedChunks { w with store := store, durability := durability } specifications
  let drained := (specifications.getLast?.map ChunkSpecification.stop).getD 0
  .ok { w with pending := w.pending.drop drained }

/-- Every batch drains at least one byte, so the pending length bounds the rounds. -/
def publishCompleteChunks (w : ChunkingWriter) : Except IoError ChunkingWriter := do
  let batchBytes ← okOr (checkedMul w.profile.maxSize chunkPublicationBatchSize)
    (invalidData "chunk batch is too large")
  whileLoop (fun w => batchBytes ≤ w.pending.length)
    (fun w => publishNextBatch sha256 chunker w false) w.pending.length w

def write (w : ChunkingWriter) (bytes : Bytes) : Except IoError ChunkingWriter := do
  let size ← okOr (checkedAdd w.size bytes.length) (invalidData "NAR is too large")
  publishCompleteChunks sha256 chunker
    { w with hashed := w.hashed ++ bytes, size := size, pending := w.pending ++ bytes }

def writeAll (w : ChunkingWriter) : List Bytes → Except IoError ChunkingWriter
  | [] => .ok w
  | bytes :: writes => do
    let w ← write sha256 chunker w bytes
    writeAll w writes

def publishPendingChunk (w : ChunkingWriter) : Except IoError ChunkingWriter :=
  whileLoop (fun w => w.pending ≠ []) (fun w => publishNextBatch sha256 chunker w true)
    w.pending.length w

def verifyStreamedNarIdentity (actual expected : NarIdentity) : Except ChunkStoreError Unit := do
  require (actual.hash = expected.hash) (.narHashMismatch expected.hash actual.hash)
  require (actual.size = expected.size) (.narSizeMismatch expected.size actual.size)

def verifyChunkRecordCoverage (stop : ℕ) (identity : NarIdentity) : Except ChunkStoreError Unit :=
  require (stop = identity.size) (.narSizeMismatch identity.size stop)

def verifyIdentityAndRecordCoverage (w : ChunkingWriter) (expected : NarIdentity) :
    Except ChunkStoreError ChunkManifest := do
  let actual : NarIdentity := ⟨sha256 w.hashed, w.size⟩
  verifyStreamedNarIdentity actual expected
  verifyChunkRecordCoverage w.previousEnd actual
  .ok ⟨actual, w.profile, w.chunkCount⟩

def validateManifest (store : ChunkStore) (hash : Digest) :
    Except ManifestError (Option ChunkManifest) :=
  match store.manifests hash with
  | none => .ok none
  | some file => do
    let reader ← ManifestReader.new file maxChunkManifestBytes
    reader.finishRemaining sha256
    .ok (some reader.manifest)

/-- A reused chunk set skips the barrier only when the same manifest is already complete. -/
def makeChunksDurable (w : ChunkingWriter) (manifest : ChunkManifest)
    (synchronize : Except IoError Unit) : Except ChunkStoreError Unit :=
  match w.durability with
  | .empty => .ok ()
  | .reused => do
    let existing ← (validateManifest sha256 w.store manifest.identity.hash).mapError .manifest
    if existing = some manifest then .ok () else synchronize.mapError .io
  | .newlyPublished => synchronize.mapError .io

def encodedManifestSize (chunkCount : ℕ) : Except ManifestError ℕ := do
  let bytes ← okOr (checkedMul chunkCount manifestRecordBytes) .lengthOverflow
  okOr (checkedAdd bytes (manifestHeaderBytes + manifestChecksumBytes)) .lengthOverflow

def publishTemporaryFile (store : ChunkStore) (hash : Digest) (bytes : Bytes) :
    Except IoError (PublishOutcome × ChunkStore) :=
  match store.manifests hash with
  | none =>
    .ok (.created, { store with manifests := Function.update store.manifests hash (some bytes) })
  | some existing =>
    if existing = bytes then .ok (.identical, store)
    else .error (invalidData "content-addressed storage collision")

structure CompletedChunkedIngest where
  manifest : ChunkManifest
  outcome : PublishOutcome
  deriving DecidableEq

def publishManifest (w : ChunkingWriter) (manifest : ChunkManifest) :
    Except ChunkStoreError (CompletedChunkedIngest × ChunkStore) := do
  let _ ← (encodedManifestSize manifest.chunkCount).mapError ChunkStoreError.manifest
  let (outcome, store) ← (publishTemporaryFile w.store manifest.identity.hash
    (completeManifest sha256 manifest w.records)).mapError ChunkStoreError.io
  .ok (⟨manifest, outcome⟩, store)

def finish (w : ChunkingWriter) (expected : NarIdentity) (synchronize : Except IoError Unit) :
    Except ChunkStoreError (CompletedChunkedIngest × ChunkStore) := do
  let w ← (publishPendingChunk sha256 chunker w).mapError .io
  let manifest ← verifyIdentityAndRecordCoverage sha256 w expected
  makeChunksDurable sha256 w manifest synchronize
  publishManifest sha256 w manifest

def ingest (store : ChunkStore) (profile : ChunkProfile) (writes : List Bytes)
    (expected : NarIdentity) (synchronize : Except IoError Unit) :
    Except ChunkStoreError (CompletedChunkedIngest × ChunkStore) := do
  let w ← (writeAll sha256 chunker (beginIngest store profile) writes).mapError .io
  finish sha256 chunker w expected synchronize

end Functions

end ChunkIngest
