import Narjar.ChunkIngest
import Narjar.FaultyPrograms
import Narjar.FileTree
import Narjar.ObjectNames

/-!
# Mark and sweep of the chunk store

A collection marks every chunk a live manifest lists by an empty file in a mark directory,
then removes the manifests and chunks without a mark. Each filesystem operation may fail.
Paths are relative to the storage root.
-/
namespace ChunkSweep

open ByteCodecs NarFormat ManifestFormat ObjectNames ChunkIngest FaultyPrograms FileTree

abbrev Path := List Bytes
abbrev Files := Tree Bytes Bytes
abbrev Action := Faulty Files ChunkStoreError

def chunkDirectory : Path :=
  [ascii ['.', 'n', 'a', 'r', 'j', 'a', 'r', '-', 'c', 'h', 'u', 'n', 'k', 's']]

def manifestDirectory : Path :=
  [ascii ['.', 'n', 'a', 'r', 'j', 'a', 'r', '-', 'm', 'a', 'n', 'i', 'f', 'e', 's', 't', 's']]

def gcMarkDirectory : Path := chunkDirectory ++ [ascii ['.', 'g', 'c', '-', 'm', 'a', 'r', 'k', 's']]

def gcManifestMarkDirectory : Path :=
  gcMarkDirectory ++ [ascii ['m', 'a', 'n', 'i', 'f', 'e', 's', 't', 's']]

def shardName (hash : Digest) : Bytes := (hexName hash).take 2

def chunkName (hash : Digest) : Bytes := hexName hash

def manifestSuffix : Bytes := ascii ['.', 'm', 'a', 'n', 'i', 'f', 'e', 's', 't']

def manifestName (hash : Digest) : Bytes := encodeNix32 hash ++ manifestSuffix

def repairPrefix : Bytes := ascii ['.', 'r', 'e', 'p', 'a', 'i', 'r', '-']

def chunkRepairMarkerName (hash : Digest) : Bytes := repairPrefix ++ hexName hash

def isChunkShardName (name : Bytes) : Bool := name.length == 2 && name.all isAsciiHexdigit

def isChunkName (name : Bytes) : Bool := name.length == 64 && name.all isAsciiHexdigit

def isManifestName (name : Bytes) : Bool :=
  manifestSuffix.isSuffixOf name &&
    (decodeSha256 (name.take (name.length - manifestSuffix.length))).isSome

section Operations

def ioFailure : ChunkStoreError := .io ⟨.other, "input/output error"⟩

def notFound : ChunkStoreError := .io ⟨.notFound, "entity not found"⟩

def ioKind : ChunkStoreError → Option ErrorKind
  | .io error => some error.kind
  | _ => none

def openDirectoryAt (path : Path) : Action Unit :=
  observe ioFailure fun files =>
    match files.get path with
    | some .directory => .ok ()
    | some (.file _) | some .pipe => .error (.io (invalidData "not a directory"))
    | some .unopenable => .error ioFailure
    | none => .error notFound

def openRegularAt (path : Path) : Action Bytes :=
  observe ioFailure fun files =>
    match files.get path with
    | some (.file contents) => .ok contents
    | some .directory | some .pipe => .error (.io (invalidData "not a regular file"))
    | some .unopenable => .error ioFailure
    | none => .error notFound

def entryIsRegularAt (path : Path) : Action Bool :=
  observe ioFailure fun files =>
    match files.get path with
    | some (.file _) => .ok true
    | some _ => .ok false
    | none => .error notFound

def readDirNames (directory : Path) : Action (List Bytes) :=
  observe ioFailure fun files => .ok (files.names directory)

def unlinkAt (path : Path) : Action Unit :=
  operation ioFailure fun files =>
    match files.get path with
    | some .directory => .error ioFailure
    | some _ => .ok ((), files.discard (· == path))
    | none => .error notFound

/-- `open_at` with `FileCreation::CreateNew`. -/
def createNewAt (path : Path) : Action Unit :=
  operation ioFailure fun files =>
    if h : files.Vacant path then .ok ((), files.create path (.file []) h)
    else if files.get path = none then .error notFound
    else .error (.io ⟨.alreadyExists, "entity already exists"⟩)

/-- `mkdirat`, with a directory that is already there accepted. -/
def makeDirectoryAt (path : Path) : Action Unit :=
  operation ioFailure fun files =>
    if h : files.Vacant path then .ok ((), files.create path .directory h)
    else if files.get path = none then .error notFound
    else .ok ((), files)

def syncAll : Action Unit := operation ioFailure fun files => .ok ((), files)

def ensureDirectoryAt (path : Path) : Action Unit :=
  handle (openDirectoryAt path) pure fun error =>
    if ioKind error = some .notFound then do
      makeDirectoryAt path
      openDirectoryAt path
    else stop error

end Operations

section Marking

variable (sha256 : Bytes → Digest)

/-- Unlink everything below the directory; the directories themselves stay. -/
def clearGcMarkFiles (directory : Path) : Action Unit := do
  let found ← observe ioFailure fun files => .ok (files.below directory)
  forEach found fun p =>
    match p.2 with
    | .unopenable => stop ioFailure
    | _ => unlinkAt p.1

def prepareGcMarks : Action Unit := do
  ensureDirectoryAt gcMarkDirectory
  clearGcMarkFiles gcMarkDirectory
  ensureDirectoryAt gcManifestMarkDirectory

def markGcFile (path : Path) : Action Unit :=
  handle (createNewAt path) pure fun error =>
    if ioKind error = some .alreadyExists then pure () else stop error

def gcMarkerExists (path : Path) : Action Bool :=
  handle (entryIsRegularAt path) pure fun error =>
    if ioKind error = some .notFound then pure false else stop error

def markLiveChunk (hash : Digest) : Action Unit := do
  ensureDirectoryAt (gcMarkDirectory ++ [shardName hash])
  markGcFile (gcMarkDirectory ++ [shardName hash, chunkName hash])

def openManifest (hash : Digest) : Action (Option Bytes) :=
  handle (openRegularAt (manifestDirectory ++ [manifestName hash])) (fun file => pure (some file))
    fun error => if ioKind error = some .notFound then pure none else stop error

def readManifest {α : Type} (result : Except ManifestError α) : Action α :=
  observe ioFailure fun _ => result.mapError .manifest

/-- `while let Some(record)`; every record leaves one fewer, so the count bounds the rounds. -/
def markRecords : ℕ → ManifestReader → Action ManifestReader
  | 0, reader => pure reader
  | rounds + 1, reader => do
    let (record, reader) ← readManifest reader.nextRecord
    match record with
    | none => pure reader
    | some descriptor => do
      markLiveChunk descriptor.hash
      markRecords rounds reader

def markLiveManifest (hash : Digest) : Action Unit := do
  openDirectoryAt gcManifestMarkDirectory
  markGcFile (gcManifestMarkDirectory ++ [manifestName hash])
  match ← openManifest hash with
  | none => stop notFound
  | some file => do
    let reader ← readManifest (ManifestReader.new file maxChunkManifestBytes)
    let reader ← markRecords (reader.recordsRemaining + 1) reader
    readManifest (reader.finishRemaining sha256)

/-- A failure drops the marks, which clears them and ignores errors. -/
def markRetainedManifests (liveManifests : List Digest) : Action Unit := do
  prepareGcMarks
  handle (forEach liveManifests (markLiveManifest sha256)) pure fun error => do
    let _ ← attempt (clearGcMarkFiles gcMarkDirectory)
    stop error

end Marking

structure ChunkSweepReport where
  deletedManifests : ℕ
  deletedChunks : ℕ
  deriving DecidableEq, Repr

section Sweeping

variable (sha256 : Bytes → Digest)

def syncIfChanged (deleted : ℕ) : Action Unit := if 0 < deleted then syncAll else pure ()

def deleteUnmarkedManifest (deleted : ℕ) (name : Bytes) : Action ℕ := do
  if isManifestName name then
    if ← entryIsRegularAt (manifestDirectory ++ [name]) then
      if ← gcMarkerExists (gcManifestMarkDirectory ++ [name]) then pure deleted
      else do
        unlinkAt (manifestDirectory ++ [name])
        pure (deleted + 1)
    else pure deleted
  else pure deleted

def deleteUnmarkedManifests : Action ℕ := do
  openDirectoryAt gcManifestMarkDirectory
  let names ← readDirNames manifestDirectory
  let deleted ← foldEach deleteUnmarkedManifest 0 names
  syncIfChanged deleted
  pure deleted

def finishPendingChunkRepair (hash : Digest) : Action Unit :=
  let marker := chunkDirectory ++ [chunkRepairMarkerName hash]
  handle (openRegularAt marker)
    (fun _ => do
      syncAll
      unlinkAt marker
      syncAll)
    fun error => if ioKind error = some .notFound then pure () else stop error

/-- `markedShard` says whether the shard has a directory of marks at all. -/
def chunkIsMarked (shard : Bytes) (markedShard : Bool) (name : Bytes) : Action Bool :=
  if markedShard then gcMarkerExists (gcMarkDirectory ++ [shard, name]) else pure false

def deleteUnmarkedChunk (shard : Bytes) (markedShard : Bool) (deleted : ℕ) (name : Bytes) :
    Action ℕ := do
  if isChunkName name then
    if ← entryIsRegularAt (chunkDirectory ++ [shard, name]) then
      if ← chunkIsMarked shard markedShard name then pure deleted
      else
        match parseChunkHash name with
        | none => stop (.io (invalidData "valid chunk names contain a SHA-256 digest"))
        | some hash => do
          finishPendingChunkRepair hash
          unlinkAt (chunkDirectory ++ [shard, name])
          pure (deleted + 1)
    else pure deleted
  else pure deleted

def openMarkedShard (shard : Bytes) : Action Bool :=
  handle (openDirectoryAt (gcMarkDirectory ++ [shard])) (fun _ => pure true) fun error =>
    if ioKind error = some .notFound then pure false else stop error

def deleteUnmarkedShard (deleted : ℕ) (shard : Bytes) : Action ℕ := do
  openDirectoryAt (chunkDirectory ++ [shard])
  let markedShard ← openMarkedShard shard
  let names ← readDirNames (chunkDirectory ++ [shard])
  let deletedFromShard ← foldEach (deleteUnmarkedChunk shard markedShard) 0 names
  syncIfChanged deletedFromShard
  pure (deleted + deletedFromShard)

def deleteUnmarkedChunks : Action ℕ := do
  let names ← readDirNames chunkDirectory
  foldEach deleteUnmarkedShard 0 (names.filter isChunkShardName)

/-- The marks are cleared whether or not the deletion succeeds. -/
def sweep : Action ChunkSweepReport := do
  let result ← attempt do
    let deletedManifests ← deleteUnmarkedManifests
    let deletedChunks ← deleteUnmarkedChunks
    pure (ChunkSweepReport.mk deletedManifests deletedChunks)
  let cleared ← attempt (clearGcMarkFiles gcMarkDirectory)
  match result, cleared with
  | .ok report, .ok () => pure report
  | .error error, _ => stop error
  | .ok _, .error error => stop error

def sweepUnreachable (liveManifests : List Digest) : Action ChunkSweepReport := do
  markRetainedManifests sha256 liveManifests
  sweep

end Sweeping

theorem parseChunkHash_of_isChunkName (h : isChunkName name = true) :
    ∃ hash, parseChunkHash name = some hash := by
  rw [isChunkName, Bool.and_eq_true, beq_iff_eq] at h
  obtain ⟨bytes, hb, hl⟩ := hexPairs_isSome (n := 32) h.1 h.2
  exact ⟨⟨bytes, hl⟩, by simp [parseChunkHash, hb, hl]⟩

theorem isChunkName_chunkName (hash : Digest) : isChunkName (chunkName hash) = true := by
  rw [isChunkName, chunkName, length_hexName, hexName_all]
  rfl

theorem isChunkShardName_shardName (hash : Digest) : isChunkShardName (shardName hash) = true := by
  have ha := hexName_all hash
  rw [← List.take_append_drop 2 (hexName hash), List.all_append, Bool.and_eq_true] at ha
  rw [isChunkShardName, shardName, ha.1, List.length_take, length_hexName]
  rfl

end ChunkSweep
