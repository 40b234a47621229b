import Narjar.FallibleState
import Narjar.NarFormat

/-!
# The streaming NAR decoder

The decoder reads a byte string front to back, hashes what it consumes, emits one event at a
time to a sink and keeps the open directories on an explicit stack. Allocation is taken to
succeed. The limits never change during a run and are a parameter.
-/
namespace NarDecoder

open ByteCodecs FallibleState NarFormat

def chunkSize : ℕ := 65536
def tokenLimit : ℕ := 256

inductive Event where
  | beginDirectory (depth : ℕ)
  | entry (name : Bytes)
  | beginFile (executable : Bool) (size offset : ℕ)
  | fileChunk (bytes : Bytes)
  | endFile
  | symlink (target : Bytes)
  | endDirectory
  deriving DecidableEq, Repr

/-- `unexpectedToken` carries the two tokens of the `expected .., got ..` message; `stalled`
marks an exhausted loop bound of this model. -/
inductive DecodeError (E : Type) where
  | unexpectedEof
  | sink (error : E)
  | invalid (message : String)
  | unexpectedToken (expected actual : Bytes)
  | nonCanonical (message : String)
  | limitExceeded (what : String) (limit actual : ℕ)
  | stalled
  deriving DecidableEq, Repr

structure DecodeSummary (δ : Type) where
  root : RootKind
  rawSize : ℕ
  rawSha256 : δ
  entries : ℕ
  files : ℕ
  symlinks : ℕ
  deriving DecidableEq, Repr

/-- The decoder together with its counters and sink; `digest` holds the bytes hashed so far. -/
structure Decoder (σ : Type) where
  reader : Bytes
  digest : Bytes
  rawBytes : ℕ
  work : ℕ
  entries : ℕ
  files : ℕ
  symlinks : ℕ
  sink : σ
  deriving DecidableEq, Repr

inductive DirectoryEnd where
  | root
  | entry
  deriving DecidableEq, Repr

structure DirectoryFrame where
  previous : Bytes
  ending : DirectoryEnd
  deriving DecidableEq, Repr

def DirectoryFrame.new (ending : DirectoryEnd) : DirectoryFrame := ⟨[], ending⟩

abbrev EventSink (σ E : Type) := σ → Event → Except E σ

abbrev DecodeM (σ E α : Type) := Fallible (Decoder σ) (DecodeError E) α

variable {σ E δ : Type} (limits : Limits) (sink : EventSink σ E)

def checkedRawByteCount (rawBytes requested : ℕ) : Except (DecodeError E) ℕ :=
  match checkedAdd rawBytes requested with
  | none => .error (.limitExceeded "raw size" limits.maxTotalBytes.toNat u64Max)
  | some next =>
    if limits.maxTotalBytes.toNat < next then
      .error (.limitExceeded "raw size" limits.maxTotalBytes.toNat next)
    else .ok next

/-- `read_hashed_limited_bytes`, called by every other read. -/
def readRaw (length : ℕ) : DecodeM σ E Bytes := fun d =>
  match checkedRawByteCount limits d.rawBytes length with
  | .error e => .error e
  | .ok next =>
    if d.reader.length < length then .error .unexpectedEof
    else
      let buffer := d.reader.take length
      .ok (buffer, { d with
        reader := d.reader.drop length, digest := d.digest ++ buffer, rawBytes := next })

def checkRoom (requested : ℕ) : DecodeM σ E Unit := fun d =>
  match checkedRawByteCount limits d.rawBytes requested with
  | .error e => .error e
  | .ok _ => .ok ((), d)

def bumpWork : DecodeM σ E Unit := fun d =>
  let work := saturatingAdd d.work 1
  if limits.maxWork.toNat < work then
    .error (.limitExceeded "work" limits.maxWork.toNat work)
  else .ok ((), { d with work := work })

def emit (event : Event) : DecodeM σ E Unit := fun d =>
  match sink d.sink event with
  | .error e => .error (.sink e)
  | .ok s => .ok ((), { d with sink := s })

def readU64 : DecodeM σ E ℕ := do
  let bytes ← readRaw limits 8
  pure (leValue bytes)

def readBoundedStringLength (max : ℕ) : DecodeM σ E ℕ := do
  let length ← readU64 limits
  ensure (length ≤ max) (.limitExceeded "string length" max length)
  checkRoom limits (saturatingAdd length (padLength length))
  pure length

def readPadding (length : ℕ) : DecodeM σ E Unit :=
  if padLength length = 0 then pure ()
  else do
    let bytes ← readRaw limits (padLength length)
    ensure (bytes.all (· == 0)) (.nonCanonical "non-zero string padding")

def readString (max : ℕ) : DecodeM σ E Bytes := do
  let length ← readBoundedStringLength limits max
  let value ← readRaw limits length
  readPadding limits length
  pure value

def readControlToken : DecodeM σ E Bytes := readString limits tokenLimit

def expect (expected : Bytes) : DecodeM σ E Unit := do
  let actual ← readControlToken limits
  ensure (actual = expected) (.unexpectedToken expected actual)

def validateName (name : Bytes) : DecodeM σ E Unit :=
  ensure (invalidName name = false) (.nonCanonical "invalid directory entry name")

def acceptOrderedName (previous incoming : Bytes) : DecodeM σ E Bytes := do
  ensure (previous < incoming) (.nonCanonical "directory entries are not strictly ordered")
  pure incoming

def countEntry : DecodeM σ E Unit := fun d =>
  match checkedAdd d.entries 1 with
  | none => .error (.limitExceeded "entry count" limits.maxEntries.toNat u64Max)
  | some entries =>
    if limits.maxEntries.toNat < entries then
      .error (.limitExceeded "entry count" limits.maxEntries.toNat entries)
    else .ok ((), { d with entries := entries })

def readNextDirectoryEntryName (previous : Bytes) : DecodeM σ E (Option Bytes) := do
  bumpWork limits
  let entryKind ← readControlToken limits
  if entryKind = closeToken then pure none
  else do
    ensure (entryKind = entryToken) (.invalid "directory entry expected")
    countEntry limits
    expect limits openToken
    expect limits nameToken
    let incoming ← readString limits limits.maxNameBytes.toNat
    validateName incoming
    let name ← acceptOrderedName previous incoming
    pure (some name)

def readNodeKind : DecodeM σ E RootKind := do
  expect limits openToken
  expect limits typeToken
  let token ← readControlToken limits
  if token = directoryToken then pure .directory
  else if token = regularToken then pure .regular
  else if token = symlinkToken then pure .symlink
  else fail (.invalid "unknown NAR node type")

def readRegularFileExecutableFlag : DecodeM σ E Bool := do
  let field ← readControlToken limits
  if field = contentsToken then pure false
  else do
    ensure (field = executableToken) (.invalid "regular contents expected")
    let marker ← readControlToken limits
    ensure (marker = []) (.nonCanonical "the executable marker must have an empty value")
    expect limits contentsToken
    pure true

def readFileChunk (length : ℕ) : DecodeM σ E Unit := do
  let chunk ← readRaw limits length
  emit sink (.fileChunk chunk)

/-- The remaining `count` chunks of a body of `size` bytes, from `offset` on. -/
def streamChunks (size : ℕ) : (count offset : ℕ) → DecodeM σ E Unit
  | 0, _ => pure ()
  | count + 1, offset => do
    readFileChunk limits sink (min (size - offset) chunkSize)
    streamChunks size count (offset + chunkSize)

/-- Steps of `(0..size).step_by(CHUNK_SIZE)`. -/
def chunkCount (size : ℕ) : ℕ := (size + (chunkSize - 1)) / chunkSize

def streamFileContents (size : ℕ) : DecodeM σ E Unit := do
  streamChunks limits sink size (chunkCount size) 0
  readPadding limits size

def rawOffset : DecodeM σ E ℕ := fun d => .ok (d.rawBytes, d)

def countFile : DecodeM σ E Unit := fun d =>
  .ok ((), { d with files := saturatingAdd d.files 1 })

def countSymlink : DecodeM σ E Unit := fun d =>
  .ok ((), { d with symlinks := saturatingAdd d.symlinks 1 })

def decodeRegularFileNode : DecodeM σ E RootKind := do
  let executable ← readRegularFileExecutableFlag limits
  let size ← readU64 limits
  ensure (size ≤ limits.maxFileBytes.toNat)
    (.limitExceeded "file size" limits.maxFileBytes.toNat size)
  let offset ← rawOffset
  emit sink (.beginFile executable size offset)
  streamFileContents limits sink size
  emit sink .endFile
  expect limits closeToken
  countFile
  pure .regular

def checkSymlinkTarget (target : Bytes) : DecodeM σ E Unit :=
  match validateSymlinkTarget target with
  | .error message => fail (.nonCanonical message)
  | .ok _ => pure ()

def readSymlinkTarget : DecodeM σ E Bytes := do
  expect limits targetToken
  let target ← readString limits limits.maxSymlinkTargetBytes.toNat
  checkSymlinkTarget target
  pure target

def decodeSymlinkNode : DecodeM σ E RootKind := do
  let target ← readSymlinkTarget limits
  emit sink (.symlink target)
  expect limits closeToken
  countSymlink
  pure .symlink

def decodeNode (depth : ℕ) : DecodeM σ E RootKind := do
  bumpWork limits
  ensure (depth ≤ limits.maxDepth.toNat)
    (.limitExceeded "directory depth" limits.maxDepth.toNat depth)
  let kind ← readNodeKind limits
  match kind with
  | .directory => do
    emit sink (.beginDirectory depth)
    pure .directory
  | .regular => decodeRegularFileNode limits sink
  | .symlink => decodeSymlinkNode limits sink

def finishDirectory (ending : DirectoryEnd) : DecodeM σ E Unit := do
  emit sink .endDirectory
  match ending with
  | .root => pure ()
  | .entry => expect limits closeToken

/-- The directory to continue with, if any, and the directories open above it. -/
abbrev Stack := Option DirectoryFrame × List DirectoryFrame

def decodeChildNode (parent : DirectoryFrame) (parents : List DirectoryFrame) :
    DecodeM σ E Stack := do
  let kind ← decodeNode limits sink (parents.length + 1)
  match kind with
  | .directory => pure (some (.new .entry), parent :: parents)
  | .regular => do
    expect limits closeToken
    pure (some parent, parents)
  | .symlink => do
    expect limits closeToken
    pure (some parent, parents)

def decodeDirectoryChildOrEnd (frame : DirectoryFrame) (parents : List DirectoryFrame) :
    DecodeM σ E Stack := do
  let entry ← readNextDirectoryEntryName limits frame.previous
  match entry with
  | some name => do
    emit sink (.entry name)
    expect limits nodeToken
    decodeChildNode limits sink { frame with previous := name } parents
  | none => do
    finishDirectory limits sink frame.ending
    pure (parents.head?, parents.tail)

/-- The loop of `decode_tree`, for at most `fuel` rounds. -/
def decodeLoop : (fuel : ℕ) → Stack → DecodeM σ E Unit
  | _, (none, _) => pure ()
  | 0, (some _, _) => fail .stalled
  | fuel + 1, (some frame, parents) => do
    let stack ← decodeDirectoryChildOrEnd limits sink frame parents
    decodeLoop fuel stack

def unread : DecodeM σ E ℕ := fun d => .ok (d.reader.length, d)

def rootStack : RootKind → Stack
  | .directory => (some (.new .root), [])
  | .regular => (none, [])
  | .symlink => (none, [])

/-- Every round consumes input, so the unread bytes bound the rounds. -/
def decodeTree : DecodeM σ E RootKind := do
  let root ← decodeNode limits sink 0
  let fuel ← unread
  decodeLoop limits sink fuel (rootStack root)
  pure root

def Decoder.start (reader : Bytes) (s : σ) : Decoder σ where
  reader := reader
  digest := []
  rawBytes := 0
  work := 0
  entries := 0
  files := 0
  symlinks := 0
  sink := s

def decodeArchive : DecodeM σ E RootKind := do
  expect limits magic
  let root ← decodeTree limits sink
  let trailing ← unread
  ensure (trailing = 0) (.invalid "trailing bytes after root node")
  pure root

def decode (sha256 : Bytes → δ) (reader : Bytes) (s : σ) :
    Except (DecodeError E) (DecodeSummary δ × σ) :=
  match decodeArchive limits sink (Decoder.start reader s) with
  | .error e => .error e
  | .ok (root, d) =>
    .ok ({ root := root, rawSize := d.rawBytes, rawSha256 := sha256 d.digest,
           entries := d.entries, files := d.files, symlinks := d.symlinks }, d.sink)

def collect : EventSink (List Event) Empty := fun events event => .ok (events ++ [event])

def decodeEvents (sha256 : Bytes → δ) (reader : Bytes) :
    Except (DecodeError Empty) (DecodeSummary δ × List Event) :=
  decode limits collect sha256 reader []

end NarDecoder
