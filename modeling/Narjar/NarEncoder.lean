import Narjar.FallibleState
import Narjar.NarFormat

/-!
# The event-driven NAR encoder

The encoder turns one event at a time into archive bytes and keeps its open nodes on a
stack, innermost first. The writer is a byte string that accepts every write.
-/
namespace NarEncoder

open ByteCodecs FallibleState NarFormat

def encoderVersion : ℕ := 1

inductive Event where
  | beginDirectory
  | entry (name : Bytes)
  | beginFile (executable : Bool) (size : ℕ)
  | fileChunk (bytes : Bytes)
  | endFile
  | symlink (target : Bytes)
  | endDirectory
  deriving DecidableEq, Repr

inductive EncodeError where
  | invalid (message : String)
  | nonCanonical (message : String)
  | limitExceeded (what : String) (limit actual : ℕ)
  deriving DecidableEq, Repr

structure EncodeSummary (δ : Type) where
  version : ℕ
  root : RootKind
  rawSize : ℕ
  rawSha256 : δ
  entries : ℕ
  files : ℕ
  symlinks : ℕ
  deriving DecidableEq, Repr

inductive DirectoryState where
  | ready (lastName : Option Bytes)
  | childOpen (name : Bytes)
  deriving DecidableEq, Repr

inductive OpenNode where
  | directory (state : DirectoryState)
  | regular (remaining size : ℕ)
  deriving DecidableEq, Repr

inductive RootState where
  | awaiting
  | opened (kind : RootKind)
  | complete (kind : RootKind)
  deriving DecidableEq, Repr

structure Encoder where
  writer : Bytes
  digest : Bytes
  rawSize : ℕ
  root : RootState
  stack : List OpenNode
  entries : ℕ
  files : ℕ
  symlinks : ℕ
  work : ℕ
  deriving DecidableEq, Repr

abbrev EncodeM (α : Type) := Fallible Encoder EncodeError α

variable {δ : Type} (limits : Limits)

def bytes (value : Bytes) : EncodeM Unit := fun s =>
  match checkedAdd s.rawSize value.length with
  | none => .error (.limitExceeded "raw size" limits.maxTotalBytes.toNat u64Max)
  | some next =>
    if limits.maxTotalBytes.toNat < next then
      .error (.limitExceeded "raw size" limits.maxTotalBytes.toNat next)
    else
      .ok ((), { s with
        writer := s.writer ++ value, digest := s.digest ++ value, rawSize := next })

def pad (length : ℕ) : EncodeM Unit := bytes limits (padding length)

def u64 (value : ℕ) : EncodeM Unit := bytes limits (leBytes 8 value)

def string (value : Bytes) : EncodeM Unit := do
  u64 limits value.length
  bytes limits value
  pad limits value.length

def bumpWork : EncodeM Unit := fun s =>
  let work := saturatingAdd s.work 1
  if limits.maxWork.toNat < work then
    .error (.limitExceeded "work" limits.maxWork.toNat work)
  else .ok ((), { s with work := work })

def ensureOpen : EncodeM Unit := fun s =>
  match s.root with
  | .complete _ => .error (.invalid "events follow the completed root")
  | .awaiting => .ok ((), s)
  | .opened _ => .ok ((), s)

def checkDepth : EncodeM Unit := fun s =>
  if limits.maxDepth.toNat < s.stack.length then
    .error (.limitExceeded "directory depth" limits.maxDepth.toNat s.stack.length)
  else .ok ((), s)

/-- The parent of a new node must wait for a child; without a parent the node is the root. -/
def attachNode (kind : RootKind) : EncodeM Unit := fun s =>
  match s.stack with
  | .directory (.childOpen _) :: _ => .ok ((), s)
  | .directory (.ready _) :: _ => .error (.invalid "node is not preceded by a directory entry")
  | .regular _ _ :: _ => .error (.invalid "node is nested under a regular file")
  | [] =>
    match s.root with
    | .awaiting => .ok ((), { s with root := .opened kind })
    | .opened _ => .error (.invalid "multiple root nodes")
    | .complete _ => .error (.invalid "events follow the completed root")

def beginNode (kind : RootKind) : EncodeM Unit := do
  ensureOpen
  checkDepth limits
  attachNode kind

def pushNode (node : OpenNode) : EncodeM Unit := fun s =>
  .ok ((), { s with stack := node :: s.stack })

def beginDirectory : EncodeM Unit := do
  beginNode limits .directory
  string limits openToken
  string limits typeToken
  string limits directoryToken
  pushNode (.directory (.ready none))

def nextEntries : EncodeM ℕ := fun s =>
  match checkedAdd s.entries 1 with
  | none => .error (.limitExceeded "entry count" limits.maxEntries.toNat u64Max)
  | some next =>
    if limits.maxEntries.toNat < next then
      .error (.limitExceeded "entry count" limits.maxEntries.toNat next)
    else .ok (next, s)

def misordered (name : Bytes) : Option Bytes → Bool
  | some previous => ¬ previous < name
  | none => false

def openChild (name : Bytes) : EncodeM Unit := fun s =>
  match s.stack with
  | .directory (.ready lastName) :: rest =>
    if misordered name lastName then
      .error (.nonCanonical "directory entries are not strictly ordered")
    else .ok ((), { s with stack := .directory (.childOpen name) :: rest })
  | .directory (.childOpen _) :: _ => .error (.invalid "directory entry is missing its child")
  | .regular _ _ :: _ => .error (.invalid "entry outside a directory")
  | [] => .error (.invalid "entry outside a directory")

def setEntries (entries : ℕ) : EncodeM Unit := fun s => .ok ((), { s with entries := entries })

def entry (name : Bytes) : EncodeM Unit := do
  ensureOpen
  ensure (name.length ≤ limits.maxNameBytes.toNat)
    (.limitExceeded "name length" limits.maxNameBytes.toNat name.length)
  let next ← nextEntries limits
  ensure (invalidName name = false) (.nonCanonical "invalid directory entry name")
  openChild name
  string limits entryToken
  string limits openToken
  string limits nameToken
  string limits name
  string limits nodeToken
  setEntries next

def executableFlag (executable : Bool) : EncodeM Unit :=
  if executable then do
    string limits executableToken
    string limits []
  else pure ()

def beginFile (executable : Bool) (size : ℕ) : EncodeM Unit := do
  ensure (size ≤ limits.maxFileBytes.toNat)
    (.limitExceeded "file size" limits.maxFileBytes.toNat size)
  beginNode limits .regular
  string limits openToken
  string limits typeToken
  string limits regularToken
  executableFlag limits executable
  string limits contentsToken
  u64 limits size
  pushNode (.regular size size)

def openFile (message : String) : EncodeM (ℕ × ℕ) := fun s =>
  match s.stack with
  | .regular remaining size :: _ => .ok ((remaining, size), s)
  | .directory _ :: _ => .error (.invalid message)
  | [] => .error (.invalid message)

def setRemaining (remaining size : ℕ) : EncodeM Unit := fun s =>
  .ok ((), { s with stack := .regular remaining size :: s.stack.tail })

def fileChunk (chunk : Bytes) : EncodeM Unit := do
  let (remaining, size) ← openFile "file chunk outside a regular node"
  ensure (chunk.length ≤ remaining) (.invalid "file body is larger than its declared size")
  bytes limits chunk
  setRemaining (remaining - chunk.length) size

def completeRoot : EncodeM Unit := fun s =>
  match s.root with
  | .opened kind => .ok ((), { s with root := .complete kind })
  | .awaiting => .error (.invalid "the root node is incomplete")
  | .complete _ => .error (.invalid "the root node is incomplete")

def closeDirectoryEntry (name : Bytes) : EncodeM Unit := do
  string limits closeToken
  fun s => .ok ((), { s with stack := .directory (.ready (some name)) :: s.stack.tail })

def finishParent : EncodeM Unit := fun s =>
  match s.stack with
  | .directory (.childOpen name) :: _ => closeDirectoryEntry limits name s
  | .directory (.ready _) :: _ => .error (.invalid "completed node has no parent entry")
  | .regular _ _ :: _ => .error (.invalid "node is nested under a regular file")
  | [] => completeRoot s

def finishAtomic : EncodeM Unit := do
  string limits closeToken
  finishParent limits

def OpenNode.kind : OpenNode → RootKind
  | .directory _ => .directory
  | .regular _ _ => .regular

def popNode : EncodeM RootKind := fun s =>
  match s.stack with
  | [] => .error (.invalid "node end without a node")
  | node :: rest => .ok (node.kind, { s with stack := rest })

def finishNode (kind : RootKind) : EncodeM Unit := do
  let actual ← popNode
  ensure (actual = kind) (.invalid "node end does not match the open node")
  string limits closeToken
  finishParent limits

def countFile : EncodeM Unit := fun s =>
  .ok ((), { s with files := saturatingAdd s.files 1 })

def countSymlink : EncodeM Unit := fun s =>
  .ok ((), { s with symlinks := saturatingAdd s.symlinks 1 })

def endFile : EncodeM Unit := do
  let (remaining, size) ← openFile "file end outside a regular node"
  ensure (remaining = 0) (.invalid "file body is smaller than its declared size")
  pad limits size
  finishNode limits .regular
  countFile

def checkSymlinkTarget (target : Bytes) : EncodeM Unit :=
  match validateSymlinkTarget target with
  | .error message => fail (.nonCanonical message)
  | .ok _ => pure ()

def symlink (target : Bytes) : EncodeM Unit := do
  ensure (target.length ≤ limits.maxSymlinkTargetBytes.toNat)
    (.limitExceeded "symlink target length" limits.maxSymlinkTargetBytes.toNat target.length)
  checkSymlinkTarget target
  beginNode limits .symlink
  string limits openToken
  string limits typeToken
  string limits symlinkToken
  string limits targetToken
  string limits target
  finishAtomic limits
  countSymlink

def endDirectory : EncodeM Unit := fun s =>
  match s.stack with
  | .directory (.ready _) :: _ => finishNode limits .directory s
  | .directory (.childOpen _) :: _ =>
    .error (.invalid "directory end is outside a directory or has an open child")
  | .regular _ _ :: _ =>
    .error (.invalid "directory end is outside a directory or has an open child")
  | [] => .error (.invalid "directory end is outside a directory or has an open child")

def dispatch : Event → EncodeM Unit
  | .beginDirectory => beginDirectory limits
  | .entry name => entry limits name
  | .beginFile executable size => beginFile limits executable size
  | .fileChunk chunk => fileChunk limits chunk
  | .endFile => endFile limits
  | .symlink target => symlink limits target
  | .endDirectory => endDirectory limits

def push (event : Event) : EncodeM Unit := do
  bumpWork limits
  dispatch limits event

def pushAll : List Event → EncodeM Unit
  | [] => pure ()
  | event :: events => do
    push limits event
    pushAll events

def Encoder.empty : Encoder where
  writer := []
  digest := []
  rawSize := 0
  root := .awaiting
  stack := []
  entries := 0
  files := 0
  symlinks := 0
  work := 0

def finish (sha256 : Bytes → δ) (s : Encoder) :
    Except EncodeError (Bytes × EncodeSummary δ) :=
  match s.root with
  | .complete root =>
    .ok (s.writer, { version := encoderVersion, root := root, rawSize := s.rawSize,
                     rawSha256 := sha256 s.digest, entries := s.entries, files := s.files,
                     symlinks := s.symlinks })
  | .awaiting => .error (.invalid "the root node is incomplete")
  | .opened _ => .error (.invalid "the root node is incomplete")

def encodeEvents (sha256 : Bytes → δ) (events : List Event) :
    Except EncodeError (Bytes × EncodeSummary δ) :=
  match (do string limits magic; pushAll limits events : EncodeM Unit) Encoder.empty with
  | .error e => .error e
  | .ok (_, s) => finish sha256 s

end NarEncoder
