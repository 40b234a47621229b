import Mathlib.Tactic.DeriveFintype
import Narjar.ChunkSweep
import Narjar.FlatCollection

/-!
# Collection of a chunked store

A publication of a chunked store has a narinfo in the root, a manifest, the chunks the manifest
lists and, when it is compressed, an output in the NAR directory. A pass measures the store,
projects what a selection leaves, and deletes the selection with a mark and sweep. Sizes are
lengths of files and their sums are checked as in the source. Instants of files do not change
and are given by `modified`.
-/
namespace ChunkedCollection

open ByteCodecs NarFormat ManifestFormat ObjectNames ChunkIngest FaultyPrograms ChunkSweep
open CollectionCoordinator (ProtectedObject)
open FlatCollection (RetentionPolicy CollectionAccess AccessKey text)

-- The tests of membership below compare indices, names and hashes by these.
local instance lawfulIndex (n : ℕ) : LawfulBEq (Fin n) := inferInstance

local instance lawfulName : LawfulBEq Bytes := inferInstance

local instance lawfulHash : LawfulBEq Digest := inferInstance

def addBytes {σ ε : Type} (overflow : ε) (total bytes : ℕ) : Faulty σ ε ℕ :=
  match checkedAdd total bytes with
  | some sum => pure sum
  | none => stop overflow

def addRegularFile (overflow : String) (directory : Path) (total : ℕ) (name : Bytes) :
    Action ℕ := do
  if ← entryIsRegularAt (directory ++ [name]) then do
    let contents ← openRegularAt (directory ++ [name])
    addBytes (.io (invalidData overflow)) total contents.length
  else pure total

def sumRegularFileBytesMatching (directory : Path) (includes : Bytes → Bool) : Action ℕ := do
  let names ← readDirNames directory
  foldEach (addRegularFile "file byte count overflow" directory) 0 (names.filter includes)

structure ChunkPhysicalBytes where
  chunks : ℕ
  manifests : ℕ
  deriving DecidableEq, Repr

def addShard (chunkFilter : Bytes → Bool) (total : ℕ) (shard : Bytes) : Action ℕ := do
  openDirectoryAt (chunkDirectory ++ [shard])
  let bytes ← sumRegularFileBytesMatching (chunkDirectory ++ [shard]) chunkFilter
  addBytes (.io (invalidData "chunk byte count overflow")) total bytes

def physicalBytesMatching (manifestFilter chunkFilter : Bytes → Bool) :
    Action ChunkPhysicalBytes := do
  let manifests ← sumRegularFileBytesMatching manifestDirectory manifestFilter
  let names ← readDirNames chunkDirectory
  let chunks ← foldEach (addShard chunkFilter) 0 (names.filter isChunkShardName)
  pure ⟨chunks, manifests⟩

def preservedBytes : Action ChunkPhysicalBytes :=
  physicalBytesMatching (fun name => !isManifestName name) fun name => !isChunkName name

structure ChunkManifestFile where
  name : Bytes
  hash : Digest
  bytes : ℕ
  modified : ℕ
  deriving DecidableEq

section Reachable

variable (sha256 : Bytes → Digest)

def validateManifest (hash : Digest) : Action (Option NarIdentity) := do
  match ← openManifest hash with
  | none => pure none
  | some file => do
    let reader ← readManifest (ManifestReader.new file maxChunkManifestBytes)
    readManifest (reader.finishRemaining sha256)
    pure (some reader.manifest.identity)

end Reachable

inductive StorageError where
  /-- An error of the filesystem or of the chunk store. -/
  | io (error : ChunkStoreError)
  | invalid (message : String)
  deriving DecidableEq

abbrev Pass := Faulty Files StorageError

def lift {α : Type} (x : Action α) : Pass α := mapError .io x

def narDirectory : Path := [ascii ['n', 'a', 'r']]

def narinfoSuffix : Bytes := ascii ['.', 'n', 'a', 'r', 'i', 'n', 'f', 'o']

inductive PublishedNarInfoError where
  | malformed
  | untrustedSignature
  deriving DecidableEq

/-- What a narinfo claims that has been read and whose signature has been checked. -/
structure NarinfoClaims where
  storePath : Bytes
  references : List Bytes
  representation : NarRepresentation

/-- What the collection reads from the store: the trust in a narinfo and the instants. -/
structure Reading where
  sha256 : Bytes → Digest
  inspect : StoreHash → Bytes → Except PublishedNarInfoError NarinfoClaims
  modified : Path → ℕ

structure ChunkedEntry where
  lastUse : ℕ
  store : StoreHash
  storePath : Bytes
  references : List Bytes
  narinfoName : Bytes
  outputName : Option Bytes
  outputBytes : ℕ
  rawHash : Digest
  manifestBytes : ℕ
  narinfoBytes : ℕ
  modified : ℕ
  protected_ : Bool

section Scan

variable (reading : Reading)

/-- `NarinfoName::classify`: nothing for other files, no store hash for an invalid name. -/
def classify (name : Bytes) : Option (Option StoreHash) :=
  (name.dropSuffix? narinfoSuffix).map StoreHash.parse

structure TrustedGcPublication where
  store : StoreHash
  claims : NarinfoClaims
  narinfoName : Bytes
  narinfoBytes : ℕ
  modified : ℕ

def scanOutput (name : Bytes) (representation : NarRepresentation) : Pass (Option Bytes × ℕ) :=
  match representation with
  | .raw _ => pure (none, 0)
  | .compressed _ _ => do
    let outputName := representation.fileName.asStr
    let contents ← mapError
      (fun error =>
        if ioKind error = some .notFound then .invalid ("missing compressed output: " ++ text name)
        else .io error)
      (openRegularAt (narDirectory ++ [outputName]))
    if contents.length = representation.encodedSize then pure (some outputName, contents.length)
    else stop (.invalid ("compressed output size mismatch for narinfo: " ++ text name))

def scanManifest (name : Bytes) (identity : NarIdentity) : Pass ℕ := do
  match ← lift (validateManifest reading.sha256 identity.hash) with
  | none => stop (.invalid ("missing chunk manifest for narinfo: " ++ text name))
  | some found =>
    if found = identity then do
      match ← lift (openManifest identity.hash) with
      | none => stop (.invalid ("chunk manifest disappeared: " ++ text name))
      | some file => pure file.length
    else stop (.invalid ("chunk manifest identity mismatch for narinfo: " ++ text name))

def scanEntry (publication : TrustedGcPublication) : Pass ChunkedEntry := do
  let representation := publication.claims.representation
  let manifestBytes ← scanManifest reading publication.narinfoName representation.identity
  let output ← scanOutput publication.narinfoName representation
  pure
    { lastUse := publication.modified
      store := publication.store
      storePath := publication.claims.storePath
      references := publication.claims.references
      narinfoName := publication.narinfoName
      outputName := output.1
      outputBytes := output.2
      rawHash := representation.identity.hash
      manifestBytes := manifestBytes
      narinfoBytes := publication.narinfoBytes
      modified := publication.modified
      protected_ := false }

structure Orphan where
  name : Bytes
  bytes : ℕ
  modified : ℕ
  deriving DecidableEq

structure ChunkedOrphans where
  manifests : List ChunkManifestFile
  outputs : List Orphan
  preservedBytes : ℕ
  preservedChunkBytes : ℕ

def isOutputName (name : Bytes) : Bool := (NarFileName.parse name).isSome

end Scan

inductive ChunkedCandidate (n a b : ℕ) where
  | entry (index : Fin n)
  | manifest (index : Fin a)
  | output (index : Fin b)
  deriving DecidableEq, Fintype

structure ChunkedSelection (n a b : ℕ) where
  entries : List (Fin n)
  manifests : List (Fin a)
  outputs : List (Fin b)
  deriving DecidableEq

namespace ChunkedSelection

variable {n a b : ℕ}

def empty : ChunkedSelection n a b := ⟨[], [], []⟩

def includes (selected : ChunkedSelection n a b) : ChunkedCandidate n a b → ChunkedSelection n a b
  | .entry i => { selected with entries := selected.entries ++ [i] }
  | .manifest i => { selected with manifests := selected.manifests ++ [i] }
  | .output i => { selected with outputs := selected.outputs ++ [i] }

def length (selected : ChunkedSelection n a b) : ℕ :=
  selected.entries.length + selected.manifests.length + selected.outputs.length

end ChunkedSelection

section Measures

variable (sha256 : Bytes → Digest) {n a b : ℕ} (entries : Fin n → ChunkedEntry)
  (manifests : Fin a → ChunkManifestFile) (outputs : Fin b → Orphan)

section Selected

variable (selected : ChunkedSelection n a b)

def retainedEntries : List (Fin n) := (List.finRange n).filter fun i => decide (i ∉ selected.entries)

def retainedOrphanManifests : List (Fin a) :=
  (List.finRange a).filter fun i => decide (i ∉ selected.manifests)

def retainedOrphanOutputs : List (Fin b) :=
  (List.finRange b).filter fun i => decide (i ∉ selected.outputs)

def retainedChunkedManifests : List Digest :=
  (retainedEntries selected).map (fun i => (entries i).rawHash) ++
    (retainedOrphanManifests selected).map fun i => (manifests i).hash

end Selected

/-- The operands of a count of what can be deleted: from the chunks on disk the preserved and
the retained ones are subtracted, then other bytes are added. -/
structure ByteTerms where
  physical : ℕ
  preserved : ℕ
  retained : ℕ
  added : List ℕ
  deriving DecidableEq

def ByteTerms.total (terms : ByteTerms) : Option ℕ := do
  let bytes ← checkedSub terms.physical terms.preserved
  let bytes ← checkedSub bytes terms.retained
  terms.added.foldlM checkedAdd bytes

def ByteTerms.count (terms : ByteTerms) (message : String) : Pass ℕ :=
  match terms.total with
  | some bytes => pure bytes
  | none => stop (.invalid message)

def protectsOutput (access : CollectionAccess) (name : Bytes) : Bool :=
  match NarFileName.parse name, access with
  | some name, access => access.protectsNarName name
  | none, .offline durable => (durable matches .all)
  | none, .online snapshot durable =>
    (durable matches .all) || (snapshot.protection matches .all)

end Measures

section Select

variable (sha256 : Bytes → Digest) {n a b : ℕ} (entries : Fin n → ChunkedEntry)
  (manifests : Fin a → ChunkManifestFile) (outputs : Fin b → Orphan)

namespace ChunkedCandidate

def modified : ChunkedCandidate n a b → ℕ
  | entry i => (entries i).modified
  | manifest i => (manifests i).modified
  | output i => (outputs i).modified

def name : ChunkedCandidate n a b → Bytes
  | entry i => (entries i).narinfoName
  | manifest i => (manifests i).name
  | output i => (outputs i).name

def protected_ (access : CollectionAccess) : ChunkedCandidate n a b → Bool
  | entry i => (entries i).protected_
  | manifest i => access.protects (.canonicalNar (manifests i).hash)
  | output i => protectsOutput access (outputs i).name

def payloadLastUse (accessTime : AccessKey → Option ℕ) (key : Option AccessKey) (modified : ℕ) : ℕ :=
  max ((key.bind accessTime).getD modified) modified

def evictionTime (accessTime : AccessKey → Option ℕ) : ChunkedCandidate n a b → ℕ
  | entry i => (entries i).lastUse
  | manifest i => payloadLastUse accessTime (some (.payload (.raw (manifests i).hash)))
      (manifests i).modified
  | output i => payloadLastUse accessTime ((NarFileName.parse (outputs i).name).map .payload)
      (outputs i).modified

/-- By the instant of publication or by reason and last use, and then by name. -/
def Precedes (policy : RetentionPolicy) (accessTime : AccessKey → Option ℕ)
    (c d : ChunkedCandidate n a b) : Prop :=
  match policy.budget.evictionOrder with
  | .publication =>
    c.modified entries manifests outputs < d.modified entries manifests outputs ∨
      c.modified entries manifests outputs = d.modified entries manifests outputs ∧
        c.name entries manifests outputs ≤ d.name entries manifests outputs
  | .lastUse =>
    let keyOf (c : ChunkedCandidate n a b) := policy.evictionKey
      (c.modified entries manifests outputs) (c.evictionTime entries manifests outputs accessTime)
    (keyOf c).1.rank < (keyOf d).1.rank ∨
      (keyOf c).1.rank = (keyOf d).1.rank ∧
        ((keyOf c).2 < (keyOf d).2 ∨
          (keyOf c).2 = (keyOf d).2 ∧
            c.name entries manifests outputs ≤ d.name entries manifests outputs)

instance (policy : RetentionPolicy) (accessTime : AccessKey → Option ℕ) :
    DecidableRel (Precedes (n := n) entries manifests outputs policy accessTime) := fun c d => by
  unfold Precedes
  cases policy.budget.evictionOrder <;> exact inferInstanceAs (Decidable (_ ∨ _))

end ChunkedCandidate

end Select

section Apply

variable {n a b : ℕ} (entries : Fin n → ChunkedEntry) (outputs : Fin b → Orphan)
  (selected : ChunkedSelection n a b)

def selectedOutputs : List Bytes :=
  ((selected.entries.filterMap fun i => (entries i).outputName) ++
    selected.outputs.map fun i => (outputs i).name).dedup

def liveOutputs : List Bytes :=
  ((retainedEntries selected).filterMap fun i => (entries i).outputName) ++
    (retainedOrphanOutputs selected).map fun i => (outputs i).name

end Apply

end ChunkedCollection
