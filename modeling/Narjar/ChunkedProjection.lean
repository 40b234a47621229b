import Narjar.ChunkedScan

/-!
# The projection of a chunked collection

Before anything is deleted, the pass projects the bytes that a selection leaves. The sweep acts
on the directories instead. Both keep the same files: what the retained manifests list, the
retained manifests and outputs, and every file whose name is none of the collector's.
-/
namespace ChunkedProjection

open ByteCodecs ManifestFormat FaultyPrograms FileTree ChunkSweep
open ChunkMarking ManifestSweep ChunkedCollection ChunkMeasures ChunkedScan List

section Values

variable {κ : Type} [DecidableEq κ] {pairs : List (κ × ℕ)}

end Values

section Places

def manifestsAt (live : List Digest) : Set Path := {path | ∃ hash ∈ live, path = manifestPath hash}

def outputsAt (names : List Bytes) : Set Path := {path | ∃ name ∈ names, path = outputPath name}

def narinfosAt (names : List Bytes) : Set Path := {path | ∃ name ∈ names, path = [name]}

theorem outputPath_injective (h : outputPath name = outputPath other) :
    name = other := singleton_inj.1 (append_cancel_left h)

end Places

section Projection

variable {n a b : ℕ}

/-- The candidates are files of the store, with these sizes. -/
structure Stored (f : Files) (entries : Fin n → ChunkedEntry) (manifests : Fin a → ChunkManifestFile)
    (outputs : Fin b → Orphan) : Prop where
  holds : ∀ i, Holds f (entries i)
  distinct : ∀ i j, (entries i).narinfoName = (entries j).narinfoName → i = j
  isManifest : ∀ i, IsManifest f (manifests i)
  isOutput : ∀ i, FileAt f (outputPath (outputs i).name) (outputs i).bytes

def liveNarinfos (entries : Fin n → ChunkedEntry) (selected : ChunkedSelection n a b) : List Bytes :=
  (retainedEntries selected).map fun i => (entries i).narinfoName

theorem listedFiles_congr (h : ∀ hash, hash ∈ live ↔ hash ∈ other) :
    listedFiles sha256 f live = listedFiles sha256 f other := by
  simp only [listedFiles, Listed, h]

end Projection

end ChunkedProjection
