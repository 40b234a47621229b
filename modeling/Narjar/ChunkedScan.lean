import Narjar.ChunkMeasures

/-!
# What the scan of a chunked store finds

The entries are the narinfos of the root, each with the sizes of its files, and the orphans are
the manifests and outputs that no entry has. Everything else in the directories is preserved.
-/
namespace ChunkedScan

open ByteCodecs ManifestFormat ObjectNames ChunkIngest FaultyPrograms FileTree ChunkSweep
open ChunkMarking ChunkedCollection ChunkMeasures TextFields

def FileAt (f : Files) (path : Path) (bytes : ℕ) : Prop :=
  ∃ contents, f.get path = some (.file contents) ∧ contents.length = bytes

theorem FileAt.bytesAt (h : FileAt f path bytes) :
    f.bytesAt List.length path = bytes := by
  obtain ⟨contents, hf, rfl⟩ := h
  exact Tree.bytesAt_file hf

def manifestPath (hash : Digest) : Path := manifestDirectory ++ [manifestName hash]

def outputPath (name : Bytes) : Path := narDirectory ++ [name]

/-- The entry has its files, with these sizes. -/
structure Holds (f : Files) (entry : ChunkedEntry) : Prop where
  named : classify entry.narinfoName = some (some entry.store)
  narinfo : FileAt f [entry.narinfoName] entry.narinfoBytes
  manifest : FileAt f (manifestPath entry.rawHash) entry.manifestBytes
  output : ∀ name ∈ entry.outputName, isOutputName name = true ∧
    FileAt f (outputPath name) entry.outputBytes

/-- The entries are the narinfos of the store. -/
structure Scanned (f : Files) (entries : List ChunkedEntry) : Prop where
  holds : ∀ entry ∈ entries, Holds f entry
  distinct : (entries.map fun entry => entry.narinfoName).Nodup
  complete : ∀ name, (classify name).isSome = true → f.get [name] ≠ none →
    name ∈ entries.map fun entry => entry.narinfoName

section Entries

end Entries

section Orphans

theorem isManifestName_iff : isManifestName name = true ↔ ∃ hash, name = manifestName hash := by
  rw [isManifestName, Bool.and_eq_true, List.isSuffixOf_iff_suffix, Option.isSome_iff_exists]
  constructor
  · intro h
    obtain ⟨⟨front, rfl⟩, hash, hh⟩ := h
    rw [List.length_append, Nat.add_sub_cancel, List.take_left] at hh
    exact ⟨hash, congrArg (· ++ manifestSuffix) (encodeNix32_of_decodeSha256 hh).symm⟩
  · intro h
    obtain ⟨hash, rfl⟩ := h
    refine ⟨⟨_, rfl⟩, hash, ?_⟩
    rw [manifestName, List.length_append, Nat.add_sub_cancel, List.take_left]
    exact decodeSha256_encodeNix32 hash

structure IsManifest (f : Files) (manifest : ChunkManifestFile) : Prop where
  named : manifest.name = manifestName manifest.hash
  file : FileAt f (manifestPath manifest.hash) manifest.bytes

/-- What is left of the directories besides the entries. -/
structure OrphansOf (f : Files) (entries : List ChunkedEntry) (orphans : ChunkedOrphans) : Prop where
  manifests : ∀ manifest ∈ orphans.manifests, IsManifest f manifest ∧
    manifest.hash ∉ entries.map fun entry => entry.rawHash
  manifestsDistinct : (orphans.manifests.map fun manifest => manifest.name).Nodup
  manifestsComplete : ∀ hash contents, f.get (manifestPath hash) = some (.file contents) →
    (hash ∈ entries.map fun entry => entry.rawHash) ∨
      hash ∈ orphans.manifests.map fun manifest => manifest.hash
  outputs : ∀ output ∈ orphans.outputs, FileAt f (outputPath output.name) output.bytes ∧
    isOutputName output.name = true ∧
      output.name ∉ entries.filterMap fun entry => entry.outputName
  outputsDistinct : (orphans.outputs.map fun output => output.name).Nodup
  outputsComplete : ∀ name contents, isOutputName name = true →
    f.get (outputPath name) = some (.file contents) →
    (name ∈ entries.filterMap fun entry => entry.outputName) ∨
      name ∈ orphans.outputs.map fun output => output.name
  preservedChunks : orphans.preservedChunkBytes = weight f (shardFiles fun name => (!isChunkName name) = true)
  preserved : orphans.preservedBytes = orphans.preservedChunkBytes +
    weight f (Tree.within manifestDirectory fun name => (!isManifestName name) = true) +
    weight f (Tree.within narDirectory fun name => (!isOutputName name) = true)

end Orphans

end ChunkedScan
