import Narjar.ChunkedCollection
import Narjar.FileWeights
import Narjar.ManifestSweep

/-!
# What the counts of a chunked store return

The programs that count bytes read the store outside of the mark directory, where a collection
changes nothing before it deletes. What they return is the weight of the files they stand for.
-/
namespace ChunkMeasures

open ByteCodecs NarFormat ManifestFormat FaultyPrograms FileTree ChunkSweep
open ChunkMarking ManifestSweep ChunkedCollection List

def Counted (path : Path) : Prop := ¬gcMarkDirectory <+: path

/-- The store as it was, but for the marks. -/
def Unchanged (f g : Files) : Prop := SameOutside (gcMarkDirectory <+: ·) f g

noncomputable abbrev weight (f : Files) (s : Set Path) : ℕ := f.weigh List.length s

section Reading

variable {f : Files} {path : Path}

end Reading

section Physical

variable {f : Files}

def shardFiles (keep : Bytes → Prop) : Set Path :=
  {path | ∃ shard, isChunkShardName shard = true ∧ path ∈ Tree.within (chunkDirectory ++ [shard]) keep}

theorem mem_shardFiles :
    chunkDirectory ++ [shard, name] ∈ shardFiles keep ↔ isChunkShardName shard = true ∧ keep name := by
  constructor
  · intro h
    obtain ⟨other, hs, found, hk, heq⟩ := h
    rw [append_assoc, singleton_append] at heq
    have hp := append_cancel_left heq
    simp only [List.cons.injEq, and_true] at hp
    rw [hp.1, hp.2]
    exact ⟨hs, hk⟩
  · intro h
    exact ⟨shard, h.1, name, h.2, by simp⟩

end Physical

section Reachable

variable {sha256 : Bytes → Digest} {f : Files} {live : List Digest}

variable (sha256 f live) in
def listedFiles : Set Path :=
  {path | ∃ shard name, Listed sha256 f live shard name ∧ path = chunkDirectory ++ [shard, name]}

theorem chunk_path : chunkDirectory ++ [shard, name] = chunkDirectory ++ [shard] ++ [name] := by
  rw [append_assoc]
  rfl

theorem names_of_listed (h : Listed sha256 f live shard name) : IsChunkPlace shard name := by
  obtain ⟨hash, -, file, reader, ds, -, -, -, d, -, rfl, rfl⟩ := h
  exact ⟨isChunkShardName_shardName d.hash, isChunkName_chunkName d.hash⟩

theorem Marked.unchanged (h : Marked sha256 f live g) : Unchanged f g := h.same

end Reachable

end ChunkMeasures
