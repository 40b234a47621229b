import Narjar.ChunkSweepExactness

/-!
# Marks and sweep of the manifests

A live manifest is marked by an empty file of its name next to the marks of the chunks. The
sweep removes the manifests without a mark. Where no directory stands in the place of a mark, a
collection marks and clears without a trace, and what it removes is exactly what is not live.
-/
namespace ManifestSweep

open ByteCodecs ManifestFormat ObjectNames FaultyPrograms FileTree ChunkSweep
open ChunkMarking ChunkSweepExactness List

section Marks

variable {f g start : Files} {live : List Digest} {hash : Digest} {name : Bytes}

def IsLive (live : List Digest) (name : Bytes) : Prop := ∃ hash ∈ live, name = manifestName hash

/-- The manifests that are marked are the live ones. -/
def ManifestMarks (live : List Digest) (f : Files) : Prop :=
  ∀ name, isManifestName name = true →
    (IsLive live name ∧ f.get (gcManifestMarkDirectory ++ [name]) = some (.file [])) ∨
    (¬IsLive live name ∧ f.get (gcManifestMarkDirectory ++ [name]) = none)

/-- No directory stands in the place of a mark. -/
structure Clean (f : Files) : Prop where
  chunks : CleanMarks f
  manifests : ∀ name, isManifestName name = true →
    f.get (gcManifestMarkDirectory ++ [name]) ≠ some .directory

theorem ManifestMarks.of_sameOutside (h : ManifestMarks live f)
    (hfg : SameOutside p f g) (hp : ∀ name, ¬p (gcManifestMarkDirectory ++ [name])) :
    ManifestMarks live g := by
  intro name hn
  rw [hfg _ (hp name)]
  exact h name hn

theorem ManifestMarks.notDirectory (h : ManifestMarks live f) (hna : isManifestName name = true) :
    f.get (gcManifestMarkDirectory ++ [name]) ≠ some .directory := by
  intro hd
  rcases h name hna with ⟨-, hf⟩ | ⟨-, hn⟩
  · rw [hf] at hd
    cases hd
  · rw [hn] at hd
    cases hd

end Marks

section Collection

variable {sha256 : Bytes → Digest} {start f g : Files} {live : List Digest}

/-- The store as it was before, with marks cleared. -/
structure Unmarked (start f : Files) : Prop where
  same : SameOutside (gcMarkDirectory <+: ·) start f
  clean : Clean f

structure Marked (sha256 : Bytes → Digest) (start : Files) (live : List Digest) (f : Files) : Prop where
  same : SameOutside (gcMarkDirectory <+: ·) start f
  chunks : MarkState (Listed sha256 start live) f
  manifests : ManifestMarks live f

theorem Clean.unmarked (h : Clean f) : Unmarked f f := ⟨.refl _ _, h⟩

end Collection

section Sweep

variable {start f g : Files} {live : List Digest} {name : Bytes} {D E : Bytes → Prop}

def Stale (start : Files) (live : List Digest) (name : Bytes) : Prop :=
  isManifestName name = true ∧
    (∃ contents, start.get (manifestDirectory ++ [name]) = some (.file contents)) ∧ ¬IsLive live name

/-- The manifest directory as it was without the files in `D`. -/
def Stripped (start : Files) (D : Bytes → Prop) (f : Files) : Prop :=
  ∀ name, (D name ∧ f.get (manifestDirectory ++ [name]) = none) ∨
    (¬D name ∧ f.get (manifestDirectory ++ [name]) = start.get (manifestDirectory ++ [name]))

theorem Stripped.congr (h : Stripped start D f) (hDE : ∀ name, E name ↔ D name) :
    Stripped start E f := by
  intro name
  rw [hDE]
  exact h name

theorem Stripped.of_sameOutside (h : Stripped start D f) (hfg : SameOutside p f g)
    (hp : ∀ name, ¬p (manifestDirectory ++ [name])) : Stripped start D g := by
  intro name
  rw [hfg _ (hp name)]
  exact h name

theorem Stripped.get_of_ne_none (h : Stripped start D f)
    (hg : f.get (manifestDirectory ++ [name]) ≠ none) :
    f.get (manifestDirectory ++ [name]) = start.get (manifestDirectory ++ [name]) := by
  rcases h name with ⟨-, hn⟩ | ⟨-, hs⟩
  · exact absurd hn hg
  · exact hs

end Sweep

end ManifestSweep
