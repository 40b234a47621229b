import Mathlib.Data.List.Chain
import Mathlib.Order.Lattice
import Narjar.ByteCodecs

/-!
# The canonical NAR grammar

File system trees, their canonical byte encoding and the resource limits shared by the
streaming decoder and encoder. Sizes and counters are natural numbers with explicit
64-bit bounds; `usize` is taken to be 64 bits wide.
-/
namespace NarFormat

open ByteCodecs

def u64Max : ℕ := 2 ^ 64 - 1

/-- `a.saturating_add(b)`: add what fits below the largest word. -/
def saturatingAdd (a b : ℕ) : ℕ := a + min b (u64Max - a)

def checkedAdd (a b : ℕ) : Option ℕ := if a + b ≤ u64Max then some (a + b) else none

theorem checkedAdd_eq_some : checkedAdd a b = some c ↔ a + b ≤ u64Max ∧ c = a + b := by
  unfold checkedAdd
  split <;> simp_all [eq_comm]

theorem saturatingAdd_add (a b c : ℕ) :
    saturatingAdd (saturatingAdd a b) c = saturatingAdd a (b + c) := by
  unfold saturatingAdd
  omega

@[simp] theorem saturatingAdd_zero (a : ℕ) : saturatingAdd a 0 = a := by
  simp [saturatingAdd]

theorem saturatingAdd_mono (a : ℕ) (h : b ≤ c) :
    saturatingAdd a b ≤ saturatingAdd a c := by
  unfold saturatingAdd
  omega

inductive RootKind where
  | directory
  | regular
  | symlink
  deriving DecidableEq, Repr

structure Limits where
  maxDepth : UInt64
  maxNameBytes : UInt64
  maxSymlinkTargetBytes : UInt64
  maxEntries : UInt64
  maxFileBytes : UInt64
  maxTotalBytes : UInt64
  maxWork : UInt64
  deriving DecidableEq, Repr

def Limits.default : Limits where
  maxDepth := 1024
  maxNameBytes := 1024 * 1024
  maxSymlinkTargetBytes := 1024 * 1024
  maxEntries := 10000000
  maxFileBytes := 64 * 1024 * 1024 * 1024
  maxTotalBytes := 128 * 1024 * 1024 * 1024
  maxWork := (1 : UInt64) <<< 34

theorem limit_le_u64Max (limit : UInt64) : limit.toNat ≤ u64Max := by
  have h := limit.toNat_lt
  unfold u64Max
  omega

def ascii (text : List Char) : Bytes := text.map fun c => UInt8.ofNat c.toNat

def magic : Bytes := ascii ['n', 'i', 'x', '-', 'a', 'r', 'c', 'h', 'i', 'v', 'e', '-', '1']
def openToken : Bytes := ascii ['(']
def closeToken : Bytes := ascii [')']
def typeToken : Bytes := ascii ['t', 'y', 'p', 'e']
def directoryToken : Bytes := ascii ['d', 'i', 'r', 'e', 'c', 't', 'o', 'r', 'y']
def regularToken : Bytes := ascii ['r', 'e', 'g', 'u', 'l', 'a', 'r']
def symlinkToken : Bytes := ascii ['s', 'y', 'm', 'l', 'i', 'n', 'k']
def executableToken : Bytes := ascii ['e', 'x', 'e', 'c', 'u', 't', 'a', 'b', 'l', 'e']
def contentsToken : Bytes := ascii ['c', 'o', 'n', 't', 'e', 'n', 't', 's']
def targetToken : Bytes := ascii ['t', 'a', 'r', 'g', 'e', 't']
def entryToken : Bytes := ascii ['e', 'n', 't', 'r', 'y']
def nameToken : Bytes := ascii ['n', 'a', 'm', 'e']
def nodeToken : Bytes := ascii ['n', 'o', 'd', 'e']

def slash : UInt8 := 47

def invalidName (name : Bytes) : Bool :=
  name.isEmpty || name == ascii ['.'] || name == ascii ['.', '.'] ||
    name.contains slash || name.contains 0

/-- The message of a refused symlink target, shared by decoder and encoder. -/
def validateSymlinkTarget (target : Bytes) : Except String Unit :=
  if target.isEmpty then .error "symlink target is empty"
  else if target.contains 0 then .error "symlink target contains NUL"
  else .ok ()

theorem validateSymlinkTarget_ok :
    validateSymlinkTarget target = .ok u ↔ target ≠ [] ∧ 0 ∉ target := by
  unfold validateSymlinkTarget
  split
  · simp_all
  · split <;> simp_all

theorem nil_lt_of_valid (h : invalidName name = false) : ([] : Bytes) < name := by
  cases name with
  | nil => simp [invalidName] at h
  | cons b bs => exact List.nil_lt_cons b bs

inductive Node where
  | regular (executable : Bool) (contents : Bytes)
  | symlink (target : Bytes)
  | directory (entries : List (Bytes × Node))

def Node.kind : Node → RootKind
  | .regular _ _ => .regular
  | .symlink _ => .symlink
  | .directory _ => .directory

def nodeHeader (typeName : Bytes) : Bytes :=
  paddedString openToken ++ paddedString typeToken ++ paddedString typeName

def executableMarker (executable : Bool) : Bytes :=
  if executable then paddedString executableToken ++ paddedString [] else []

def fileHeader (executable : Bool) (size : ℕ) : Bytes :=
  nodeHeader regularToken ++ executableMarker executable ++ paddedString contentsToken ++
    leBytes 8 size

def fileTrailer (size : ℕ) : Bytes := padding size ++ paddedString closeToken

def symlinkBytes (target : Bytes) : Bytes :=
  nodeHeader symlinkToken ++ paddedString targetToken ++ paddedString target ++
    paddedString closeToken

def entryHeader (name : Bytes) : Bytes :=
  paddedString entryToken ++ paddedString openToken ++ paddedString nameToken ++
    paddedString name ++ paddedString nodeToken

mutual
def Node.encode : Node → Bytes
  | .regular executable contents =>
    fileHeader executable contents.length ++ contents ++ fileTrailer contents.length
  | .symlink target => symlinkBytes target
  | .directory entries =>
    nodeHeader directoryToken ++ encodeEntries entries ++ paddedString closeToken
def encodeEntries : List (Bytes × Node) → Bytes
  | [] => []
  | (name, node) :: entries =>
    entryHeader name ++ node.encode ++ paddedString closeToken ++ encodeEntries entries
end

def encodeNar (node : Node) : Bytes := paddedString magic ++ node.encode

mutual
/-- Names valid and strictly increasing bytewise, symlink targets non-empty without NUL. -/
def Node.Canonical : Node → Prop
  | .regular _ _ => True
  | .symlink target => target ≠ [] ∧ 0 ∉ target
  | .directory entries => (entries.map Prod.fst).Pairwise (· < ·) ∧ CanonicalEntries entries
def CanonicalEntries : List (Bytes × Node) → Prop
  | [] => True
  | (name, node) :: entries =>
    invalidName name = false ∧ node.Canonical ∧ CanonicalEntries entries
end

mutual
/-- The limits that bound single nodes; the root is at depth zero. -/
def Node.Fits (L : Limits) (depth : ℕ) : Node → Prop
  | .regular _ contents =>
    depth ≤ L.maxDepth.toNat ∧ contents.length ≤ L.maxFileBytes.toNat
  | .symlink target =>
    depth ≤ L.maxDepth.toNat ∧ target.length ≤ L.maxSymlinkTargetBytes.toNat
  | .directory entries => depth ≤ L.maxDepth.toNat ∧ FitEntries L (depth + 1) entries
def FitEntries (L : Limits) (depth : ℕ) : List (Bytes × Node) → Prop
  | [] => True
  | (name, node) :: entries =>
    name.length ≤ L.maxNameBytes.toNat ∧ node.Fits L depth ∧ FitEntries L depth entries
end

mutual
theorem Node.fits_maxWork (work : UInt64) : ∀ (node : Node) {depth : ℕ},
    node.Fits { L with maxWork := work } depth ↔ node.Fits L depth
  | .regular _ _, _ => Iff.rfl
  | .symlink _, _ => Iff.rfl
  | .directory entries, _ => and_congr_right fun _ => fitEntries_maxWork work entries
theorem fitEntries_maxWork (work : UInt64) : ∀ (entries : List (Bytes × Node))
    {depth : ℕ}, FitEntries { L with maxWork := work } depth entries ↔ FitEntries L depth entries
  | [], _ => Iff.rfl
  | (_, node) :: entries, _ =>
    and_congr_right fun _ => and_congr (node.fits_maxWork work) (fitEntries_maxWork work entries)
end

mutual
def Node.entryCount : Node → ℕ
  | .regular _ _ => 0
  | .symlink _ => 0
  | .directory entries => countEntries entries
def countEntries : List (Bytes × Node) → ℕ
  | [] => 0
  | (_, node) :: entries => 1 + node.entryCount + countEntries entries
end

mutual
def Node.fileCount : Node → ℕ
  | .regular _ _ => 1
  | .symlink _ => 0
  | .directory entries => countFiles entries
def countFiles : List (Bytes × Node) → ℕ
  | [] => 0
  | (_, node) :: entries => node.fileCount + countFiles entries
end

mutual
def Node.symlinkCount : Node → ℕ
  | .regular _ _ => 0
  | .symlink _ => 1
  | .directory entries => countSymlinks entries
def countSymlinks : List (Bytes × Node) → ℕ
  | [] => 0
  | (_, node) :: entries => node.symlinkCount + countSymlinks entries
end

mutual
/-- Work units of the tree: one for a node, one for each entry and one for a directory's end. -/
def Node.work : Node → ℕ
  | .regular _ _ => 1
  | .symlink _ => 1
  | .directory entries => 1 + workEntries entries + 1
def workEntries : List (Bytes × Node) → ℕ
  | [] => 0
  | (_, node) :: entries => 1 + node.work + workEntries entries
end

/-- The tree stays within every limit of `L`. -/
structure WithinLimits (L : Limits) (node : Node) : Prop where
  fits : node.Fits L 0
  entries : node.entryCount ≤ L.maxEntries.toNat
  total : (encodeNar node).length ≤ L.maxTotalBytes.toNat
  work : node.work ≤ L.maxWork.toNat

/-- What a directory demands of the next entry name. -/
structure AcceptedName (L : Limits) (previous name : Bytes) : Prop where
  short : name.length ≤ L.maxNameBytes.toNat
  valid : invalidName name = false
  ordered : previous < name

/-- What an open directory demands of its remaining entries. -/
structure Siblings (L : Limits) (previous : Bytes) (depth : ℕ) (entries : List (Bytes × Node)) :
    Prop where
  ordered : (previous :: entries.map Prod.fst).IsChain (· < ·)
  canonical : CanonicalEntries entries
  fits : FitEntries L depth entries

theorem siblings_nil (L : Limits) (previous : Bytes) (depth : ℕ) : Siblings L previous depth [] :=
  ⟨by simp, trivial, trivial⟩

theorem siblings_cons :
    Siblings L previous depth ((name, node) :: entries) ↔
      AcceptedName L previous name ∧ node.Canonical ∧ node.Fits L depth ∧
        Siblings L name depth entries := by
  constructor
  · rintro ⟨ho, ⟨hv, hc, ha⟩, ⟨hs, hf, hi⟩⟩
    simp only [List.map_cons, List.isChain_cons_cons] at ho
    exact ⟨⟨hs, hv, ho.1⟩, hc, hf, ho.2, ha, hi⟩
  · rintro ⟨⟨hs, hv, ho⟩, hc, hf, hr, ha, hi⟩
    refine ⟨?_, ⟨hv, hc, ha⟩, ⟨hs, hf, hi⟩⟩
    simp only [List.map_cons, List.isChain_cons_cons]
    exact ⟨ho, hr⟩

theorem siblings_directory :
    Siblings L [] depth entries ↔
      (Node.directory entries).Canonical ∧ FitEntries L depth entries := by
  constructor
  · rintro ⟨ho, hc, hf⟩
    exact ⟨⟨(List.isChain_iff_pairwise.1 ho).of_cons, hc⟩, hf⟩
  · rintro ⟨⟨ho, hc⟩, hf⟩
    refine ⟨?_, hc, hf⟩
    cases entries with
    | nil => simp
    | cons entry entries =>
      simp only [List.map_cons, List.isChain_cons_cons]
      exact ⟨nil_lt_of_valid hc.1, List.isChain_iff_pairwise.2 ho⟩

@[simp] theorem length_closeToken : closeToken.length = 1 := rfl

mutual
/-- Every counted unit of a tree has bytes of its own in the encoding. -/
theorem Node.work_le_length : ∀ node : Node, node.work ≤ node.encode.length
  | .regular _ _ => by
    simp [Node.work, Node.encode, fileHeader, nodeHeader]
    omega
  | .symlink _ => by
    simp [Node.work, Node.encode, symlinkBytes, nodeHeader]
    omega
  | .directory entries => by
    have := workEntries_le_length entries
    simp [Node.work, Node.encode, nodeHeader]
    omega
theorem workEntries_le_length :
    ∀ entries : List (Bytes × Node), workEntries entries ≤ (encodeEntries entries).length
  | [] => by simp [workEntries]
  | (_, node) :: entries => by
    have := node.work_le_length
    have := workEntries_le_length entries
    simp [workEntries, encodeEntries, entryHeader]
    omega
end

mutual
theorem Node.counts_le_work : ∀ node : Node,
    node.entryCount ≤ node.work ∧ node.fileCount ≤ node.work ∧ node.symlinkCount ≤ node.work
  | .regular _ _ => by simp [Node.entryCount, Node.fileCount, Node.symlinkCount, Node.work]
  | .symlink _ => by simp [Node.entryCount, Node.fileCount, Node.symlinkCount, Node.work]
  | .directory entries => by
    have := counts_le_workEntries entries
    simp only [Node.entryCount, Node.fileCount, Node.symlinkCount, Node.work]
    omega
theorem counts_le_workEntries : ∀ entries : List (Bytes × Node),
    countEntries entries ≤ workEntries entries ∧ countFiles entries ≤ workEntries entries ∧
      countSymlinks entries ≤ workEntries entries
  | [] => by simp [countEntries, countFiles, countSymlinks, workEntries]
  | (_, node) :: entries => by
    have := node.counts_le_work
    have := counts_le_workEntries entries
    simp only [countEntries, countFiles, countSymlinks, workEntries]
    omega
end

/-- Saturating counters are exact on an archive within the limits. -/
theorem counts_exact {L : Limits} {node : Node}
    (h : (encodeNar node).length ≤ L.maxTotalBytes.toNat) :
    saturatingAdd 0 node.fileCount = node.fileCount ∧
      saturatingAdd 0 node.symlinkCount = node.symlinkCount ∧ node.work ≤ u64Max := by
  have hc := node.counts_le_work
  have hw := node.work_le_length
  have hm := limit_le_u64Max L.maxTotalBytes
  have he : (encodeNar node).length = (paddedString magic).length + node.encode.length :=
    List.length_append
  unfold saturatingAdd
  omega

end NarFormat
