import Narjar.FlatCollection

/-!
# The roots protect exactly what they reach

A reference names an entry by its store path or by its store hash, and so does a root. Where
the store hashes tell the entries apart, every name leads to one entry at most and the search
from the roots marks the entries that references lead to. The names that lead nowhere are
counted once each.
-/
namespace RootProtection

open ByteCodecs ObjectNames FlatCollection WorklistSearch

theorem lookup_of_unique {α β : Type} [BEq α] [LawfulBEq α] {pairs : List (α × β)} {key : α}
    {value : β} (hm : (key, value) ∈ pairs) (ho : ∀ other, (key, other) ∈ pairs → other = value) :
    pairs.lookup key = some value := by
  cases hl : pairs.lookup key with
  | none =>
    have hn := List.lookup_eq_none_iff.1 hl _ hm
    simp at hn
  | some other =>
    obtain ⟨before, after, hs, -⟩ := List.lookup_eq_some_iff.1 hl
    rw [ho other]
    rw [hs]
    exact List.mem_append_right _ List.mem_cons_self

def Matches (node : ProtectionNode) (key : Bytes) : Prop :=
  key = node.storePath ∨ key = node.store.bytes

instance (node : ProtectionNode) (key : Bytes) : Decidable (Matches node key) :=
  inferInstanceAs (Decidable (_ ∨ _))

section Names

variable {n : ℕ} {nodes : Fin n → ProtectionNode}

/-- Store paths carry their store hash and no two nodes have the same one. -/
structure Distinguished (nodes : Fin n → ProtectionNode) : Prop where
  carries : ∀ i, ∃ path : NixStorePath, path.store = (nodes i).store ∧
    path.asStr = (nodes i).storePath
  distinct : ∀ i j, (nodes i).store = (nodes j).store → i = j

def Unmatched (nodes : Fin n → ProtectionNode) (key : Bytes) : Prop :=
  ∀ i, ¬ Matches (nodes i) key

instance (nodes : Fin n → ProtectionNode) (key : Bytes) : Decidable (Unmatched nodes key) :=
  inferInstanceAs (Decidable (∀ _, _))

def RefersTo (nodes : Fin n → ProtectionNode) (i j : Fin n) : Prop :=
  ∃ key ∈ (nodes i).references, Matches (nodes j) key

def Anchored (nodes : Fin n → ProtectionNode) (roots : List Bytes) (i : Fin n) : Prop :=
  (nodes i).protected_ = true ∨ ∃ root ∈ roots, Matches (nodes i) root

theorem Distinguished.matches_unique (h : Distinguished nodes)
    (hi : Matches (nodes i) key) (hj : Matches (nodes j) key) : i = j := by
  apply h.distinct
  obtain ⟨p, hp, ha⟩ := h.carries i
  obtain ⟨q, hq, ha'⟩ := h.carries j
  rw [Matches, ← hp, ← ha] at hi
  rw [Matches, ← hq, ← ha'] at hj
  rw [← hp, ← hq]
  rcases hi with rfl | rfl
  · rcases hj with ha | hs
    · exact NixStorePath.store_eq_of_asStr_eq ha
    · exact absurd hs (NixStorePath.asStr_ne_store _ _)
  · rcases hj with ha | hs
    · exact absurd ha.symm (NixStorePath.asStr_ne_store _ _)
    · exact StoreHash.ext hs

theorem mem_keyIndex :
    (key, i) ∈ keyIndex nodes ↔ Matches (nodes i) key := by
  rw [keyIndex, List.mem_flatMap]
  constructor
  · intro hm
    obtain ⟨j, -, hj⟩ := hm
    rcases List.mem_cons.1 hj with hp | hs
    · obtain ⟨rfl, rfl⟩ := Prod.mk.inj hp
      exact .inl rfl
    · obtain ⟨rfl, rfl⟩ := Prod.mk.inj (List.mem_singleton.1 hs)
      exact .inr rfl
  · intro hn
    refine ⟨i, List.mem_finRange i, ?_⟩
    rcases hn with rfl | rfl
    · exact List.mem_cons_self
    · exact List.mem_cons_of_mem _ (List.mem_singleton_self _)

theorem find_eq_some (h : Distinguished nodes) {key : Bytes} {i : Fin n} :
    (protectionGraph nodes).find key = some i ↔ Matches (nodes i) key := by
  constructor
  · intro hf
    obtain ⟨before, after, hs, -⟩ := List.lookup_eq_some_iff.1 hf
    apply mem_keyIndex.1
    rw [hs]
    exact List.mem_append_right _ List.mem_cons_self
  · intro hm
    exact lookup_of_unique (mem_keyIndex.2 hm) fun _ ho => h.matches_unique (mem_keyIndex.1 ho) hm

theorem find_eq_none (h : Distinguished nodes) :
    (protectionGraph nodes).find key = none ↔ Unmatched nodes key := by
  rw [Option.eq_none_iff_forall_ne_some]
  exact forall_congr' fun i => not_congr (find_eq_some h)

theorem mem_protectionRoots : key ∈ protectionRoots nodes roots ↔
    key ∈ roots ∨ ∃ i, (nodes i).protected_ = true ∧ (nodes i).storePath = key := by
  simp [protectionRoots, or_comm]

end Names

section Protect

variable {n : ℕ} {nodes : Fin n → ProtectionNode} {roots : List Bytes}

theorem reached_iff (h : Distinguished nodes) :
    (protectionGraph nodes).Reached (protectionRoots nodes roots) i ↔
      ∃ start, Anchored nodes roots start ∧ Relation.ReflTransGen (RefersTo nodes) start i := by
  have he : (protectionGraph nodes).Edge = RefersTo nodes := by
    funext u v
    exact propext (exists_congr fun key => and_congr_right fun _ => find_eq_some h)
  rw [KeyGraph.Reached, he]
  constructor
  · intro ha
    obtain ⟨key, hk, start, hf, hp⟩ := ha
    have hm := (find_eq_some h).1 hf
    refine ⟨start, ?_, hp⟩
    rcases mem_protectionRoots.1 hk with ho | ⟨j, hr, rfl⟩
    · exact .inr ⟨key, ho, hm⟩
    · cases h.matches_unique (.inl rfl) hm
      exact .inl hr
  · intro hl
    obtain ⟨start, hr | ⟨root, ho, hm⟩, hp⟩ := hl
    · exact ⟨(nodes start).storePath, mem_protectionRoots.2 (.inr ⟨start, hr, rfl⟩), start,
        (find_eq_some h).2 (.inl rfl), hp⟩
    · exact ⟨root, mem_protectionRoots.2 (.inl ho), start, (find_eq_some h).2 hm, hp⟩

theorem protect_flag (h : Distinguished nodes) : (protect nodes roots).1 i = true ↔
    (protectionGraph nodes).Reached (protectionRoots nodes roots) i := by
  simp only [protect, Bool.or_eq_true, decide_eq_true_eq, KeyGraph.mem_close_visited]
  constructor
  · intro hf
    rcases hf with hp | hr
    · exact (reached_iff h).2 ⟨i, .inl hp, .refl⟩
    · exact hr
  · exact Or.inr

def reachedReferences (nodes : Fin n → ProtectionNode) (roots : List Bytes) : Finset Bytes :=
  (Finset.univ.filter fun i => (protect nodes roots).1 i = true).biUnion fun i =>
    (nodes i).references.toFinset

theorem mem_reachedReferences (h : Distinguished nodes) :
    key ∈ reachedReferences nodes roots ↔
      ∃ i, (protectionGraph nodes).Reached (protectionRoots nodes roots) i ∧
        key ∈ (protectionGraph nodes).next i := by
  simp only [reachedReferences, Finset.mem_biUnion, Finset.mem_filter, Finset.mem_univ, true_and,
    List.mem_toFinset, protect_flag h]
  rfl

theorem mem_missing (h : Distinguished nodes) :
    key ∈ ((protectionGraph nodes).close (protectionRoots nodes roots)).missing ↔
      Unmatched nodes key ∧ (key ∈ roots ∨ key ∈ reachedReferences nodes roots) := by
  rw [KeyGraph.mem_close_missing, find_eq_none h, ← mem_reachedReferences h, mem_protectionRoots]
  refine and_congr_right fun hu => ?_
  -- the path of a protected node is found
  have ha : ¬ ∃ i, (nodes i).protected_ = true ∧ (nodes i).storePath = key := by
    intro hp
    obtain ⟨i, -, rfl⟩ := hp
    exact hu i (.inl rfl)
  rw [or_iff_left ha]

/-- The search comes to an end, the nodes it marks are the ones that references lead to from the
roots and from the protected nodes, and it counts the roots and the other references it meets
that match no node. -/
theorem protect_exact (nodes : Fin n → ProtectionNode) (roots : List Bytes)
    (h : Distinguished nodes) :
    ((protectionGraph nodes).close (protectionRoots nodes roots)).pending = [] ∧
    (∀ i, (protect nodes roots).1 i = true ↔
      (nodes i).protected_ = true ∨
      ∃ start, Anchored nodes roots start ∧ Relation.ReflTransGen (RefersTo nodes) start i) ∧
    (protect nodes roots).2.missingRoots = (roots.toFinset.filter (Unmatched nodes)).card ∧
    (protect nodes roots).2.missingReferences =
      ((reachedReferences nodes roots).filter fun key => key ∉ roots ∧ Unmatched nodes key).card := by
  refine ⟨KeyGraph.close_pending _ _, fun i => ?_, ?_, ?_⟩
  · rw [protect_flag h, reached_iff h]
    constructor
    · exact Or.inr
    · intro hm
      rcases hm with hp | hl
      · exact ⟨i, .inl hp, .refl⟩
      · exact hl
  · refine congrArg Finset.card (Finset.ext fun key => ?_)
    simp only [Finset.mem_filter, mem_missing h, List.mem_toFinset]
    constructor
    · intro hk
      exact ⟨hk.2, hk.1.1⟩
    · intro hk
      exact ⟨⟨hk.2, .inl hk.1⟩, hk.1⟩
  · refine congrArg Finset.card (Finset.ext fun key => ?_)
    simp only [Finset.mem_filter, mem_missing h]
    constructor
    · intro hk
      exact ⟨hk.1.2.resolve_left hk.2, hk.2, hk.1.1⟩
    · intro hk
      exact ⟨⟨hk.2.2, .inr hk.1⟩, hk.2.1⟩

end Protect

def samplePath (digit : UInt8) (h : validNix32 (List.replicate 32 digit) 32 = true) : NixStorePath :=
  ⟨⟨List.replicate 32 digit, h⟩, [97], valid_letter⟩

def sampleNode (path : NixStorePath) (references : List Bytes) : ProtectionNode :=
  ⟨path.store, path.asStr, references, false⟩

/-- Two nodes that refer to each other, the second one also to itself and to a path that is
missing, and a third one that nothing refers to. -/
def cyclicNodes : Fin 3 → ProtectionNode
  | 0 => sampleNode (samplePath 48 valid_zeros) [List.replicate 32 49]
  | 1 => sampleNode (samplePath 49 valid_ones)
      [(samplePath 48 valid_zeros).asStr, (samplePath 49 valid_ones).asStr, [47]]
  | 2 => sampleNode (samplePath 50 rfl) [[48]]

theorem cyclicNodes_distinguished : Distinguished cyclicNodes := by
  refine ⟨fun i => ?_, by decide +kernel⟩
  match i with
  | 0 => exact ⟨samplePath 48 valid_zeros, rfl, rfl⟩
  | 1 => exact ⟨samplePath 49 valid_ones, rfl, rfl⟩
  | 2 => exact ⟨samplePath 50 rfl, rfl, rfl⟩

/-- The hash of the first node protects the two nodes of the cycle. A root that matches nothing
and the missing path are counted, the reference of the third node is not. -/
theorem cyclicNodes_protected :
    (∀ i, (protect cyclicNodes [List.replicate 32 48, List.replicate 32 51]).1 i = true ↔ i ≠ 2) ∧
    (protect cyclicNodes [List.replicate 32 48, List.replicate 32 51]).2.missingRoots = 1 ∧
    (protect cyclicNodes [List.replicate 32 48, List.replicate 32 51]).2.missingReferences = 1 := by
  obtain ⟨-, -, ho, hr⟩ := protect_exact cyclicNodes
    [List.replicate 32 48, List.replicate 32 51] cyclicNodes_distinguished
  exact ⟨by decide +kernel, ho.trans (by decide +kernel), hr.trans (by decide +kernel)⟩

end RootProtection
