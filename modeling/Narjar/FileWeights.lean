import Mathlib.Algebra.BigOperators.Group.Finset.Piecewise
import Mathlib.Algebra.Order.BigOperators.Group.Finset
import Mathlib.Algebra.GroupWithZero.Nat
import Mathlib.Order.CompletePartialOrder
import Narjar.FileTree

/-!
# What the files of a tree weigh

The files at a set of paths weigh what they hold; directories and other entries weigh nothing.
Weights add up over disjoint sets and depend on nothing but the files in the set, so two trees
that agree there weigh the same.
-/
namespace FileTree.Tree

open Finset

variable {κ β : Type} [DecidableEq κ] (size : β → ℕ)

def bytesAt (t : Tree κ β) (path : List κ) : ℕ :=
  match t.get path with
  | some (.file contents) => size contents
  | _ => 0

def paths (t : Tree κ β) : Finset (List κ) := (t.entries.map Prod.fst).toFinset

open Classical in
noncomputable def weigh (t : Tree κ β) (s : Set (List κ)) : ℕ :=
  ∑ path ∈ t.paths.filter (· ∈ s), t.bytesAt size path

variable {size} {t u : Tree κ β} {r s : Set (List κ)} {path : List κ} {contents : β}

theorem bytesAt_file (h : t.get path = some (.file contents)) :
    t.bytesAt size path = size contents := by
  rw [bytesAt, h]

theorem bytesAt_of_not_file (h : ∀ contents, t.get path ≠ some (.file contents)) :
    t.bytesAt size path = 0 := by
  rw [bytesAt]
  split
  · next contents hf => exact absurd hf (h contents)
  · rfl

theorem bytesAt_congr (h : u.get path = t.get path) : u.bytesAt size path = t.bytesAt size path := by
  rw [bytesAt, bytesAt, h]

theorem mem_paths : path ∈ t.paths ↔ t.get path ≠ none := by
  rw [paths, List.mem_toFinset, ne_eq, get_eq_none, not_not]

theorem bytesAt_notMem (h : path ∉ t.paths) : t.bytesAt size path = 0 := by
  rw [mem_paths, not_not] at h
  rw [bytesAt, h]

open Classical in
theorem weigh_eq_sum (chosen : Finset (List κ)) (hc : ∀ path ∈ chosen, path ∈ s)
    (ha : ∀ path ∈ s, t.bytesAt size path ≠ 0 → path ∈ chosen) :
    t.weigh size s = ∑ path ∈ chosen, t.bytesAt size path := by
  have hin : ∀ path ∈ t.paths.filter (· ∈ s) ∪ chosen, path ∈ s := by
    intro path hp
    rw [mem_union, mem_filter] at hp
    exact hp.elim And.right (hc path)
  have hl : ∑ path ∈ t.paths.filter (· ∈ s), t.bytesAt size path =
      ∑ path ∈ t.paths.filter (· ∈ s) ∪ chosen, t.bytesAt size path := by
    refine sum_subset subset_union_left fun path hp hn => bytesAt_notMem ?_
    exact fun hl => hn (mem_filter.2 ⟨hl, hin path hp⟩)
  have hc' : ∑ path ∈ chosen, t.bytesAt size path =
      ∑ path ∈ t.paths.filter (· ∈ s) ∪ chosen, t.bytesAt size path := by
    refine sum_subset subset_union_right fun path hp hn => ?_
    by_contra hb
    exact hn (ha path (hin path hp) hb)
  rw [weigh, hl, hc']

theorem weigh_congr (hst : ∀ path ∈ s, path ∈ r ∧ u.get path = t.get path ∨ t.bytesAt size path = 0)
    (hts : ∀ path ∈ r, path ∈ s ∧ u.get path = t.get path ∨ u.bytesAt size path = 0) :
    t.weigh size s = u.weigh size r := by
  classical
  have ha : ∀ path ∈ s, path ∈ r → t.bytesAt size path = u.bytesAt size path := by
    intro path hs hr
    rcases hst path hs with ⟨-, hg⟩ | hz
    · exact (bytesAt_congr hg).symm
    · rcases hts path hr with ⟨-, hg⟩ | hz'
      · exact (bytesAt_congr hg).symm
      · rw [hz, hz']
  let shared := (t.paths ∪ u.paths).filter fun path => path ∈ s ∧ path ∈ r
  rw [weigh_eq_sum (s := s) shared, weigh_eq_sum (s := r) shared]
  · refine sum_congr rfl fun path hp => ?_
    obtain ⟨-, hs, hr⟩ := mem_filter.1 hp
    exact ha path hs hr
  · exact fun path hp => (mem_filter.1 hp).2.2
  · intro path hr hb
    obtain ⟨hs, -⟩ := (hts path hr).resolve_right hb
    refine mem_filter.2 ⟨mem_union_right _ ?_, hs, hr⟩
    by_contra hn
    exact hb (bytesAt_notMem hn)
  · exact fun path hp => (mem_filter.1 hp).2.1
  · intro path hs hb
    obtain ⟨hr, -⟩ := (hst path hs).resolve_right hb
    refine mem_filter.2 ⟨mem_union_left _ ?_, hs, hr⟩
    by_contra hn
    exact hb (bytesAt_notMem hn)

theorem weigh_empty : t.weigh size ∅ = 0 := by
  rw [weigh_eq_sum ∅]
  · rfl
  · exact fun path hp => absurd hp (notMem_empty path)
  · exact fun path hp => absurd hp (Set.notMem_empty path)

theorem weigh_union (h : Disjoint r s) :
    t.weigh size (r ∪ s) = t.weigh size r + t.weigh size s := by
  classical
  have hd : Disjoint (t.paths.filter (· ∈ r)) (t.paths.filter (· ∈ s)) := by
    refine disjoint_filter.2 fun path _ hr hs => ?_
    exact Set.disjoint_left.1 h hr hs
  rw [weigh, weigh, weigh, ← sum_union hd]
  refine sum_congr ?_ fun _ _ => rfl
  ext path
  simp only [mem_filter, mem_union, Set.mem_union, and_or_left]

theorem weigh_parts (hd : Disjoint r s) (hw : r ∪ s ⊆ whole)
    (hk : ∀ path ∈ r ∪ s, u.get path = t.get path)
    (hg : ∀ path ∈ whole, path ∉ r ∪ s → ∀ contents, u.get path ≠ some (.file contents)) :
    u.weigh size whole = t.weigh size r + t.weigh size s := by
  rw [← weigh_union hd]
  refine weigh_congr (fun path hp => ?_) fun path hp => ?_
  · by_cases ha : path ∈ r ∪ s
    · exact .inl ⟨ha, (hk path ha).symm⟩
    · exact .inr (bytesAt_of_not_file (hg path hp ha))
  · exact .inl ⟨hw hp, (hk path hp).symm⟩

theorem weigh_singleton : t.weigh size {path} = t.bytesAt size path := by
  rw [weigh_eq_sum {path}, sum_singleton]
  · exact fun other ho => mem_singleton.1 ho
  · exact fun other ho _ => mem_singleton.2 ho

theorem sum_weigh {ι : Type} {items : List ι} {part : ι → Set (List κ)} (ho : items.Nodup)
    (hd : ∀ i ∈ items, ∀ j ∈ items, i ≠ j → Disjoint (part i) (part j)) :
    (items.map fun i => t.weigh size (part i)).sum =
      t.weigh size {path | ∃ i ∈ items, path ∈ part i} := by
  induction items with
  | nil =>
    have he : {path : List κ | ∃ i ∈ ([] : List ι), path ∈ part i} = ∅ := by simp
    rw [he, weigh_empty]
    rfl
  | cons i items ih =>
    obtain ⟨hn, hr⟩ := List.nodup_cons.1 ho
    have hs : {path | ∃ j ∈ i :: items, path ∈ part j} =
        part i ∪ {path | ∃ j ∈ items, path ∈ part j} := by
      ext path
      simp
    have ha : Disjoint (part i) {path | ∃ j ∈ items, path ∈ part j} := by
      refine Set.disjoint_left.2 fun path hi hj => ?_
      obtain ⟨j, hm, hj⟩ := hj
      refine Set.disjoint_left.1 (hd i List.mem_cons_self j (List.mem_cons_of_mem _ hm) ?_) hi hj
      exact fun heq => hn (heq ▸ hm)
    rw [List.map_cons, List.sum_cons, hs, weigh_union ha,
      ih hr fun j hj k hk => hd j (List.mem_cons_of_mem _ hj) k (List.mem_cons_of_mem _ hk)]

def within (directory : List κ) (keep : κ → Prop) : Set (List κ) :=
  {path | ∃ name, keep name ∧ path = directory ++ [name]}

omit [DecidableEq κ] in
theorem mem_within :
    directory ++ [name] ∈ within directory keep ↔ keep name := by
  constructor
  · intro h
    obtain ⟨other, hk, heq⟩ := h
    rwa [List.singleton_inj.1 (List.append_cancel_left heq)]
  · exact fun hk => ⟨name, hk, rfl⟩

theorem sum_places {ι : Type} {keys : List ι} (place : ι → List κ) (hn : keys.Nodup)
    (hp : ∀ i j, place i = place j → i = j) :
    (keys.map fun key => t.bytesAt size (place key)).sum =
      t.weigh size {path | ∃ key ∈ keys, path = place key} := by
  have hs : ∀ key, t.bytesAt size (place key) = t.weigh size {place key} :=
    fun key => weigh_singleton.symm
  simp only [hs]
  rw [sum_weigh hn]
  · rfl
  · intro i _ j _ hne
    exact Set.disjoint_singleton.2 fun heq => hne (hp i j heq)

end FileTree.Tree
