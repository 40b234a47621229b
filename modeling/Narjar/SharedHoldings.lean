import Mathlib.Algebra.BigOperators.Group.Finset.Piecewise
import Mathlib.Algebra.Order.BigOperators.Group.Finset
import Mathlib.Data.Fintype.Basic
import Mathlib.Tactic.Ring

/-!
# Items that share holdings

Every item has a weight of its own and uses some holdings, which other items may use too. A
holding weighs once however many items use it, and it is freed with the last of them.
-/
namespace SharedHoldings

open Finset Finset

variable {ι κ : Type} [DecidableEq κ] (uses : ι → Finset κ) (own : ι → ℕ) (size : κ → ℕ)

def used (items : Finset ι) : Finset κ := items.biUnion uses

/-- The weight of some items, with each of their holdings once. -/
def weight (items : Finset ι) : ℕ := ∑ i ∈ items, own i + ∑ k ∈ used uses items, size k

variable {uses own size}

theorem mem_used : k ∈ used uses items ↔ ∃ i ∈ items, k ∈ uses i :=
  mem_biUnion

theorem used_mono (h : items ⊆ more) : used uses items ⊆ used uses more :=
  biUnion_subset_biUnion_of_subset_left _ h

variable [Fintype ι] [DecidableEq ι]

variable (uses own size) in
/-- What goes with the items: their own weights, and the holdings that nothing else uses. -/
def freed (gone : Finset ι) : ℕ :=
  ∑ i ∈ gone, own i + ∑ k ∈ used uses gone \ used uses goneᶜ, size k

theorem freed_empty : freed uses own size ∅ = 0 := by
  simp [freed, used]

theorem used_univ (gone : Finset ι) : used uses univ = used uses gone ∪ used uses goneᶜ := by
  rw [← union_compl gone, used, union_biUnion]
  rfl

theorem weight_compl_add_freed (gone : Finset ι) :
    weight uses own size goneᶜ + freed uses own size gone = weight uses own size univ := by
  have ho := (sum_add_sum_compl gone own).symm
  have hh : ∑ k ∈ used uses univ, size k =
      ∑ k ∈ used uses gone \ used uses goneᶜ, size k + ∑ k ∈ used uses goneᶜ, size k := by
    rw [used_univ gone, ← sdiff_union_self_eq_union, sum_union sdiff_disjoint]
  rw [weight, weight, freed, ho, hh]
  ring

theorem freed_le_weight (gone : Finset ι) :
    freed uses own size gone ≤ weight uses own size univ := by
  rw [← weight_compl_add_freed gone]
  exact Nat.le_add_left _ _

theorem freed_insert (h : i ∉ gone) :
    freed uses own size (insert i gone) = freed uses own size gone +
      (own i + ∑ k ∈ (uses i).filter fun k => k ∉ used uses (insert i gone)ᶜ, size k) := by
  have hs : used uses (insert i gone) \ used uses (insert i gone)ᶜ =
      (used uses gone \ used uses goneᶜ) ∪
        (uses i).filter fun k => k ∉ used uses (insert i gone)ᶜ := by
    ext k
    simp only [mem_sdiff, mem_union, mem_filter, mem_used, mem_insert, mem_compl]
    constructor
    · intro hk
      obtain ⟨⟨j, hj, hkj⟩, ha⟩ := hk
      by_cases hki : k ∈ uses i
      · exact .inr ⟨hki, ha⟩
      · left
        refine ⟨⟨j, hj.resolve_left (fun heq => hki (heq ▸ hkj)), hkj⟩, ?_⟩
        rintro ⟨l, hl, hkl⟩
        exact ha ⟨l, fun hm => hm.elim (fun heq => hki (heq ▸ hkl)) hl, hkl⟩
    · intro hk
      rcases hk with ⟨⟨j, hj, hkj⟩, ha⟩ | ⟨hki, ha⟩
      · refine ⟨⟨j, .inr hj, hkj⟩, ?_⟩
        rintro ⟨l, hl, hkl⟩
        exact ha ⟨l, fun hm => hl (.inr hm), hkl⟩
      · exact ⟨⟨i, .inl rfl, hki⟩, ha⟩
  have hd : Disjoint (used uses gone \ used uses goneᶜ)
      ((uses i).filter fun k => k ∉ used uses (insert i gone)ᶜ) := by
    rw [disjoint_left]
    intro k hk hki
    have hm := mem_used.2 ⟨i, mem_compl.2 h, (mem_filter.1 hki).1⟩
    exact (mem_sdiff.1 hk).2 hm
  rw [freed, freed, hs, sum_union hd, sum_insert h]
  ring

theorem freed_mono (h : gone ⊆ more) :
    freed uses own size gone ≤ freed uses own size more := by
  have hg : _ = weight uses own size univ := weight_compl_add_freed gone
  have hm : _ = weight uses own size univ := weight_compl_add_freed more
  have hw : weight uses own size moreᶜ ≤ weight uses own size goneᶜ := by
    have hc := compl_subset_compl.2 h
    exact Nat.add_le_add (sum_le_sum_of_subset hc) (sum_le_sum_of_subset (used_mono hc))
  omega

/-- The weight of some items is what their removal frees, unless a holding that has a weight is
also used by another item. -/
theorem weight_le_freed_iff (items : Finset ι) :
    weight uses own size items ≤ freed uses own size items ↔
      ∀ k ∈ used uses items, k ∈ used uses itemsᶜ → size k = 0 := by
  have hs : ∑ k ∈ used uses items, size k = ∑ k ∈ used uses items \ used uses itemsᶜ, size k +
        ∑ k ∈ used uses items ∩ used uses itemsᶜ, size k := by
    rw [add_comm, sum_inter_add_sum_sdiff]
  rw [weight, freed, hs, Nat.add_le_add_iff_left]
  constructor
  · intro hle k hk ho
    have hz : ∑ k ∈ used uses items ∩ used uses itemsᶜ, size k = 0 := by omega
    exact sum_eq_zero_iff.1 hz k (mem_inter.2 ⟨hk, ho⟩)
  · intro h
    have hz : ∑ k ∈ used uses items ∩ used uses itemsᶜ, size k = 0 := by
      apply sum_eq_zero
      intro k hk
      exact h k (mem_inter.1 hk).1 (mem_inter.1 hk).2
    omega

end SharedHoldings
