import Mathlib.Data.Fintype.Card
import Mathlib.Data.Set.Finite.Basic
import Mathlib.Order.Bounds.Defs
import Mathlib.Order.WellFounded
import Mathlib.Tactic.Common

/-!
# Layers of a dependency relation

Items are settled in rounds: a round settles what depends only on items settled in earlier
rounds. The round that settles an item is the length of its longest chain of dependencies, and
a finite set of items that is not settled after enough rounds has a cycle.
-/
namespace DependencyLayers

variable {V : Type} {dep : V → V → Prop} {v u : V} {n m : ℕ}

/-- A chain of dependencies that starts at an item, by its length. -/
inductive Chain (dep : V → V → Prop) : ℕ → V → Prop
  | refl (v : V) : Chain dep 0 v
  | step {n : ℕ} {v u : V} : dep v u → Chain dep n u → Chain dep (n + 1) v

def Acyclic (dep : V → V → Prop) : Prop := ∀ v, ¬Relation.TransGen dep v v

def settled (dep : V → V → Prop) : ℕ → Set V
  | 0 => ∅
  | n + 1 => {v | ∀ u, dep v u → u ∈ settled dep n}

def layer (dep : V → V → Prop) (n : ℕ) : Set V := settled dep (n + 1) \ settled dep n

@[simp] theorem not_mem_settled_zero : v ∉ settled dep 0 := id

@[simp] theorem mem_settled_succ : v ∈ settled dep (n + 1) ↔ ∀ u, dep v u → u ∈ settled dep n :=
  Iff.rfl

theorem Chain.shorten (h : Chain dep n v) (hm : m ≤ n) : Chain dep m v := by
  induction h generalizing m with
  | refl v =>
    rw [Nat.le_zero.1 hm]
    exact .refl v
  | step hd _ ih =>
    cases m with
    | zero => exact .refl _
    | succ m => exact .step hd (ih (Nat.le_of_succ_le_succ hm))

theorem mem_settled_iff : v ∈ settled dep n ↔ ∀ m, Chain dep m v → m < n := by
  induction n generalizing v with
  | zero =>
    refine iff_of_false not_mem_settled_zero fun h => ?_
    exact absurd (h 0 (.refl v)) (Nat.lt_irrefl 0)
  | succ n ih =>
    rw [mem_settled_succ]
    constructor
    · intro h m hc
      cases hc with
      | refl => exact Nat.succ_pos n
      | step hd hr => exact Nat.succ_lt_succ (ih.1 (h _ hd) _ hr)
    · intro h u hd
      refine ih.2 fun m hc => ?_
      exact Nat.lt_of_succ_lt_succ (h _ (.step hd hc))

theorem settled_mono (h : n ≤ m) : settled dep n ⊆ settled dep m :=
  fun _ hv => mem_settled_iff.2 fun k hc => (mem_settled_iff.1 hv k hc).trans_le h

/-- The round that settles an item is the length of its longest chain. -/
theorem mem_layer_iff : v ∈ layer dep n ↔ IsGreatest {m | Chain dep m v} n := by
  rw [layer, Set.mem_sdiff]
  constructor
  · intro h
    obtain ⟨hs, ho⟩ := h
    have hl : ∃ m, Chain dep m v ∧ n ≤ m := by
      by_contra hn
      push Not at hn
      exact ho (mem_settled_iff.2 hn)
    obtain ⟨m, hc, hm⟩ := hl
    refine ⟨hc.shorten hm, fun k hk => ?_⟩
    exact Nat.le_of_lt_succ (mem_settled_iff.1 hs k hk)
  · intro h
    refine ⟨mem_settled_iff.2 fun m hc => Nat.lt_succ_of_le (h.2 hc), fun hs => ?_⟩
    exact absurd (mem_settled_iff.1 hs n h.1) (Nat.lt_irrefl n)

theorem layer_lt (hv : v ∈ layer dep n) (hu : u ∈ layer dep m) (hd : dep v u) : m < n := by
  have hc : Chain dep (m + 1) v := .step hd (mem_layer_iff.1 hu).1
  exact (mem_layer_iff.1 hv).2 hc

theorem exists_longer_chain (h : Relation.TransGen dep v u) (hu : Chain dep n u) :
    ∃ m, n < m ∧ Chain dep m v := by
  induction h using Relation.TransGen.head_induction_on with
  | single hd => exact ⟨n + 1, Nat.lt_succ_self n, .step hd hu⟩
  | head hd _ ih =>
    obtain ⟨m, hm, hc⟩ := ih
    exact ⟨m + 1, hm.trans (Nat.lt_succ_self m), .step hd hc⟩

theorem not_transGen_of_settled (h : v ∈ settled dep n) : ¬Relation.TransGen dep v v := by
  intro hy
  have hh : ∀ k, ∃ m, k ≤ m ∧ Chain dep m v := by
    intro k
    induction k with
    | zero => exact ⟨0, Nat.le_refl 0, .refl v⟩
    | succ k ih =>
      obtain ⟨m, hm, hc⟩ := ih
      obtain ⟨m', hm', hc'⟩ := exists_longer_chain hy hc
      exact ⟨m', Nat.succ_le_of_lt (hm.trans_lt hm'), hc'⟩
  obtain ⟨m, hm, hc⟩ := hh n
  exact absurd (mem_settled_iff.1 h m hc) (Nat.not_lt_of_le hm)

/-- If a round settles nothing new although items are left, there is a cycle among them. -/
theorem not_acyclic_of_stalled {S : Set V} (hf : S.Finite)
    (closed : ∀ v ∈ S, ∀ u, dep v u → u ∈ S) (hv : v ∈ S) (ho : v ∉ settled dep n)
    (stalled : ∀ w ∈ S, w ∉ layer dep n) : ¬Acyclic dep := by
  intro ha
  -- Among finitely many open items of an acyclic relation one depends on settled items only.
  let R : Set V := {w | w ∈ S ∧ w ∉ settled dep n}
  have : Finite R := (hf.subset fun w hw => hw.1).to_subtype
  let below : R → R → Prop := fun x y => Relation.TransGen dep y.1 x.1
  have : IsTrans R below := ⟨fun _ _ _ hxy hyz => hyz.trans hxy⟩
  have : Std.Irrefl below := ⟨fun x => ha x.1⟩
  have hwf := Finite.wellFounded_of_trans_of_irrefl below
  obtain ⟨w, -, hm⟩ := hwf.has_min Set.univ ⟨⟨v, hv, ho⟩, trivial⟩
  refine stalled w.1 w.2.1 ⟨fun u hd => ?_, w.2.2⟩
  by_contra hu
  exact hm ⟨u, closed w.1 w.2.1 u hd, hu⟩ trivial (.single hd)

section Links

variable [DecidableEq V] {links : List (V × V)} {wave : List V}

/-- How many of the links of an item lead to an item outside the set. -/
noncomputable def openLinks (links : List (V × V)) (D : Set V) (v : V) : ℕ := by
  classical exact links.countP fun l => l.1 = v ∧ l.2 ∉ D

/-- The items that wait for one of the items of a wave, once for each link. -/
def waiting (links : List (V × V)) (wave : List V) : List V :=
  wave.flatMap fun u => (links.filter fun l => l.2 = u).map Prod.fst

theorem openLinks_empty : openLinks links ∅ v = links.countP fun l => l.1 = v := by
  simp [openLinks]

theorem openLinks_eq_zero : openLinks links D v = 0 ↔ ∀ u, (v, u) ∈ links → u ∈ D := by
  rw [openLinks, List.countP_eq_zero]
  constructor
  · intro h u hi
    have := h (v, u) hi
    simpa using this
  · intro h l hl
    simp only [decide_eq_true_eq, not_and, not_not]
    intro hv
    subst hv
    exact h l.2 hl

theorem countP_split {α : Type} {l : List α} {p q r : α → Prop} [DecidablePred p] [DecidablePred q]
    [DecidablePred r] (hc : ∀ a ∈ l, p a ↔ q a ∨ r a) (he : ∀ a ∈ l, q a → ¬r a) :
    (l.countP fun a => p a) = (l.countP fun a => q a) + l.countP fun a => r a := by
  induction l with
  | nil => rfl
  | cons a l ih =>
    have hs := ih (fun b hb => hc b (List.mem_cons_of_mem a hb))
      fun b hb => he b (List.mem_cons_of_mem a hb)
    have ha := hc a List.mem_cons_self
    have hn := he a List.mem_cons_self
    simp only [List.countP_cons, hs, decide_eq_true_eq]
    by_cases hq : q a
    · simp only [ha, hq, hn hq, true_or, if_true, if_false]
      omega
    · by_cases hr : r a
      · simp only [ha, hq, hr, or_true, if_true, if_false]
        omega
      · simp only [ha, hq, hr, or_self, if_false]
        omega

theorem count_waiting (hw : wave.Nodup) :
    (waiting links wave).count v = links.countP fun l => l.1 = v ∧ l.2 ∈ wave := by
  induction wave with
  | nil => simp [waiting]
  | cons u wave ih =>
    obtain ⟨hu, hw⟩ := List.nodup_cons.1 hw
    have hh : ((links.filter fun l => l.2 = u).map Prod.fst).count v =
        links.countP fun l => l.1 = v ∧ l.2 = u := by
      rw [List.count, List.countP_map, List.countP_filter]
      exact List.countP_congr fun l _ => by simp
    have hc : waiting links (u :: wave) =
        (links.filter fun l => l.2 = u).map Prod.fst ++ waiting links wave := List.flatMap_cons
    rw [hc, List.count_append, hh, ih hw]
    refine (countP_split (fun l _ => ?_) fun l _ hl hl' => ?_).symm
    · rw [List.mem_cons, and_or_left]
    · exact hu (hl.2 ▸ hl'.2)

theorem openLinks_add_count {D D' : Set V} (hw : wave.Nodup)
    (ho : ∀ l ∈ links, l.2 ∉ D ↔ l.2 ∈ wave ∨ l.2 ∉ D') (hs : ∀ u ∈ wave, u ∈ D') :
    openLinks links D v = (waiting links wave).count v + openLinks links D' v := by
  classical
  rw [count_waiting hw, openLinks, openLinks]
  refine countP_split (fun l hl => ?_) fun l _ hl hl' => ?_
  · rw [ho l hl, and_or_left]
  · exact hl'.2 (hs _ hl.2)

end Links

end DependencyLayers
