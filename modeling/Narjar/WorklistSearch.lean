import Mathlib.Algebra.BigOperators.Group.Finset.Basic
import Mathlib.Algebra.Order.BigOperators.Group.Finset
import Mathlib.Logic.Relation
import Mathlib.Tactic.Common

/-!
# Closure with a worklist

Keys wait on a stack. The top key is looked up; a node found for the first time is marked and
the keys it leads to are pushed, a key without a node is noted. The marked nodes are exactly
the ones that can be reached.
-/
namespace WorklistSearch

open Finset

variable {κ ν : Type} [DecidableEq κ] [DecidableEq ν]

/-- Keys name nodes and nodes lead to further keys. Finitely many nodes lead anywhere. -/
structure KeyGraph (κ ν : Type) where
  nodes : Finset ν
  find : κ → Option ν
  next : ν → List κ
  next_eq_nil : ∀ node, node ∉ nodes → next node = []

structure Search (κ ν : Type) where
  pending : List κ
  visited : Finset ν
  missing : Finset κ

namespace KeyGraph

def Edge (g : KeyGraph κ ν) (u v : ν) : Prop := ∃ key ∈ g.next u, g.find key = some v

def Reached (g : KeyGraph κ ν) (roots : List κ) (v : ν) : Prop :=
  ∃ key ∈ roots, ∃ u, g.find key = some u ∧ Relation.ReflTransGen g.Edge u v

def visit (g : KeyGraph κ ν) (key : κ) (s : Search κ ν) : Search κ ν :=
  match g.find key with
  | some node =>
    if node ∈ s.visited then s
    else { s with
      pending := (g.next node).reverse ++ s.pending
      visited := insert node s.visited }
  | none => { s with missing := insert key s.missing }

def drain (g : KeyGraph κ ν) : ℕ → Search κ ν → Search κ ν
  | 0, s => s
  | rounds + 1, s =>
    match s.pending with
    | [] => s
    | key :: rest => g.drain rounds (g.visit key { s with pending := rest })

/-- Every node is marked at most once, so no more keys than these are ever pushed. -/
def rounds (g : KeyGraph κ ν) (roots : List κ) : ℕ :=
  roots.length + ∑ node ∈ g.nodes, (g.next node).length

def close (g : KeyGraph κ ν) (roots : List κ) : Search κ ν :=
  g.drain (g.rounds roots) ⟨roots, ∅, ∅⟩

def work (g : KeyGraph κ ν) (s : Search κ ν) : ℕ :=
  s.pending.length + ∑ node ∈ g.nodes \ s.visited, (g.next node).length

variable {g : KeyGraph κ ν} {roots : List κ} {s : Search κ ν} {key : κ} {node : ν}

omit [DecidableEq κ] in
theorem unmarked_insert_le (he : node ∉ s.visited) :
    (g.next node).length + ∑ other ∈ g.nodes \ insert node s.visited, (g.next other).length ≤
      ∑ other ∈ g.nodes \ s.visited, (g.next other).length := by
  by_cases hn : node ∈ g.nodes
  · have hs := add_sum_erase (g.nodes \ s.visited) (fun other => (g.next other).length)
      (mem_sdiff.2 ⟨hn, he⟩)
    rw [sdiff_insert]
    exact hs.le
  · rw [g.next_eq_nil node hn, List.length_nil, zero_add]
    apply sum_le_sum_of_subset
    exact sdiff_subset_sdiff subset_rfl (subset_insert _ _)

theorem work_visit_le (key : κ) (s : Search κ ν) : g.work (g.visit key s) ≤ g.work s := by
  unfold visit
  split
  · rename_i node _
    split_ifs with hs
    · exact le_rfl
    · have hu := unmarked_insert_le (g := g) hs
      simp only [work, List.length_append, List.length_reverse]
      omega
  · exact le_rfl

theorem drain_pending {rounds : ℕ} (hr : g.work s ≤ rounds) : (g.drain rounds s).pending = [] := by
  induction rounds generalizing s with
  | zero =>
    have hn : s.pending.length = 0 := by
      unfold work at hr
      omega
    exact List.length_eq_zero_iff.1 hn
  | succ rounds ih =>
    unfold drain
    split
    · rename_i hn
      exact hn
    · rename_i key rest hp
      apply ih
      have hv := work_visit_le (g := g) key { s with pending := rest }
      have ho : g.work s = g.work { s with pending := rest } + 1 := by
        simp only [work, hp, List.length_cons]
        omega
      omega

/-- The search knows of the key: it is a root, or a marked node leads to it. -/
def Known (g : KeyGraph κ ν) (roots : List κ) (s : Search κ ν) (key : κ) : Prop :=
  key ∈ roots ∨ ∃ node ∈ s.visited, key ∈ g.next node

/-- Every known key waits or is done, and only reachable nodes are marked. -/
structure Explores (g : KeyGraph κ ν) (roots : List κ) (s : Search κ ν) : Prop where
  complete : ∀ key, g.Known roots s key →
    key ∈ s.pending ∨ g.find key = none ∨ ∃ node ∈ s.visited, g.find key = some node
  known : ∀ key ∈ s.pending, g.Known roots s key
  sound : ∀ node ∈ s.visited, g.Reached roots node

omit [DecidableEq κ] [DecidableEq ν] in
theorem Known.reached (sound : ∀ node ∈ s.visited, g.Reached roots node)
    (h : g.Known roots s key) (hf : g.find key = some node) : g.Reached roots node := by
  rcases h with hr | ⟨u, hi, hk⟩
  · exact ⟨key, hr, node, hf, .refl⟩
  · obtain ⟨root, hr, v, hv, hp⟩ := sound u hi
    exact ⟨root, hr, v, hv, hp.tail ⟨key, hk, hf⟩⟩

theorem Explores.visit (h : g.Explores roots s) (hp : s.pending = key :: rest) :
    g.Explores roots (g.visit key { s with pending := rest }) := by
  have hn := h.known key (by rw [hp]; exact List.mem_cons_self)
  have hr : ∀ other ∈ rest, g.Known roots s other :=
    fun other ho => h.known other (by rw [hp]; exact List.mem_cons_of_mem _ ho)
  unfold KeyGraph.visit
  split
  · rename_i node hf
    split_ifs with hse
    · refine ⟨fun other ho => ?_, hr, h.sound⟩
      rcases h.complete other ho with hw | hd
      · rw [hp] at hw
        rcases List.mem_cons.1 hw with rfl | hw
        · exact .inr (.inr ⟨node, hse, hf⟩)
        · exact .inl hw
      · exact .inr hd
    · have hb : ∀ other, g.Known roots s other →
          other ∈ (g.next node).reverse ++ rest ∨ g.find other = none ∨
            ∃ v ∈ insert node s.visited, g.find other = some v := by
        intro other ho
        rcases h.complete other ho with hw | he | ⟨v, hv, ho⟩
        · rw [hp] at hw
          rcases List.mem_cons.1 hw with rfl | hw
          · exact .inr (.inr ⟨node, mem_insert_self _ _, hf⟩)
          · exact .inl (List.mem_append_right _ hw)
        · exact .inr (.inl he)
        · exact .inr (.inr ⟨v, mem_insert_of_mem hv, ho⟩)
      -- the only keys not known before are the new node's, and they are pushed
      refine ⟨fun other ho => ?_, fun other ho => ?_, fun other ho => ?_⟩
      · rcases ho with ht | ⟨u, hu, hk⟩
        · exact hb other (.inl ht)
        · rcases mem_insert.1 hu with rfl | hu
          · exact .inl (List.mem_append_left _ (List.mem_reverse.2 hk))
          · exact hb other (.inr ⟨u, hu, hk⟩)
      · rcases List.mem_append.1 ho with hs | hl
        · exact .inr ⟨node, mem_insert_self _ _, List.mem_reverse.1 hs⟩
        · rcases hr other hl with ht | ⟨u, hu, hk⟩
          · exact .inl ht
          · exact .inr ⟨u, mem_insert_of_mem hu, hk⟩
      · rcases mem_insert.1 ho with rfl | hl
        · exact hn.reached h.sound hf
        · exact h.sound other hl
  · rename_i hf
    refine ⟨fun other ho => ?_, hr, h.sound⟩
    rcases h.complete other ho with hw | hd
    · rw [hp] at hw
      rcases List.mem_cons.1 hw with rfl | hw
      · exact .inr (.inl hf)
      · exact .inl hw
    · exact .inr hd

theorem Explores.drain (h : g.Explores roots s) (rounds : ℕ) :
    g.Explores roots (g.drain rounds s) := by
  induction rounds generalizing s with
  | zero => exact h
  | succ rounds ih =>
    unfold KeyGraph.drain
    split
    · exact h
    · rename_i key rest hp
      exact ih (h.visit hp)

omit [DecidableEq κ] [DecidableEq ν] in
theorem initial_explores (g : KeyGraph κ ν) (roots : List κ) : g.Explores roots ⟨roots, ∅, ∅⟩ := by
  refine ⟨fun key hk => ?_, fun key hk => .inl hk, fun node hn => ?_⟩
  · rcases hk with hr | ⟨node, hn, -⟩
    · exact .inl hr
    · exact absurd hn (notMem_empty node)
  · exact absurd hn (notMem_empty node)

theorem close_explores (g : KeyGraph κ ν) (roots : List κ) : g.Explores roots (g.close roots) :=
  (initial_explores g roots).drain _

theorem close_pending (g : KeyGraph κ ν) (roots : List κ) : (g.close roots).pending = [] := by
  apply drain_pending
  simp only [work, rounds, sdiff_empty]
  exact le_rfl

theorem mem_close_visited : node ∈ (g.close roots).visited ↔ g.Reached roots node := by
  have he := close_explores g roots
  have hd : ∀ key, g.Known roots (g.close roots) key → ∀ v, g.find key = some v →
      v ∈ (g.close roots).visited := by
    intro key hk v hv
    rcases he.complete key hk with hw | ho | ⟨u, hu, hf⟩
    · rw [close_pending] at hw
      cases hw
    · rw [ho] at hv
      cases hv
    · rw [hf] at hv
      exact Option.some.inj hv ▸ hu
  constructor
  · exact he.sound node
  · intro h
    obtain ⟨key, hr, u, hf, hp⟩ := h
    induction hp with
    | refl => exact hd key (.inl hr) u hf
    | tail _ hg ih =>
      obtain ⟨next, hn, hf⟩ := hg
      exact hd next (.inr ⟨_, ih, hn⟩) _ hf

/-- A known key without a node waits or is noted, and no other key is noted. -/
structure Notes (g : KeyGraph κ ν) (roots : List κ) (s : Search κ ν) : Prop where
  complete : ∀ key, g.Known roots s key → g.find key = none → key ∈ s.pending ∨ key ∈ s.missing
  sound : ∀ key ∈ s.missing, g.find key = none ∧ g.Known roots s key

theorem Notes.visit (h : g.Notes roots s) (hp : s.pending = key :: rest)
    (hkn : g.Known roots s key) : g.Notes roots (g.visit key { s with pending := rest }) := by
  -- a key that has a node is not one of those that wait to be noted
  have ha : ∀ other, other ≠ key → g.Known roots s other → g.find other = none →
      other ∈ rest ∨ other ∈ s.missing := by
    intro other hne ho hn
    rcases h.complete other ho hn with hw | ht
    · rw [hp] at hw
      exact .inl (List.mem_of_ne_of_mem hne hw)
    · exact .inr ht
  unfold KeyGraph.visit
  split
  · rename_i node hf
    have hne : ∀ other, g.find other = none → other ≠ key := by
      intro other hn heq
      rw [heq, hf] at hn
      cases hn
    split_ifs with hs
    · exact ⟨fun other ho hn => ha other (hne other hn) ho hn, h.sound⟩
    · refine ⟨fun other ho hn => ?_, fun other ho => ?_⟩
      · by_cases hb : g.Known roots s other
        · rcases ha other (hne other hn) hb hn with hw | ht
          · exact .inl (List.mem_append_right _ hw)
          · exact .inr ht
        · rcases ho with hr | ⟨u, hu, hk⟩
          · exact absurd (.inl hr) hb
          · rcases mem_insert.1 hu with rfl | hu
            · exact .inl (List.mem_append_left _ (List.mem_reverse.2 hk))
            · exact absurd (.inr ⟨u, hu, hk⟩) hb
      · obtain ⟨hn, hb⟩ := h.sound other ho
        refine ⟨hn, ?_⟩
        rcases hb with hr | ⟨u, hu, hk⟩
        · exact .inl hr
        · exact .inr ⟨u, mem_insert_of_mem hu, hk⟩
  · rename_i hf
    refine ⟨fun other ho hn => ?_, fun other ho => ?_⟩
    · by_cases hk : other = key
      · exact .inr (hk ▸ mem_insert_self _ _)
      · rcases ha other hk ho hn with hw | ht
        · exact .inl hw
        · exact .inr (mem_insert_of_mem ht)
    · rcases mem_insert.1 ho with rfl | hl
      · exact ⟨hf, hkn⟩
      · exact h.sound other hl

theorem Notes.drain (hn : g.Notes roots s) (he : g.Explores roots s) (rounds : ℕ) :
    g.Notes roots (g.drain rounds s) := by
  induction rounds generalizing s with
  | zero => exact hn
  | succ rounds ih =>
    unfold KeyGraph.drain
    split
    · exact hn
    · rename_i key rest hp
      have hk := he.known key (hp ▸ List.mem_cons_self)
      exact ih (hn.visit hp hk) (he.visit hp)

theorem mem_close_missing : key ∈ (g.close roots).missing ↔
    g.find key = none ∧ (key ∈ roots ∨ ∃ node, g.Reached roots node ∧ key ∈ g.next node) := by
  have ht : g.Notes roots (g.close roots) := by
    apply Notes.drain _ (initial_explores g roots)
    refine ⟨fun key hk _ => ?_, fun key hk => absurd hk (notMem_empty key)⟩
    rcases hk with hr | ⟨node, hn, -⟩
    · exact .inl hr
    · exact absurd hn (notMem_empty node)
  constructor
  · intro h
    obtain ⟨ho, hr | ⟨node, hn, hk⟩⟩ := ht.sound key h
    · exact ⟨ho, .inl hr⟩
    · exact ⟨ho, .inr ⟨node, mem_close_visited.1 hn, hk⟩⟩
  · intro h
    obtain ⟨ho, hm⟩ := h
    have hkn : g.Known roots (g.close roots) key := by
      rcases hm with hr | ⟨node, hn, hk⟩
      · exact .inl hr
      · exact .inr ⟨node, mem_close_visited.2 hn, hk⟩
    rcases ht.complete key hkn ho with hw | he
    · rw [close_pending] at hw
      cases hw
    · exact he

end KeyGraph

end WorklistSearch
