import Mathlib.Data.List.Induction
import Mathlib.Logic.Function.Basic
import Mathlib.Tactic.Common

/-!
# Runs of labelled steps

Finite runs of a step relation together with the labels of their steps, with the induction
rules for invariants and for facts about the whole history. Processes that share a state and
take turns in any order are one such relation.
-/
namespace LabelledRuns

variable {σ ℓ : Type} {step : σ → ℓ → σ → Prop} {s t u : σ} {labels : List ℓ}

/-- Any number of steps, with their labels in order. -/
inductive Run (step : σ → ℓ → σ → Prop) : σ → List ℓ → σ → Prop
  | refl (s : σ) : Run step s [] s
  | tail {s t u : σ} {labels : List ℓ} {l : ℓ} :
    Run step s labels t → step t l u → Run step s (labels ++ [l]) u

theorem Run.single (h : step s l t) : Run step s [l] t :=
  .tail (.refl s) h

theorem Run.append (first : Run step s labels t) (second : Run step t more u) :
    Run step s (labels ++ more) u := by
  induction second with
  | refl => rwa [List.append_nil]
  | tail _ hs ih =>
    rw [← List.append_assoc]
    exact .tail ih hs

/-- What holds at the start and survives every step holds after every run. -/
theorem Run.invariant {I : σ → Prop} (run : Run step s labels t) (start : I s)
    (preserved : ∀ t l u, I t → step t l u → I u) : I t := by
  induction run with
  | refl => exact start
  | tail _ hs ih => exact preserved _ _ _ ih hs

theorem Run.history {I : List ℓ → σ → Prop} (run : Run step s labels t) (start : I [] s)
    (preserved : ∀ labels t l u, I labels t → step t l u → I (labels ++ [l]) u) : I labels t := by
  induction run with
  | refl => exact start
  | tail _ hs ih => exact preserved _ _ _ _ ih hs

@[simp] theorem run_nil : Run step s [] t ↔ t = s := by
  constructor
  · intro run
    generalize hl : ([] : List ℓ) = labels at run
    cases run with
    | refl => rfl
    | tail => simp at hl
  · intro h
    rw [h]
    exact .refl s

theorem run_concat : Run step s (labels ++ [l]) u ↔ ∃ t, Run step s labels t ∧ step t l u := by
  constructor
  · intro run
    generalize hl : labels ++ [l] = all at run
    cases run with
    | refl => simp at hl
    | tail hr hs =>
      obtain ⟨rfl, ha⟩ := List.append_inj' hl rfl
      cases List.cons.inj ha |>.1
      exact ⟨_, hr, hs⟩
  · intro h
    obtain ⟨t, hr, hs⟩ := h
    exact .tail hr hs

theorem run_append :
    Run step s (labels ++ more) u ↔ ∃ t, Run step s labels t ∧ Run step t more u := by
  constructor
  · intro run
    induction more using List.reverseRecOn generalizing u with
    | nil =>
      rw [List.append_nil] at run
      exact ⟨u, run, .refl u⟩
    | append_singleton more last ih =>
      rw [← List.append_assoc, run_concat] at run
      obtain ⟨v, hr, ht⟩ := run
      obtain ⟨t, hf, hs⟩ := ih hr
      exact ⟨t, hf, .tail hs ht⟩
  · intro h
    obtain ⟨t, hf, hs⟩ := h
    exact hf.append hs

theorem run_cons : Run step s (l :: labels) u ↔ ∃ t, step s l t ∧ Run step t labels u := by
  rw [← List.singleton_append, run_append]
  constructor
  · intro h
    obtain ⟨t, hf, hr⟩ := h
    rw [← List.nil_append [l], run_concat] at hf
    obtain ⟨s', hn, hs⟩ := hf
    rw [run_nil.1 hn] at hs
    exact ⟨t, hs, hr⟩
  · intro h
    obtain ⟨t, hs, hr⟩ := h
    exact ⟨t, .single hs, hr⟩

theorem Run.imp (run : Run step s labels t)
    (h : ∀ s l t, l ∈ labels → step s l t → step' s l t) : Run step' s labels t := by
  induction run with
  | refl => exact .refl _
  | tail _ hs ih =>
    refine .tail (ih fun s l t hl => h s l t (List.mem_append_left _ hl)) ?_
    exact h _ _ _ (List.mem_append_right _ (List.mem_singleton_self _)) hs

theorem Run.of_foldlM (h : labels.foldlM next s = some t) :
    Run (fun s l t => next s l = some t) s labels t := by
  induction labels generalizing s with
  | nil =>
    cases h
    exact .refl _
  | cons l labels ih =>
    rw [List.foldlM_cons] at h
    obtain ⟨u, hs, hr⟩ := Option.bind_eq_some_iff.1 h
    exact run_cons.2 ⟨u, hs, ih hr⟩

section Interleaving

variable {ι α τ : Type} [DecidableEq ι]

/-- Processes, each with a state of its own, and the state they share. -/
structure Interleaved (ι σ τ : Type) where
  shared : σ
  process : ι → τ

/-- One process acts; the others keep their own states. -/
inductive Turn (act : σ → τ → α → σ → τ → Prop) :
    Interleaved ι σ τ → ι × α → Interleaved ι σ τ → Prop
  | mk {w : Interleaved ι σ τ} {k : ι} {a : α} {s : σ} {p : τ}
    (h : act w.shared (w.process k) a s p) :
    Turn act w (k, a) ⟨s, Function.update w.process k p⟩

variable {act : σ → τ → α → σ → τ → Prop} {w w' : Interleaved ι σ τ} {turns : List (ι × α)}

/-- An invariant of every process holds along a run if a process that acts establishes it for
itself and does not disturb it for the others. -/
theorem Run.interleaved {I : List (ι × α) → Interleaved ι σ τ → ι → Prop}
    (run : Run (Turn act) w turns w') (start : ∀ k, I [] w k)
    (own : ∀ turns v k a s p, Run (Turn act) w turns v → I turns v k →
      act v.shared (v.process k) a s p → I (turns ++ [(k, a)]) ⟨s, Function.update v.process k p⟩ k)
    (others : ∀ turns v k a s p j, Run (Turn act) w turns v → j ≠ k → I turns v j →
      act v.shared (v.process k) a s p →
      I (turns ++ [(k, a)]) ⟨s, Function.update v.process k p⟩ j) (k : ι) : I turns w' k := by
  induction run generalizing k with
  | refl => exact start k
  | tail hr hs ih =>
    obtain @⟨j, a, s, p, ha⟩ := hs
    by_cases hk : k = j
    · subst hk
      exact own _ _ _ _ _ _ hr (ih _) ha
    · exact others _ _ _ _ _ _ _ hr hk (ih _) ha

theorem Run.alone
    (run : Run (fun x a y => act x.1 x.2 a y.1 y.2) (s, p) actions (t, q)) (hs : w.shared = s)
    (hp : w.process k = p) :
    ∃ w', Run (Turn act) w (actions.map (Prod.mk k)) w' ∧ w'.shared = t ∧ w'.process k = q ∧
      ∀ j, j ≠ k → w'.process j = w.process j := by
  generalize hx : (s, p) = x at run
  generalize hy : (t, q) = y at run
  induction run generalizing t q with
  | refl =>
    subst hx
    cases hy
    exact ⟨w, .refl w, hs, hp, fun _ _ => rfl⟩
  | tail _ ha ih =>
    subst hy
    obtain ⟨v, hr, hv, hvk, ho⟩ := ih rfl
    rw [← hv, ← hvk] at ha
    rw [List.map_append]
    refine ⟨_, .tail hr (.mk ha), rfl, Function.update_self .., fun j hj => ?_⟩
    exact (Function.update_of_ne hj ..).trans (ho j hj)

end Interleaving

end LabelledRuns
