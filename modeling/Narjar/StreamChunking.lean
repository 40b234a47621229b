import Mathlib.Data.List.Basic
import Mathlib.Data.List.Infix
import Mathlib.Tactic.Common

/-!
# Content-defined chunking

A chunker looks at a window at the front of a stream and decides where the first piece
ends. Cutting piece by piece partitions the stream, and a buffer that holds a full window
already shows the next cut of every stream that continues it.
-/
namespace StreamChunking

variable {α : Type} {minSize maxSize : ℕ}

/-- The length of the first piece of a stream, decided on its first `maxSize` elements. -/
structure Chunker (α : Type) (minSize maxSize : ℕ) where
  cut : List α → ℕ
  cut_pos : ∀ s, s ≠ [] → 0 < cut s
  cut_le_length : ∀ s, cut s ≤ s.length
  min_le_cut : ∀ s, minSize ≤ cut s ∨ cut s = s.length
  cut_window : ∀ s, cut s = cut (s.take maxSize)

namespace Chunker

variable (c : Chunker α minSize maxSize)

def cuts (s : List α) : List (List α) :=
  if _h : s = [] then [] else s.take (c.cut s) :: cuts (s.drop (c.cut s))
termination_by s.length
decreasing_by
  have hpos := c.cut_pos s ‹_›
  have hlen := List.length_pos_iff.2 ‹¬s = []›
  rw [List.length_drop]
  omega

@[simp] theorem cuts_nil : c.cuts [] = [] := by
  rw [cuts, dif_pos rfl]

theorem cuts_of_ne_nil (h : s ≠ []) :
    c.cuts s = s.take (c.cut s) :: c.cuts (s.drop (c.cut s)) := by
  rw [cuts, dif_neg h]

theorem cuts_induction {motive : List α → Prop} (nil : motive [])
    (step : ∀ s, s ≠ [] → motive (s.drop (c.cut s)) → motive s) (s : List α) : motive s := by
  induction hn : s.length using Nat.strong_induction_on generalizing s with
  | _ n ih =>
    by_cases h : s = []
    · rw [h]
      exact nil
    · apply step s h
      have hp := c.cut_pos s h
      have hl := List.length_pos_iff.2 h
      exact ih _ (by rw [List.length_drop]; omega) _ rfl

@[simp] theorem flatten_cuts (s : List α) : (c.cuts s).flatten = s := by
  induction s using c.cuts_induction with
  | nil => simp
  | step s h ih => rw [c.cuts_of_ne_nil h, List.flatten_cons, ih, List.take_append_drop]

theorem cut_le_max (s : List α) : c.cut s ≤ maxSize := by
  rw [c.cut_window s]
  have h := c.cut_le_length (s.take maxSize)
  rw [List.length_take] at h
  omega

theorem cut_append (h : maxSize ≤ s.length) (t : List α) :
    c.cut (s ++ t) = c.cut s := by
  rw [c.cut_window (s ++ t), List.take_append_of_le_length h, ← c.cut_window s]

theorem cuts_append (hs : s ≠ []) (h : maxSize ≤ s.length ∨ t = []) :
    c.cuts (s ++ t) = s.take (c.cut s) :: c.cuts (s.drop (c.cut s) ++ t) := by
  have hc : c.cut (s ++ t) = c.cut s := by
    rcases h with hf | he
    · exact c.cut_append hf t
    · rw [he, List.append_nil]
  have hle := c.cut_le_length s
  rw [c.cuts_of_ne_nil (List.append_ne_nil_of_left_ne_nil hs t), hc,
    List.take_append_of_le_length hle, List.drop_append_of_le_length hle]

/-- Pieces are never empty or too long, and only the last one may be short. -/
def WellSized (minSize maxSize : ℕ) : List (List α) → Prop
  | [] => True
  | p :: ps =>
    0 < p.length ∧ p.length ≤ maxSize ∧ (ps ≠ [] → minSize ≤ p.length) ∧
      WellSized minSize maxSize ps

theorem wellSized_cuts (s : List α) : WellSized minSize maxSize (c.cuts s) := by
  induction s using c.cuts_induction with
  | nil => simp [WellSized]
  | step s h ih =>
    have hl : (s.take (c.cut s)).length = c.cut s := by
      rw [List.length_take, Nat.min_eq_left (c.cut_le_length s)]
    rw [c.cuts_of_ne_nil h, WellSized, hl]
    refine ⟨c.cut_pos s h, c.cut_le_max s, ?_, ih⟩
    intro hm
    rcases c.min_le_cut s with hi | hw
    · exact hi
    · rw [hw, List.drop_length, cuts_nil] at hm
      exact absurd rfl hm

end Chunker

end StreamChunking
