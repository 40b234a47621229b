import Mathlib.Data.List.Infix
import Mathlib.Data.List.Sort
import Mathlib.Tactic.Common

/-!
# Greedy eviction

Candidates are evicted in a fixed order: first those that are too old, then any others for as
long as there is pressure. Pressure depends on what has gone already and never comes back.
-/
namespace GreedyEviction

open List

variable {α : Type} (aged : α → Bool) (pressure : List α → Bool)

/-- Go through the candidates and take each one there is a reason for. -/
def evict (gone : List α) : List α → List α
  | [] => []
  | a :: rest =>
    if aged a || pressure gone then a :: evict (gone ++ [a]) rest else evict gone rest

/-- The shortest run of candidates that the reasons ask for, within a budget. -/
structure Shortest (order chosen : List α) (budget : ℕ) : Prop where
  first : chosen <+: order
  within : chosen.length ≤ budget
  pressed : ∀ before c after, chosen = before ++ c :: after → aged c = false →
    pressure before = true ∧ ∀ a ∈ order, aged a = true → a ∈ before
  stops : chosen = order ∨ chosen.length = budget ∨
    pressure chosen = false ∧ ∀ a ∈ order, aged a = true → a ∈ chosen

/-- The aged candidates come before all others. -/
def AgedFirst (order : List α) : Prop := order.Pairwise fun a b => aged b = true → aged a = true

/-- What relieves the pressure keeps it relieved. -/
def Relieved : Prop := ∀ gone more, pressure gone = false → pressure (gone ++ more) = false

variable {aged pressure}

theorem AgedFirst.tail (h : AgedFirst aged (a :: order)) :
    AgedFirst aged order := (pairwise_cons.1 h).2

theorem AgedFirst.of_young (h : AgedFirst aged (a :: order))
    (ha : aged a = false) : ∀ b ∈ order, aged b = false := by
  intro b hb
  cases ho : aged b with
  | false => rfl
  | true => rw [(pairwise_cons.1 h).1 b hb ho] at ha; cases ha

theorem evict_young (hp : pressure gone = false)
    (hy : ∀ a ∈ order, aged a = false) : evict aged pressure gone order = [] := by
  induction order with
  | nil => rfl
  | cons a order ih =>
    rw [evict, hy a mem_cons_self, hp]
    exact ih fun b hb => hy b (mem_cons_of_mem _ hb)

theorem evict_spec (pressure : List α → Bool) (gone : List α)
    (hf : AgedFirst aged order) :
    evict aged pressure gone order <+: order ∧
      (∀ before c after, evict aged pressure gone order = before ++ c :: after → aged c = false →
        pressure (gone ++ before) = true ∧ ∀ a ∈ order, aged a = true → a ∈ before) ∧
      (evict aged pressure gone order = order ∨
        pressure (gone ++ evict aged pressure gone order) = false ∧
          ∀ a ∈ order, aged a = true → a ∈ evict aged pressure gone order) := by
  induction order generalizing gone with
  | nil => exact ⟨prefix_refl _, fun before c after h => by simp [evict] at h, .inl rfl⟩
  | cons a order ih =>
    by_cases he : (aged a || pressure gone) = true
    · have hv : evict aged pressure gone (a :: order) =
          a :: evict aged pressure (gone ++ [a]) order := by rw [evict, if_pos he]
      obtain ⟨hn, hp, ht⟩ := ih (gone ++ [a]) hf.tail
      rw [hv]
      refine ⟨cons_prefix_cons.2 ⟨rfl, hn⟩, ?_, ?_⟩
      · intro before c after heq hy
        cases before with
        | nil =>
          obtain ⟨rfl, -⟩ := List.cons.inj heq
          rw [hy, Bool.false_or] at he
          refine ⟨by rwa [append_nil], ?_⟩
          intro b hb ho
          rcases mem_cons.1 hb with rfl | hb
          · rw [hy] at ho
            cases ho
          · rw [hf.of_young hy b hb] at ho
            cases ho
        | cons b before =>
          obtain ⟨rfl, hs⟩ := List.cons.inj heq
          obtain ⟨hm, ha⟩ := hp before c after hs hy
          rw [append_assoc, singleton_append] at hm
          refine ⟨hm, fun b hb ho => ?_⟩
          rcases mem_cons.1 hb with rfl | hb
          · exact mem_cons_self
          · exact mem_cons_of_mem _ (ha b hb ho)
      · rcases ht with hw | ⟨hr, ha⟩
        · exact .inl (congrArg _ hw)
        · right
          rw [append_assoc, singleton_append] at hr
          refine ⟨hr, fun b hb ho => ?_⟩
          rcases mem_cons.1 hb with rfl | hb
          · exact mem_cons_self
          · exact mem_cons_of_mem _ (ha b hb ho)
    · -- the first candidate without a reason is young, so all later ones are
      obtain ⟨hy, hr⟩ : aged a = false ∧ pressure gone = false := by
        simpa using he
      have hu : ∀ b ∈ a :: order, aged b = false :=
        forall_mem_cons.2 ⟨hy, hf.of_young hy⟩
      rw [evict_young hr hu]
      refine ⟨List.nil_prefix, fun before c after h => by simp at h, .inr ⟨?_, ?_⟩⟩
      · rwa [append_nil]
      · intro b hb ho
        rw [hu b hb] at ho
        cases ho

theorem evict_shortest (pressure : List α → Bool) (hi : AgedFirst aged order)
    (budget : ℕ) :
    Shortest aged pressure order ((evict aged pressure [] order).take budget) budget := by
  obtain ⟨hf, hp, hs⟩ := evict_spec pressure [] hi
  generalize evict aged pressure [] order = all at hf hp hs
  refine ⟨(List.take_prefix _ _).trans hf, length_take_le _ _, ?_, ?_⟩
  · intro before c after heq hy
    refine hp before c (after ++ all.drop budget) ?_ hy
    rw [← cons_append, ← append_assoc, ← heq, take_append_drop]
  · by_cases hl : budget ≤ all.length
    · exact .inr (.inl (length_take_of_le hl))
    · rw [take_of_length_le (Nat.le_of_not_le hl)]
      exact hs.imp_right .inr

/-- Candidates that have no reason at the start need not be looked at. -/
theorem evict_filter (aged : α → Bool) (he : Relieved pressure) (gone order : List α) :
    evict aged pressure gone (order.filter fun a => aged a || pressure []) =
      evict aged pressure gone order := by
  induction order generalizing gone with
  | nil => rfl
  | cons a order ih =>
    by_cases hr : (aged a || pressure []) = true
    · rw [filter_cons, if_pos hr, evict, evict, ih, ih]
    · obtain ⟨hy, hn⟩ : aged a = false ∧ pressure [] = false := by simpa using hr
      have hg : pressure gone = false := he [] gone hn
      rw [filter_cons, if_neg hr, evict, hy, hg, ih]
      rfl

section Sorted

variable (r : α → α → Prop) [DecidableRel r] [Std.Total r] [IsTrans α r]

/-- It is enough to sort the candidates that have a reason at the start: they are the front of
all candidates in order. -/
theorem exists_order (aged : α → Bool) (eligible : List α) (hr : Relieved pressure)
    (ho : ∀ a ∈ eligible, ∀ b ∈ eligible, r a b → aged b = true → aged a = true)
    (hy : ∀ a ∈ eligible, ∀ b ∈ eligible, aged a = true → aged b = false → r a b) :
    ∃ order : List α, order.Perm eligible ∧ order.Pairwise r ∧ AgedFirst aged order ∧
      (eligible.filter fun a => aged a || pressure []).insertionSort r <+: order ∧
      evict aged pressure [] ((eligible.filter fun a => aged a || pressure []).insertionSort r) =
        evict aged pressure [] order := by
  let front := (eligible.filter fun a => aged a || pressure []).insertionSort r
  let back := (eligible.filter fun a => !(aged a || pressure [])).insertionSort r
  have hf : ∀ a ∈ front, a ∈ eligible ∧ (aged a || pressure []) = true := fun a ha =>
    mem_filter.1 ((mem_insertionSort r).1 ha)
  have hc : ∀ a ∈ back, a ∈ eligible ∧ (!(aged a || pressure [])) = true := fun a ha =>
    mem_filter.1 ((mem_insertionSort r).1 ha)
  have hp : (front ++ back).Perm eligible :=
    ((perm_insertionSort r _).append (perm_insertionSort r _)).trans
      (filter_append_perm _ _)
  have hs : (front ++ back).Pairwise r := by
    refine pairwise_append.2
      ⟨pairwise_insertionSort r _, pairwise_insertionSort r _, ?_⟩
    intro a ha b hb
    -- something is left over only without pressure, so whatever is in front is aged
    obtain ⟨hb', hm⟩ : aged b = false ∧ pressure [] = false := by simpa using (hc b hb).2
    have ha' : aged a = true := by simpa [hm] using (hf a ha).2
    exact hy a (hf a ha).1 b (hc b hb).1 ha' hb'
  have hi : (front ++ back).filter (fun a => aged a || pressure []) = front := by
    rw [filter_append, filter_eq_self.2 fun a ha => (hf a ha).2,
      filter_eq_nil_iff.2 fun a ha => by simpa using (hc a ha).2, append_nil]
  refine ⟨front ++ back, hp, hs, ?_, prefix_append _ _, ?_⟩
  · refine hs.imp_of_mem ?_
    intro a b ha hb
    exact ho a (hp.mem_iff.1 ha) b (hp.mem_iff.1 hb)
  · have hk := evict_filter aged hr [] (front ++ back)
    rwa [hi] at hk

end Sorted

end GreedyEviction
