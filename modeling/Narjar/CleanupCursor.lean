import Mathlib.Data.Finset.Sort
import Mathlib.Data.List.Induction

/-!
# The cursor of the lease cleanup

A cleanup looks at a bounded number of record paths, in their order and from the one after the path
that was looked at last, and begins again when it comes to the end. Between the calls paths come
and go.
-/
namespace CleanupCursor

open Finset

variable {α : Type} [LinearOrder α]

structure LeaseManagerState (α : Type) where
  recordPaths : Finset α
  cleanupCursor : Option α

/-- The record paths in the order in which they are looked at. -/
def fromCursor (s : LeaseManagerState α) : List α :=
  match s.cleanupCursor with
  | some cursor =>
    (s.recordPaths.filter (cursor < ·)).sort ++ (s.recordPaths.filter (· ≤ cursor)).sort
  | none => s.recordPaths.sort

def cleanupCandidates (limit : ℕ) (s : LeaseManagerState α) : List α × LeaseManagerState α :=
  let candidates := (fromCursor s).take limit
  (candidates, { s with cleanupCursor := candidates.getLast?.or s.cleanupCursor })

inductive Event (α : Type) where
  | cleanup
  | recordAdded (path : α)
  | recordRemoved (path : α)

def next (limit : ℕ) (s : LeaseManagerState α) : Event α → LeaseManagerState α
  | .cleanup => (cleanupCandidates limit s).2
  | .recordAdded path => { s with recordPaths := insert path s.recordPaths }
  | .recordRemoved path => { s with recordPaths := s.recordPaths.erase path }

/-- What each of the cleanups yields. -/
def yielded (limit : ℕ) : LeaseManagerState α → List (Event α) → List (List α)
  | _, [] => []
  | s, event :: events =>
    match event with
    | .cleanup => (cleanupCandidates limit s).1 :: yielded limit (next limit s event) events
    | _ => yielded limit (next limit s event) events

/-- The paths that are there at some time. -/
def present (limit : ℕ) : LeaseManagerState α → List (Event α) → Finset α
  | s, [] => s.recordPaths
  | s, event :: events => s.recordPaths ∪ present limit (next limit s event) events

def Stays (limit : ℕ) (path : α) : LeaseManagerState α → List (Event α) → Prop
  | s, [] => path ∈ s.recordPaths
  | s, event :: events => path ∈ s.recordPaths ∧ Stays limit path (next limit s event) events

/-- The order of the paths from the cursor. -/
def Before : Option α → α → α → Prop
  | none, a, b => a < b
  | some cursor, a, b => (cursor < a ∧ a < b) ∨ (b ≤ cursor ∧ (a < b ∨ cursor < a))

variable {s : LeaseManagerState α} {limit n : ℕ} {path last a : α} {cursor : Option α}
  {events : List (Event α)}

theorem mem_fromCursor : a ∈ fromCursor s ↔ a ∈ s.recordPaths := by
  unfold fromCursor
  split
  · rw [List.mem_append, mem_sort, mem_sort, mem_filter, mem_filter, ← and_or_left,
      and_iff_left (lt_or_ge _ _)]
  · exact mem_sort _

theorem fromCursor_pairwise (s : LeaseManagerState α) :
    (fromCursor s).Pairwise (Before s.cleanupCursor) := by
  unfold fromCursor
  split
  · rename_i cursor hc
    rw [hc, List.pairwise_append]
    refine ⟨?_, ?_, ?_⟩
    · refine (sortedLT_sort _).pairwise.imp_of_mem fun ha _ hl => .inl ⟨?_, hl⟩
      exact (mem_filter.1 ((mem_sort _).1 ha)).2
    · refine (sortedLT_sort _).pairwise.imp_of_mem fun _ hb hl => .inr ⟨?_, .inl hl⟩
      exact (mem_filter.1 ((mem_sort _).1 hb)).2
    · intro a ha b hb
      rw [mem_sort, mem_filter] at ha hb
      exact .inr ⟨hb.2, .inr ha.2⟩
  · rename_i hc
    rw [hc]
    exact (sortedLT_sort _).pairwise

theorem before_irrefl : ¬Before cursor a a := by
  cases cursor <;> grind [Before]

/-- From the new cursor on, nothing that was passed comes before the path. -/
theorem not_before_of_passed (hl : Before cursor last path) (ha : a = last ∨ Before cursor a last) :
    ¬Before (some last) a path := by
  cases cursor <;> grind [Before]

theorem before_of_later (hl : Before cursor last path) (ha : Before (some last) a path) :
    Before cursor a path := by
  cases cursor <;> grind [Before]

theorem fromCursor_nodup (s : LeaseManagerState α) : (fromCursor s).Nodup := by
  refine (fromCursor_pairwise s).imp ?_
  rintro a _ hb rfl
  exact before_irrefl hb

/-- A call that does not yield a path yields as many as it may, all of them before the path, and
goes on after the last of them. -/
theorem cleanup_before (hlimit : 0 < limit) (hp : path ∈ s.recordPaths)
    (hn : path ∉ (cleanupCandidates limit s).1) :
    (cleanupCandidates limit s).1.length = limit ∧
      (∀ a ∈ (cleanupCandidates limit s).1, Before s.cleanupCursor a path) ∧
      ∃ last, (cleanupCandidates limit s).2.cleanupCursor = some last ∧
        Before s.cleanupCursor last path ∧
        ∀ a ∈ (cleanupCandidates limit s).1, a = last ∨ Before s.cleanupCursor a last := by
  simp only [cleanupCandidates] at hn ⊢
  have hm := mem_fromCursor.2 hp
  have hw := fromCursor_pairwise s
  rw [← List.take_append_drop limit (fromCursor s)] at hm hw
  obtain ⟨hy, -, hb⟩ := List.pairwise_append.1 hw
  have hr := (List.mem_append.1 hm).resolve_left hn
  have hc : ((fromCursor s).take limit).length = limit := by
    rw [List.length_take_of_le]
    by_contra hl
    rw [List.drop_of_length_le (by omega)] at hr
    exact absurd hr List.not_mem_nil
  refine ⟨hc, fun a ha => hb a ha path hr, ?_⟩
  cases hq : (fromCursor s).take limit using List.reverseRecOn with
  | nil =>
    rw [hq] at hc
    exact absurd hc hlimit.ne
  | append_singleton init last =>
    rw [hq] at hb hy
    refine ⟨last, by rw [List.getLast?_concat]; rfl, hb last (by simp) path hr, fun a ha => ?_⟩
    rcases List.mem_append.1 ha with hi | hi
    · exact .inr ((List.pairwise_append.1 hy).2.2 a hi last (List.mem_singleton_self _))
    · exact .inl (List.mem_singleton.1 hi)

theorem recordPaths_subset_present (limit : ℕ) (s : LeaseManagerState α) (events : List (Event α)) :
    s.recordPaths ⊆ present limit s events := by
  cases events with
  | nil => exact Subset.refl _
  | cons => exact subset_union_left

open Classical in
theorem calls_le_before (hlimit : 0 < limit) (hs : Stays limit path s events)
    (hn : n ≤ (yielded limit s events).length)
    (hy : ∀ y ∈ (yielded limit s events).take n, path ∉ y) :
    n * limit ≤ #{a ∈ present limit s events | Before s.cleanupCursor a path} := by
  induction events generalizing s n with
  | nil =>
    rw [Nat.le_zero.1 hn, Nat.zero_mul]
    exact Nat.zero_le _
  | cons event events ih =>
    obtain ⟨hp, hs⟩ := hs
    have hm : present limit (next limit s event) events ⊆ present limit s (event :: events) :=
      subset_union_right
    cases event with
    | recordAdded | recordRemoved =>
      exact (ih hs hn hy).trans (card_le_card (filter_subset_filter _ hm))
    | cleanup =>
      cases n with
      | zero =>
        rw [Nat.zero_mul]
        exact Nat.zero_le _
      | succ n =>
        rw [yielded, List.take_succ_cons, List.forall_mem_cons] at hy
        obtain ⟨hc, hb, last, hl, hlp, hla⟩ := cleanup_before hlimit hp hy.1
        have hi := ih hs (Nat.le_of_succ_le_succ hn) hy.2
        rw [next, hl] at hi
        have hd : ((cleanupCandidates limit s).1).Nodup := (fromCursor_nodup s).take
        have hk : #(cleanupCandidates limit s).1.toFinset = limit :=
          (List.toFinset_card_of_nodup hd).trans hc
        rw [Nat.succ_mul, Nat.add_comm]
        refine (Nat.add_le_add hk.ge hi).trans ?_
        rw [← card_union_of_disjoint]
        · refine card_le_card (union_subset (fun a ha => ?_) fun a ha => ?_)
          · rw [List.mem_toFinset] at ha
            rw [mem_filter]
            refine ⟨recordPaths_subset_present limit s _ ?_, hb a ha⟩
            exact mem_fromCursor.1 (List.mem_of_mem_take ha)
          · rw [mem_filter] at ha ⊢
            exact ⟨hm ha.1, before_of_later hlp ha.2⟩
        · rw [disjoint_left]
          intro a ha hf
          exact not_before_of_passed hlp (hla a (List.mem_toFinset.1 ha)) (mem_filter.1 hf).2

theorem yielded_nodup (limit : ℕ) (s : LeaseManagerState α) (events : List (Event α)) :
    ∀ y ∈ yielded limit s events, y.Nodup := by
  induction events generalizing s with
  | nil => exact fun _ hy => absurd hy List.not_mem_nil
  | cons event events ih =>
    cases event with
    | cleanup => exact List.forall_mem_cons.2 ⟨(fromCursor_nodup s).take, ih _⟩
    | recordAdded | recordRemoved => exact ih _

theorem Stays.mem_present (h : Stays limit path s events) : path ∈ present limit s events := by
  cases events with
  | nil => exact h
  | cons => exact mem_union_left _ h.1

/-- However paths come and go, a call yields no path twice, and a path that stays is yielded by one
of the first calls, of which there are no more than it takes to yield every path that is there at
some time. -/
theorem path_is_yielded (hlimit : 0 < limit) (hstays : Stays limit path s events)
    (hcalls : (#(present limit s events) + limit - 1) / limit ≤ (yielded limit s events).length) :
    (∀ y ∈ yielded limit s events, y.Nodup) ∧
      ∃ y ∈ (yielded limit s events).take ((#(present limit s events) + limit - 1) / limit),
        path ∈ y := by
  classical
  refine ⟨yielded_nodup limit s events, ?_⟩
  by_contra hn
  push Not at hn
  have hb := calls_le_before hlimit hstays hcalls hn
  have hl : #{a ∈ present limit s events | Before s.cleanupCursor a path} <
      #(present limit s events) :=
    card_lt_card (filter_ssubset.2 ⟨path, hstays.mem_present, before_irrefl⟩)
  have hd := Nat.div_add_mod' (#(present limit s events) + limit - 1) limit
  have hr := Nat.mod_lt (#(present limit s events) + limit - 1) hlimit
  omega

/-- A path is removed behind the cursor and another one is added. -/
theorem third_path_is_yielded : ∃ y ∈ yielded 1 ⟨{1, 2, 3}, none⟩
    [.cleanup, .recordRemoved 1, .recordAdded 4, .cleanup, .cleanup, .cleanup], 3 ∈ y := by
  have hs : Stays 1 3 ⟨{1, 2, 3}, none⟩
      [.cleanup, .recordRemoved 1, .recordAdded 4, .cleanup, .cleanup, .cleanup] := by
    simp only [Stays]
    decide
  obtain ⟨-, y, hy, hm⟩ := path_is_yielded Nat.one_pos hs (by decide)
  exact ⟨y, List.mem_of_mem_take hy, hm⟩

end CleanupCursor
