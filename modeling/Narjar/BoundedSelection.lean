import Mathlib.Data.List.Induction
import Mathlib.Data.List.Sort

/-!
# Keeping the smallest items

The reconcile report and the listing of the store directory go through items in any order and keep
the smallest ones in a heap. A heap is modelled by the ascending list of its items, so that the
largest item is the last one.
-/
namespace BoundedSelection

open List

variable {α ε : Type} [LinearOrder α] {limit : ℕ} {item : α} {heap items : List α}

def push (heap : List α) (item : α) : List α := heap.orderedInsert (· ≤ ·) item

theorem length_push (heap : List α) (item : α) : (push heap item).length = heap.length + 1 :=
  orderedInsert_length ..

theorem push_perm (heap : List α) (item : α) : (push heap item).Perm (heap ++ [item]) :=
  (perm_orderedInsert ..).trans (perm_append_singleton ..).symm

theorem push_pairwise (h : heap.Pairwise (· ≤ ·)) (item : α) :
    (push heap item).Pairwise (· ≤ ·) := Pairwise.orderedInsert item heap h

theorem mergeSort_of_pairwise (h : heap.Pairwise (· ≤ ·)) (hp : heap.Perm items) :
    items.mergeSort = heap :=
  ((mergeSort_perm items _).trans hp.symm).eq_of_pairwise' (pairwise_mergeSort' (· ≤ ·) items) h

theorem mergeSort_concat (items : List α) (item : α) :
    (items ++ [item]).mergeSort = push items.mergeSort item := by
  refine mergeSort_of_pairwise (push_pairwise (pairwise_mergeSort' (· ≤ ·) items) item) ?_
  exact (push_perm ..).trans ((mergeSort_perm items _).append_right [item])

/-- What lies beyond the limit has no influence on what lies within it. -/
theorem take_push (limit : ℕ) (heap : List α) (item : α) :
    (push (heap.take limit) item).take limit = (push heap item).take limit := by
  unfold push
  induction heap generalizing limit with
  | nil => rw [take_nil]
  | cons first heap ih =>
    cases limit with
    | zero => rfl
    | succ limit =>
      rw [take_succ_cons, orderedInsert_cons, orderedInsert_cons]
      split
      · cases limit with
        | zero => rfl
        | succ limit => simp [take_take]
      · rw [take_succ_cons, take_succ_cons, ih]

/-- A round of a loop that leaves the smallest items in a heap that held the smallest before. -/
def Selects (limit : ℕ) (round : List α → α → List α) : Prop :=
  ∀ heap item, heap.Pairwise (· ≤ ·) → heap.length ≤ limit →
    round heap item = (push heap item).take limit

theorem Selects.foldl {round : List α → α → List α} (h : Selects limit round) (items : List α) :
    items.foldl round [] = items.mergeSort.take limit := by
  induction items using List.reverseRecOn with
  | nil => rw [foldl_nil, mergeSort_nil, take_nil]
  | append_singleton items item ih =>
    rw [foldl_concat, ih, h _ _ (pairwise_mergeSort' (· ≤ ·) items).take (length_take_le ..),
      take_push, mergeSort_concat]

structure BoundedEntries (α : Type) where
  limit : ℕ
  seen : ℕ
  entries : List α

/-- The largest entry goes when there are too many. -/
def keep (limit : ℕ) (entries : List α) (entry : α) : List α :=
  let entries := push entries entry
  if limit < entries.length then entries.dropLast else entries

namespace BoundedEntries

def new (limit : ℕ) : BoundedEntries α := ⟨limit, 0, []⟩

def record (found : BoundedEntries α) (entry : α) : BoundedEntries α :=
  ⟨found.limit, found.seen + 1, keep found.limit found.entries entry⟩

end BoundedEntries

structure ReconcileReport (α : Type) where
  entries : List α
  truncated : Bool

def BoundedEntries.finish (found : BoundedEntries α) : ReconcileReport α :=
  let entries := found.entries.mergeSort
  ⟨entries, decide (entries.length < found.seen)⟩

/-- One round of the loop of `boundedDirectoryNames`. -/
def select (limit : ℕ) (selected : List α) (name : α) : List α :=
  if selected.length < limit then push selected name
  else
    match selected.getLast? with
    | some largest => if name < largest then push selected.dropLast name else selected
    | none => selected

/-- Before each entry the loop may find that it has to stop. -/
def boundedDirectoryNames (limit : ℕ) (selected : List α) :
    List (Option (Except ε α)) → Except ε (Option (List α))
  | [] => .ok (some selected.mergeSort)
  | none :: _ => .ok none
  | some (.error error) :: _ => .error error
  | some (.ok name) :: entries => boundedDirectoryNames limit (select limit selected name) entries

theorem keep_selects (limit : ℕ) : Selects limit (keep limit : List α → α → List α) := by
  intro heap item _ hl
  simp only [keep, length_push, dropLast_eq_take, Nat.add_sub_cancel]
  split
  · congr 1
    omega
  · rw [take_of_length_le]
    rw [length_push]
    omega

theorem push_concat {largest : α} (h : (heap ++ [largest]).Pairwise (· ≤ ·)) :
    push (heap ++ [largest]) item =
      if item < largest then push heap item ++ [largest] else heap ++ [largest] ++ [item] := by
  obtain ⟨hh, -, hl⟩ := pairwise_append.1 h
  have hm : ∀ a ∈ heap, a ≤ largest := fun a ha => hl a ha largest (mem_singleton_self _)
  split
  · rename_i hi
    refine Perm.eq_of_pairwise' (push_pairwise h item) ?_ ?_
    · refine pairwise_append.2 ⟨push_pairwise hh item, pairwise_singleton .., ?_⟩
      intro a ha b hb
      rw [mem_singleton.1 hb]
      rcases mem_append.1 ((push_perm ..).mem_iff.1 ha) with ha | ha
      · exact hm a ha
      · rw [mem_singleton.1 ha]
        exact hi.le
    · refine (push_perm ..).trans ?_
      rw [append_assoc]
      refine (perm_append_comm.append_left heap).trans ?_
      rw [← append_assoc]
      exact (push_perm ..).symm.append_right _
  · rename_i hi
    refine Perm.eq_of_pairwise' (push_pairwise h item) ?_ (push_perm ..)
    refine pairwise_append.2 ⟨h, pairwise_singleton .., ?_⟩
    intro a ha b hb
    rw [mem_singleton.1 hb]
    refine le_trans ?_ (not_lt.1 hi)
    rcases mem_append.1 ha with ha | ha
    · exact hm a ha
    · rw [mem_singleton.1 ha]

theorem select_selects (limit : ℕ) : Selects limit (select limit : List α → α → List α) := by
  intro heap name hs hl
  unfold select
  split
  · rw [take_of_length_le]
    rw [length_push]
    omega
  · obtain rfl : limit = heap.length := by omega
    cases heap using List.reverseRecOn with
    | nil => rfl
    | append_singleton heap largest =>
      rw [getLast?_concat, dropLast_concat, push_concat hs]
      dsimp only
      split
      · rw [length_append, length_singleton, ← length_push heap name, take_left]
      · rw [take_left]

theorem foldl_record (limit seen : ℕ) (entries items : List α) :
    items.foldl BoundedEntries.record ⟨limit, seen, entries⟩ =
      ⟨limit, seen + items.length, items.foldl (keep limit) entries⟩ := by
  induction items generalizing seen entries with
  | nil => rfl
  | cons item items ih =>
    rw [foldl_cons, BoundedEntries.record, ih, length_cons, foldl_cons, Nat.add_assoc, Nat.add_comm 1]

theorem boundedDirectoryNames_ok (limit : ℕ) (selected names : List α) :
    boundedDirectoryNames limit selected (names.map fun name => some (.ok name : Except ε α)) =
      .ok (some (names.foldl (select limit) selected).mergeSort) := by
  induction names generalizing selected with
  | nil => rfl
  | cons name names ih => exact ih (select limit selected name)

theorem mergeSort_take (limit : ℕ) (items : List α) :
    (items.mergeSort.take limit).mergeSort = items.mergeSort.take limit :=
  mergeSort_of_pairwise (pairwise_mergeSort' (· ≤ ·) items).take (.refl _)

/-- Whatever the order in which the items come, both loops return the smallest ones in ascending
order and hold one more at most, and the report says whether there were more. -/
theorem selections_keep_smallest (limit : ℕ) (items : List α) (item : α) :
    ((items.foldl BoundedEntries.record (.new limit)).finish.entries = items.mergeSort.take limit ∧
      ((items.foldl BoundedEntries.record (.new limit)).finish.truncated = true ↔
        limit < items.length) ∧
      (push (items.foldl BoundedEntries.record (.new limit)).entries item).length ≤ limit + 1) ∧
    boundedDirectoryNames limit [] (items.map fun name => some (.ok name : Except ε α)) =
      .ok (some (items.mergeSort.take limit)) ∧
    (items.foldl (select limit) []).length ≤ limit := by
  rw [BoundedEntries.new, foldl_record, Nat.zero_add, (keep_selects limit).foldl,
    boundedDirectoryNames_ok, (select_selects limit).foldl, BoundedEntries.finish, mergeSort_take,
    length_push, length_take, length_mergeSort]
  simp only [decide_eq_true_eq]
  refine ⟨⟨trivial, by omega, by omega⟩, trivial, Nat.min_le_left ..⟩

end BoundedSelection
