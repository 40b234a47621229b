import Mathlib.Data.Set.Basic
import Mathlib.Logic.Function.Basic
import Mathlib.Tactic.Common

/-!
# Directories and crashes

A directory is the contents that were last synced and the changes made since. A crash keeps
any part of these changes, in their order.
-/
namespace DirectoryDurability

variable {α β : Type} [DecidableEq α]

abbrev Contents (α β : Type) := α → Option β

inductive Change (α β : Type) where
  | link (name : α) (content : β)
  | unlink (name : α)
  deriving DecidableEq

namespace Change

def name : Change α β → α
  | link name _ | unlink name => name

def result : Change α β → Option β
  | link _ content => some content
  | unlink _ => none

def apply (contents : Contents α β) (change : Change α β) : Contents α β :=
  Function.update contents change.name change.result

@[simp] theorem apply_unlink_self (contents : Contents α β) (name : α) :
    apply contents (.unlink name) name = none := Function.update_self ..

theorem apply_unlink_of_ne (contents : Contents α β) {name gone : α} (h : name ≠ gone) :
    apply contents (.unlink gone) name = contents name := Function.update_of_ne h ..

end Change

def replay (contents : Contents α β) (changes : List (Change α β)) : Contents α β :=
  changes.foldl Change.apply contents

structure Directory (α β : Type) where
  synced : Contents α β
  unsynced : List (Change α β)

namespace Directory

def live (d : Directory α β) : Contents α β := replay d.synced d.unsynced

def record (d : Directory α β) (change : Change α β) : Directory α β :=
  { d with unsynced := d.unsynced ++ [change] }

def sync (d : Directory α β) : Directory α β := ⟨d.live, []⟩

/-- The contents a crash may leave. -/
def Survives (d : Directory α β) (contents : Contents α β) : Prop :=
  ∃ kept, kept.Sublist d.unsynced ∧ contents = replay d.synced kept

variable {d : Directory α β} {contents : Contents α β} {change : Change α β} {name : α}

@[simp] theorem live_record : (d.record change).live = change.apply d.live := by
  simp only [live, record, replay, List.foldl_append, List.foldl_cons, List.foldl_nil]

@[simp] theorem live_sync : d.sync.live = d.live := rfl

theorem live_survives (d : Directory α β) : d.Survives d.live :=
  ⟨d.unsynced, List.Sublist.refl _, rfl⟩

def possible (d : Directory α β) (name : α) : Set (Option β) :=
  {x | ∃ contents, d.Survives contents ∧ contents name = x}

theorem replay_eq_or (contents : Contents α β) (changes : List (Change α β)) (name : α) :
    replay contents changes name = contents name ∨
      ∃ change ∈ changes, change.name = name ∧ change.result = replay contents changes name := by
  induction changes generalizing contents with
  | nil => exact .inl rfl
  | cons change changes ih =>
    have ht : replay contents (change :: changes) = replay (change.apply contents) changes := rfl
    rw [ht]
    rcases ih (change.apply contents) with hs | hl
    · by_cases hn : change.name = name
      · refine .inr ⟨change, List.mem_cons_self, hn, ?_⟩
        rw [hs, Change.apply, ← hn, Function.update_self]
      · left
        rw [hs, Change.apply, Function.update_of_ne (Ne.symm hn)]
    · obtain ⟨later, hm, hl⟩ := hl
      exact .inr ⟨later, List.mem_cons_of_mem _ hm, hl⟩

theorem mem_possible :
    x ∈ d.possible name ↔
      x = d.synced name ∨ ∃ change ∈ d.unsynced, change.name = name ∧ x = change.result := by
  constructor
  · intro h
    obtain ⟨contents, ⟨kept, hk, rfl⟩, rfl⟩ := h
    refine (replay_eq_or d.synced kept name).imp id fun hl => ?_
    obtain ⟨change, hm, hn, hr⟩ := hl
    exact ⟨change, hk.subset hm, hn, hr.symm⟩
  · intro h
    rcases h with rfl | ⟨change, hm, rfl, rfl⟩
    · exact ⟨d.synced, ⟨[], List.nil_sublist _, rfl⟩, rfl⟩
    · refine ⟨change.apply d.synced, ⟨[change], List.singleton_sublist.2 hm, rfl⟩, ?_⟩
      exact Function.update_self ..

theorem mem_possible_record :
    x ∈ (d.record change).possible name ↔
      x ∈ d.possible name ∨ (change.name = name ∧ x = change.result) := by
  simp only [mem_possible, record, List.mem_append, List.mem_singleton, or_and_right, exists_or,
    exists_eq_left, or_assoc]

@[simp] theorem mem_possible_sync : x ∈ d.sync.possible name ↔ x = d.live name := by
  simp [mem_possible, sync]

theorem live_mem_possible (d : Directory α β) (name : α) : d.live name ∈ d.possible name :=
  ⟨d.live, d.live_survives, rfl⟩

theorem Survives.mem_possible (h : d.Survives contents) (name : α) :
    contents name ∈ d.possible name := ⟨contents, h, rfl⟩

/-- Only unlinks are waiting for a sync. -/
def OnlyUnlinks (d : Directory α β) : Prop := ∀ change ∈ d.unsynced, ∃ name, change = .unlink name

theorem replay_unlinks {changes}
    (h : ∀ change ∈ changes, ∃ name, change = .unlink name) :
    replay contents changes name = if name ∈ changes.map Change.name then none else contents name := by
  induction changes generalizing contents with
  | nil => rfl
  | cons change changes ih =>
    obtain ⟨gone, rfl⟩ := h _ List.mem_cons_self
    have hr : replay ((Change.unlink gone).apply contents) changes name = _ :=
      ih fun other ho => h other (List.mem_cons_of_mem _ ho)
    rw [replay, List.foldl_cons]
    refine hr.trans ?_
    rw [List.map_cons, show (Change.unlink gone : Change α β).name = gone from rfl]
    by_cases hl : name ∈ changes.map Change.name
    · rw [if_pos hl, if_pos (List.mem_cons_of_mem _ hl)]
    · rw [if_neg hl]
      by_cases hn : name = gone
      · subst hn
        rw [if_pos List.mem_cons_self]
        exact Change.apply_unlink_self ..
      · rw [if_neg (List.not_mem_cons_of_ne_of_not_mem hn hl)]
        exact Change.apply_unlink_of_ne _ hn

omit [DecidableEq α] in
theorem OnlyUnlinks.record_unlink (h : d.OnlyUnlinks) (gone : α) :
    (d.record (.unlink gone)).OnlyUnlinks := by
  intro change hc
  rcases List.mem_append.1 hc with ho | hn
  · exact h change ho
  · exact ⟨gone, List.mem_singleton.1 hn⟩

theorem onlyUnlinks_sync (d : Directory α β) : d.sync.OnlyUnlinks := by
  intro change hc
  cases hc

theorem OnlyUnlinks.synced_of_survives (h : d.OnlyUnlinks) (hs : d.Survives contents) (hc : contents name = some content) : d.synced name = some content := by
  obtain ⟨kept, hk, rfl⟩ := hs
  rw [replay_unlinks fun change hh => h change (hk.subset hh)] at hc
  split_ifs at hc
  exact hc

theorem OnlyUnlinks.survives_of_live (h : d.OnlyUnlinks) (hs : d.Survives contents) (hl : d.live name = some content) : contents name = some content := by
  obtain ⟨kept, hk, rfl⟩ := hs
  rw [replay_unlinks fun change hc => h change (hk.subset hc)]
  rw [live, replay_unlinks h] at hl
  split_ifs at hl with hg
  rw [if_neg fun hm => hg ((hk.map Change.name).subset hm)]
  exact hl

theorem OnlyUnlinks.synced_of_live (h : d.OnlyUnlinks)
    (hl : d.live name = some content) : d.synced name = some content :=
  h.synced_of_survives d.live_survives hl

end Directory

end DirectoryDurability
