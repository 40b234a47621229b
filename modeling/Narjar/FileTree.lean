import Mathlib.Data.List.Nodup
import Mathlib.Tactic.Common

/-!
# File trees

A finite tree of directories and files as a table of paths. Every path is listed once and
every listed path stands in a directory, so a table is always a tree.
-/
namespace FileTree

variable {κ β : Type}

inductive Entry (β : Type) where
  | file (contents : β)
  | directory
  /-- Opens, but is neither a file nor a directory. -/
  | pipe
  /-- A link, a socket or a device: it cannot be opened. -/
  | unopenable
  deriving DecidableEq, Repr

structure Tree (κ β : Type) where
  entries : List (List κ × Entry β)
  nodup : (entries.map Prod.fst).Nodup
  rooted : ∀ path name, path ++ [name] ∈ entries.map Prod.fst →
    path = [] ∨ (path, Entry.directory) ∈ entries

theorem rooted_of_entries {entries : List (List κ × Entry β)}
    (h : ∀ p ∈ entries, p.1.dropLast = [] ∨ (p.1.dropLast, Entry.directory) ∈ entries)
    (path : List κ) (name : κ) (hm : path ++ [name] ∈ entries.map Prod.fst) :
    path = [] ∨ (path, Entry.directory) ∈ entries := by
  obtain ⟨p, hp, ht⟩ := List.mem_map.1 hm
  have ha := h p hp
  rwa [ht, List.dropLast_concat] at ha

theorem lookup_eq_some {α γ : Type} [BEq α] [LawfulBEq α] {table : List (α × γ)}
    (hn : (table.map Prod.fst).Nodup) {key : α} {value : γ} :
    table.lookup key = some value ↔ (key, value) ∈ table := by
  rw [List.lookup_eq_some_iff]
  constructor
  · intro h
    obtain ⟨before, after, ht, -⟩ := h
    rw [ht]
    exact List.mem_append_right _ List.mem_cons_self
  · intro h
    obtain ⟨before, after, ht⟩ := List.append_of_mem h
    refine ⟨before, after, ht, ?_⟩
    intro p hp
    rw [ht, List.map_append, List.map_cons, List.nodup_append] at hn
    simpa using (hn.2.2 p.1 (List.mem_map_of_mem hp) key List.mem_cons_self).symm

namespace Tree

variable [DecidableEq κ] (t : Tree κ β) {path other : List κ} {name : κ} {e : Entry β}

def get (path : List κ) : Option (Entry β) := t.entries.lookup path

theorem get_eq_some : t.get path = some e ↔ (path, e) ∈ t.entries := lookup_eq_some t.nodup

theorem get_eq_none : t.get path = none ↔ path ∉ t.entries.map Prod.fst := by
  rw [Option.eq_none_iff_forall_not_mem]
  simp only [Option.mem_def, get_eq_some, List.mem_map, Prod.exists, exists_and_right,
    exists_eq_right, not_exists]

def Vacant (path : List κ) : Prop :=
  t.get path = none ∧ path ≠ [] ∧ (path.dropLast = [] ∨ t.get path.dropLast = some .directory)

instance [DecidableEq β] : Decidable (t.Vacant path) :=
  inferInstanceAs (Decidable (_ ∧ _ ∧ (_ ∨ _)))

def create (path : List κ) (e : Entry β) (h : t.Vacant path) : Tree κ β where
  entries := t.entries ++ [(path, e)]
  nodup := by
    rw [List.map_append, List.nodup_append]
    refine ⟨t.nodup, List.nodup_singleton _, ?_⟩
    intro p hp q hq heq
    have hq' : q = path := List.mem_singleton.1 hq
    rw [heq, hq'] at hp
    exact t.get_eq_none.1 h.1 hp
  rooted := by
    intro parent name hmem
    rw [List.map_append, List.mem_append] at hmem
    rcases hmem with hold | hnew
    · exact (t.rooted parent name hold).imp id fun hdir => List.mem_append_left _ hdir
    · have hpath : parent ++ [name] = path := List.mem_singleton.1 hnew
      have hparent : path.dropLast = parent := by rw [← hpath, List.dropLast_concat]
      have hroot := h.2.2
      rw [hparent, get_eq_some] at hroot
      exact hroot.imp id fun hdir => List.mem_append_left _ hdir

/-- Remove everything but directories among the chosen paths. -/
def discard (gone : List κ → Bool) : Tree κ β where
  entries := t.entries.filter fun p =>
    !gone p.1 || match p.2 with
      | .directory => true
      | _ => false
  nodup := t.nodup.sublist (List.filter_sublist.map _)
  rooted := by
    intro path name hmem
    obtain ⟨p, hp, hpath⟩ := List.mem_map.1 hmem
    have hold := List.mem_map_of_mem (f := Prod.fst) (List.mem_of_mem_filter hp)
    rw [hpath] at hold
    refine (t.rooted path name hold).imp id fun hdir => List.mem_filter.2 ⟨hdir, ?_⟩
    rw [Bool.or_true]

variable {t}

theorem get_create :
    (t.create path e h).get other = if other = path then some e else t.get other := by
  apply Option.ext
  intro e'
  rw [get_eq_some, create, List.mem_append, ← get_eq_some, List.mem_singleton, Prod.mk.injEq]
  split_ifs with hp
  · rw [hp, h.1]
    simp [eq_comm]
  · simp [hp]

theorem get_create_self : (t.create path e h).get path = some e := by
  rw [get_create, if_pos rfl]

theorem get_create_of_ne (hne : other ≠ path) :
    (t.create path e h).get other = t.get other := by
  rw [get_create, if_neg hne]

theorem get_discard_of_gone (hg : gone path = true)
    (h : t.get path ≠ some .directory) : (t.discard gone).get path = none := by
  rw [Option.eq_none_iff_forall_not_mem]
  intro e hm
  rw [Option.mem_def, get_eq_some, discard, List.mem_filter, hg] at hm
  rw [t.get_eq_some.2 hm.1] at h
  cases e with
  | directory => exact h rfl
  | file | pipe | unopenable => exact absurd hm.2 (by simp)

theorem get_discard_of_kept (hk : gone path = false) :
    (t.discard gone).get path = t.get path := by
  apply Option.ext
  intro e
  rw [get_eq_some, get_eq_some, discard, List.mem_filter, hk]
  simp

variable (t)

def names (directory : List κ) : List κ :=
  t.entries.filterMap fun p => if p.1.dropLast = directory then p.1.getLast? else none

theorem mem_names :
    name ∈ t.names directory ↔ t.get (directory ++ [name]) ≠ none := by
  rw [ne_eq, get_eq_none, not_not, names, List.mem_filterMap]
  constructor
  · intro h
    obtain ⟨p, hp, hn⟩ := h
    split_ifs at hn with hd
    have ha : p.1 = directory ++ [name] := by
      rw [← hd, List.dropLast_append_getLast? name hn]
    rw [← ha]
    exact List.mem_map_of_mem hp
  · intro h
    obtain ⟨p, hp, ha⟩ := List.mem_map.1 h
    refine ⟨p, hp, ?_⟩
    rw [ha, List.dropLast_concat, if_pos rfl, List.getLast?_concat]

def below (directory : List κ) : List (List κ × Entry β) :=
  t.entries.filter fun p =>
    directory.isPrefixOf p.1 && match p.2 with
      | .directory => false
      | _ => true

theorem mem_below :
    (path, e) ∈ t.below directory ↔ directory <+: path ∧ t.get path = some e ∧ e ≠ .directory := by
  rw [below, List.mem_filter, get_eq_some]
  cases e <;> simp [and_comm]

theorem get_parent (h : t.get (path ++ [name]) ≠ none) :
    path = [] ∨ t.get path = some .directory := by
  rw [ne_eq, get_eq_none, not_not] at h
  rw [get_eq_some]
  exact t.rooted path name h

end Tree

end FileTree
