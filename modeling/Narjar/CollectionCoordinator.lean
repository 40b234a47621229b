import Mathlib.Data.Finset.Union
import Mathlib.Data.Multiset.Count
import Mathlib.Data.Multiset.AddSub
import Narjar.ObjectNames

/-!
# The collection coordinator

Readers, mutations and one collection pass at a time share an `Activity` under a lock. A pass
takes a snapshot, scans, and asks for permission to delete the objects it has selected.
Every function here is one critical section. Instants are nanoseconds of the monotonic clock.
-/
namespace CollectionCoordinator

open NarFormat ManifestFormat ObjectNames

inductive ProtectedObject where
  | publication (store : StoreHash)
  | canonicalNar (hash : Digest)
  deriving DecidableEq

def onlineGcGrace : ℕ := 600 * 1000000000
def recentObjectLimit : ℕ := 4096

inductive StorageError where
  | collectionBusy
  | collectionChanged
  | other (message : String)
  deriving DecidableEq, Repr

inductive ObjectSelection where
  | all
  | objects (members : Finset ProtectedObject)
  deriving DecidableEq

namespace ObjectSelection

def IsEmpty : ObjectSelection → Prop
  | all => False
  | objects members => members = ∅

def Contains : ObjectSelection → ProtectedObject → Prop
  | all, _ => True
  | objects members, object => object ∈ members

instance (selection : ObjectSelection) : Decidable selection.IsEmpty :=
  match selection with
  | all => inferInstanceAs (Decidable False)
  | objects members => inferInstanceAs (Decidable (members = ∅))

instance (selection : ObjectSelection) (object : ProtectedObject) :
    Decidable (selection.Contains object) :=
  match selection with
  | all => inferInstanceAs (Decidable True)
  | objects members => inferInstanceAs (Decidable (object ∈ members))

@[simp] theorem contains_all (object : ProtectedObject) : all.Contains object := trivial

@[simp] theorem contains_objects :
    (objects members).Contains object ↔ object ∈ members := Iff.rfl

theorem not_isEmpty {selection : ObjectSelection} {object : ProtectedObject}
    (h : selection.Contains object) : ¬selection.IsEmpty := by
  cases selection with
  | all => exact not_false
  | objects members =>
    intro he
    have hn := he
    rw [contains_objects, hn] at h
    exact absurd h (Finset.notMem_empty object)

end ObjectSelection

/-- The bounded table of recently advertised objects and the end of their protection. -/
structure RecentObjects where
  entries : List (ProtectedObject × ℕ)
  nodup : (entries.map Prod.fst).Nodup
  bounded : entries.length ≤ recentObjectLimit
  deriving DecidableEq

namespace RecentObjects

def empty : RecentObjects := ⟨[], List.nodup_nil, Nat.zero_le _⟩

def keys (recent : RecentObjects) : List ProtectedObject := recent.entries.map Prod.fst

def retain (recent : RecentObjects) (now : ℕ) : RecentObjects where
  entries := recent.entries.filter fun entry => now < entry.2
  nodup := (List.filter_sublist.map Prod.fst).nodup recent.nodup
  bounded := (List.length_filter_le _ _).trans recent.bounded

def extend (recent : RecentObjects) (object : ProtectedObject) (until_ : ℕ) : RecentObjects where
  entries := recent.entries.map fun entry =>
    if entry.1 = object then (entry.1, max entry.2 until_) else entry
  nodup := by
    have hkeys : (recent.entries.map fun entry =>
        if entry.1 = object then (entry.1, max entry.2 until_) else entry).map Prod.fst =
          recent.entries.map Prod.fst := by
      rw [List.map_map]
      apply List.map_congr_left
      intro entry _
      simp only [Function.comp_apply]
      split <;> rfl
    rw [hkeys]
    exact recent.nodup
  bounded := by
    rw [List.length_map]
    exact recent.bounded

def insert (recent : RecentObjects) (object : ProtectedObject) (until_ : ℕ)
    (absent : object ∉ recent.keys) (room : recent.entries.length < recentObjectLimit) :
    RecentObjects where
  entries := (object, until_) :: recent.entries
  nodup := List.nodup_cons.2 ⟨absent, recent.nodup⟩
  bounded := room

def Covers (recent : RecentObjects) (object : ProtectedObject) (until_ : ℕ) : Prop :=
  ∃ expiry, (object, expiry) ∈ recent.entries ∧ until_ ≤ expiry

variable {recent : RecentObjects} {other : ProtectedObject}

theorem mem_keys : object ∈ recent.keys ↔ ∃ expiry, (object, expiry) ∈ recent.entries := by
  rw [keys, List.mem_map]
  constructor
  · rintro ⟨⟨key, expiry⟩, hm, rfl⟩
    exact ⟨expiry, hm⟩
  · rintro ⟨expiry, hm⟩
    exact ⟨_, hm, rfl⟩

theorem Covers.mem_keys (h : recent.Covers object until_) : object ∈ recent.keys := by
  obtain ⟨expiry, hm, -⟩ := h
  exact RecentObjects.mem_keys.2 ⟨expiry, hm⟩

theorem Covers.retain (h : recent.Covers object until_) (hn : now < until_) :
    (recent.retain now).Covers object until_ := by
  obtain ⟨expiry, hm, hle⟩ := h
  exact ⟨expiry, List.mem_filter.2 ⟨hm, by simpa using hn.trans_le hle⟩, hle⟩

theorem Covers.extend (h : recent.Covers object until_) (other : ProtectedObject) (expiry : ℕ) :
    (recent.extend other expiry).Covers object until_ := by
  obtain ⟨old, hm, hle⟩ := h
  by_cases heq : object = other
  · exact ⟨max old expiry, List.mem_map.2 ⟨_, hm, by rw [if_pos heq]⟩, hle.trans (le_max_left _ _)⟩
  · exact ⟨old, List.mem_map.2 ⟨_, hm, by rw [if_neg heq]⟩, hle⟩

theorem extend_covers (h : object ∈ recent.keys) (expiry : ℕ) :
    (recent.extend object expiry).Covers object expiry := by
  obtain ⟨old, hm⟩ := RecentObjects.mem_keys.1 h
  exact ⟨max old expiry, List.mem_map.2 ⟨_, hm, by rw [if_pos rfl]⟩, le_max_right _ _⟩

end RecentObjects

inductive CollectionPhase where
  | idle
  | scanning
  | deleting (retiring : ObjectSelection)
  deriving DecidableEq

/-- The shared state. `readers` counts the leases on each object; an object without leases
has no entry. -/
structure Activity where
  generation : ℕ
  mutations : ℕ
  readers : Multiset ProtectedObject
  phase : CollectionPhase
  protectAllUntil : ℕ
  recent : RecentObjects

structure CollectionSnapshot where
  generation : ℕ
  protectAllUntil : ℕ
  protection : ObjectSelection
  deriving DecidableEq

inductive ActivityKind where
  | mutation
  | reader (object : ProtectedObject)
  deriving DecidableEq

structure ActivityLease where
  kind : ActivityKind
  advertisement : Option ProtectedObject
  deriving DecidableEq

namespace Activity

def new (now : ℕ) : Activity where
  generation := 0
  mutations := 0
  readers := 0
  phase := .idle
  protectAllUntil := now + onlineGcGrace
  recent := .empty

/-- Entries are pruned only outside a scan, so what was read during the scan stays. -/
def pruned (a : Activity) (now : ℕ) : RecentObjects :=
  match a.phase with
  | .scanning => a.recent
  | .idle | .deleting _ => a.recent.retain now

def protect (a : Activity) (object : ProtectedObject) (now : ℕ) : Activity :=
  let recent := a.pruned now
  if known : object ∈ recent.keys then
    { a with recent := recent.extend object (now + onlineGcGrace) }
  else if room : recent.entries.length < recentObjectLimit then
    { a with recent := recent.insert object (now + onlineGcGrace) known room }
  else
    { a with
      recent := recent
      protectAllUntil := max a.protectAllUntil (now + onlineGcGrace) }

def admitActivity (a : Activity) (kind : ActivityKind) :
    Except StorageError ActivityLease × Activity :=
  match kind with
  | .mutation =>
    if a.mutations + 1 ≤ u64Max then (.ok ⟨kind, none⟩, { a with mutations := a.mutations + 1 })
    else (.error (.other "collection activity count exhausted"), a)
  | .reader object =>
    if a.readers.count object + 1 ≤ u64Max then
      (.ok ⟨kind, none⟩, { a with readers := object ::ₘ a.readers })
    else (.error (.other "collection activity count exhausted"), a)

/-- `mutation`, once the wait for the end of a deletion is over. -/
def mutation (a : Activity) : Except StorageError ActivityLease × Activity :=
  if a.generation + 1 ≤ u64Max then
    admitActivity { a with generation := a.generation + 1 } .mutation
  else (.error (.other "collection mutation generation exhausted"), a)

def IsRetiring (a : Activity) (object : ProtectedObject) : Prop :=
  match a.phase with
  | .deleting retiring => retiring.Contains object
  | .idle | .scanning => False

instance (a : Activity) (object : ProtectedObject) : Decidable (a.IsRetiring object) := by
  unfold IsRetiring
  cases a.phase <;> infer_instance

/-- A reader of an object that is being deleted gets nothing. -/
def reader (a : Activity) (object : ProtectedObject) :
    Except StorageError (Option ActivityLease) × Activity :=
  if a.IsRetiring object then (.ok none, a)
  else
    let (lease, a) := a.admitActivity (.reader object)
    (lease.map some, a)

def advertise (a : Activity) (lease : ActivityLease) (store : StoreHash) (now : ℕ) :
    ActivityLease × Activity :=
  ({ lease with advertisement := some (.publication store) }, a.protect (.publication store) now)

/-- Dropping a lease renews its advertisement. -/
def release (a : Activity) (lease : ActivityLease) (now : ℕ) : Activity :=
  let a := match lease.advertisement with
    | some object => a.protect object now
    | none => a
  match lease.kind with
  | .mutation => { a with mutations := a.mutations - 1 }
  | .reader object => { a with readers := a.readers.erase object }

def snapshotAt (a : Activity) (now : ℕ) : Except StorageError CollectionSnapshot × Activity :=
  if a.phase ≠ .idle ∨ a.mutations ≠ 0 then (.error .collectionBusy, a)
  else
    let recent := a.recent.retain now
    let protection : ObjectSelection :=
      if now < a.protectAllUntil then .all
      else .objects ((recent.entries.filter fun entry => now < entry.2).map Prod.fst).toFinset
    (.ok ⟨a.generation, a.protectAllUntil, protection⟩,
      { a with recent := recent, phase := .scanning })

def refreshReadProtection (a : Activity) (snapshot : CollectionSnapshot) : CollectionSnapshot :=
  let protection :=
    if snapshot.protectAllUntil < a.protectAllUntil then .all else snapshot.protection
  { snapshot with
    protection := match protection with
      | .all => .all
      | .objects members => .objects (members ∪ a.recent.keys.toFinset) }

def RetiringObjectHasAReader (a : Activity) (retiring : ObjectSelection) : Prop :=
  ∃ object ∈ a.readers, retiring.Contains object

def RetiringObjectGainedProtection (a : Activity) (retiring : ObjectSelection)
    (snapshot : CollectionSnapshot) : Prop :=
  (¬retiring.IsEmpty ∧ snapshot.protectAllUntil < a.protectAllUntil) ∨
    ∃ object ∈ a.recent.keys, retiring.Contains object ∧ ¬snapshot.protection.Contains object

instance (a : Activity) (retiring : ObjectSelection) :
    Decidable (a.RetiringObjectHasAReader retiring) :=
  Multiset.decidableExistsMultiset

instance (a : Activity) (retiring : ObjectSelection) (snapshot : CollectionSnapshot) :
    Decidable (a.RetiringObjectGainedProtection retiring snapshot) :=
  inferInstanceAs (Decidable (_ ∨ _))

def authorizeRetirement (a : Activity) (snapshot : CollectionSnapshot)
    (retiring : ObjectSelection) : Except StorageError Unit × Activity :=
  if a.mutations ≠ 0 ∨ a.RetiringObjectHasAReader retiring then (.error .collectionBusy, a)
  else if a.generation ≠ snapshot.generation ∨
      a.RetiringObjectGainedProtection retiring snapshot then (.error .collectionChanged, a)
  else (.ok (), { a with phase := .deleting retiring })

/-- Dropping the collection lease, after a scan or after a deletion. -/
def endCollection (a : Activity) : Activity := { a with phase := .idle }

section Protect

variable (a : Activity) (object : ProtectedObject) (now : ℕ)

@[simp] theorem protect_generation : (a.protect object now).generation = a.generation := by
  unfold protect
  simp only
  split_ifs <;> rfl

@[simp] theorem protect_mutations : (a.protect object now).mutations = a.mutations := by
  unfold protect
  simp only
  split_ifs <;> rfl

@[simp] theorem protect_readers : (a.protect object now).readers = a.readers := by
  unfold protect
  simp only
  split_ifs <;> rfl

@[simp] theorem protect_phase : (a.protect object now).phase = a.phase := by
  unfold protect
  simp only
  split_ifs <;> rfl

theorem protectAllUntil_le_protect :
    a.protectAllUntil ≤ (a.protect object now).protectAllUntil := by
  unfold protect
  simp only
  split_ifs
  · exact le_rfl
  · exact le_rfl
  · exact le_max_left _ _

theorem protect_covers :
    (a.protect object now).recent.Covers object (now + onlineGcGrace) ∨
      now + onlineGcGrace ≤ (a.protect object now).protectAllUntil := by
  unfold protect
  simp only
  split_ifs with known room
  · exact .inl (RecentObjects.extend_covers known _)
  · exact .inl ⟨_, List.mem_cons_self, le_rfl⟩
  · exact .inr (le_max_right _ _)

variable {a object now} {other : ProtectedObject}

theorem covers_protect (h : a.recent.Covers other until_)
    (hn : a.phase = .scanning ∨ now < until_) :
    (a.protect object now).recent.Covers other until_ := by
  have hr : (a.pruned now).Covers other until_ := by
    unfold pruned
    split
    · exact h
    · rename_i hp
      rcases hn with hs | hl
      · rw [hp] at hs
        cases hs
      · exact h.retain hl
    · rename_i hp
      rcases hn with hs | hl
      · rw [hp] at hs
        cases hs
      · exact h.retain hl
  unfold protect
  simp only
  split_ifs
  · exact hr.extend object _
  · obtain ⟨expiry, hm, hle⟩ := hr
    exact ⟨expiry, List.mem_cons_of_mem _ hm, hle⟩
  · exact hr

end Protect

end Activity

end CollectionCoordinator
