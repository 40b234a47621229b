import Mathlib.Data.List.AList

/-!
# Caches of proofs

The caches of validated deliveries, NARs and chunks hold a map and a queue of its keys. A key joins
the queue when it is new in the map, and the oldest key goes when there are too many.
-/
namespace ProofCaches

variable {κ ν : Type} {capacity : ℕ}

structure Proofs (κ ν : Type) where
  byKey : AList fun _ : κ => ν
  insertionOrder : List κ

/-- The queue holds the keys of the map, and there are not too many. -/
structure Proofs.Consistent (proofs : Proofs κ ν) (capacity : ℕ) : Prop where
  ordered : proofs.insertionOrder.Perm proofs.byKey.keys
  bounded : proofs.byKey.keys.length ≤ capacity

/-- An insertion that returns and leaves a consistent cache. -/
def Maintains (capacity : ℕ) (insertion : Proofs κ ν → κ → ν → Option (Proofs κ ν)) : Prop :=
  ∀ proofs key proof, proofs.Consistent capacity →
    ∃ next, insertion proofs key proof = some next ∧ next.Consistent capacity

inductive Operation (κ ν : Type) where
  | insert (key : κ) (proof : ν)
  | lookup (key : κ)

/-- A cache is only looked into to compare the proof that it has for a key. -/
def run (insertion : Proofs κ ν → κ → ν → Option (Proofs κ ν)) :
    List (Operation κ ν) → Proofs κ ν → Option (Proofs κ ν)
  | [], proofs => some proofs
  | .insert key proof :: operations, proofs => do run insertion operations (← insertion proofs key proof)
  | .lookup _ :: operations, proofs => run insertion operations proofs

/-- Whatever is inserted and looked up, the insertions return, the queue holds exactly the keys of
the map, each of them once, and the size stays within the capacity. -/
def StaysConsistent (capacity : ℕ) (insertion : Proofs κ ν → κ → ν → Option (Proofs κ ν)) : Prop :=
  ∀ operations, ∃ proofs, run insertion operations ⟨∅, []⟩ = some proofs ∧
    proofs.insertionOrder.Nodup ∧ (∀ key, key ∈ proofs.insertionOrder ↔ key ∈ proofs.byKey) ∧
    proofs.byKey.keys.length ≤ capacity

theorem Maintains.run {insertion : Proofs κ ν → κ → ν → Option (Proofs κ ν)}
    (h : Maintains capacity insertion) {operations : List (Operation κ ν)} {proofs : Proofs κ ν}
    (hc : proofs.Consistent capacity) :
    ∃ next, run insertion operations proofs = some next ∧ next.Consistent capacity := by
  induction operations generalizing proofs with
  | nil => exact ⟨proofs, rfl, hc⟩
  | cons operation operations ih =>
    cases operation with
    | insert key proof =>
      obtain ⟨next, hn, hc⟩ := h proofs key proof hc
      rw [ProofCaches.run, hn]
      exact ih hc
    | lookup => exact ih hc

theorem Maintains.staysConsistent
    {insertion : Proofs κ ν → κ → ν → Option (Proofs κ ν)} (h : Maintains capacity insertion) :
    StaysConsistent capacity insertion := by
  intro operations
  have he : (⟨∅, []⟩ : Proofs κ ν).Consistent capacity := ⟨.refl _, Nat.zero_le _⟩
  obtain ⟨proofs, hr, hc⟩ := h.run he
  exact ⟨proofs, hr, hc.ordered.nodup_iff.2 proofs.byKey.keys_nodup, fun _ => hc.ordered.mem_iff,
    hc.bounded⟩

variable [DecidableEq κ]

def deliveryValidationCacheCapacity : ℕ := 1024

def verifiedNarCacheCapacity : ℕ := 256

def verifiedChunkCacheCapacity : ℕ := 4096

namespace Proofs

def put (proofs : Proofs κ ν) (key : κ) (proof : ν) : Proofs κ ν :=
  ⟨proofs.byKey.insert key proof,
    if key ∈ proofs.byKey then proofs.insertionOrder else proofs.insertionOrder ++ [key]⟩

def removeOldest (proofs : Proofs κ ν) : Proofs κ ν :=
  match proofs.insertionOrder with
  | [] => proofs
  | oldest :: rest => ⟨proofs.byKey.erase oldest, rest⟩

/-- The insertion into the cache of deliveries, which panics when no key is queued. -/
def insert (proofs : Proofs κ ν) (key : κ) (proof : ν) : Option (Proofs κ ν) :=
  let proofs := proofs.put key proof
  if deliveryValidationCacheCapacity < proofs.byKey.keys.length then
    if proofs.insertionOrder = [] then none else some proofs.removeOldest
  else some proofs

/-- The loop of the other caches, given up after a number of rounds. -/
def evict (capacity : ℕ) : ℕ → Proofs κ ν → Option (Proofs κ ν)
  | 0, proofs => if capacity < proofs.byKey.keys.length then none else some proofs
  | rounds + 1, proofs =>
    if capacity < proofs.byKey.keys.length then evict capacity rounds proofs.removeOldest
    else some proofs

def cacheVerifiedNar (rounds : ℕ) (proofs : Proofs κ ν) (hash : κ) (proof : ν) :
    Option (Proofs κ ν) := evict verifiedNarCacheCapacity rounds (proofs.put hash proof)

def cacheVerifiedChunk (rounds : ℕ) (proofs : Proofs κ ν) (hash : κ) (stamp : ν) :
    Option (Proofs κ ν) := evict verifiedChunkCacheCapacity rounds (proofs.put hash stamp)

variable {proofs : Proofs κ ν} {key : κ} {proof : ν}

theorem put_perm (h : proofs.insertionOrder.Perm proofs.byKey.keys) :
    (proofs.put key proof).insertionOrder.Perm (proofs.put key proof).byKey.keys := by
  simp only [put, AList.keys_insert]
  by_cases hm : key ∈ proofs.byKey
  · rw [if_pos hm]
    exact h.trans (List.perm_cons_erase hm)
  · rw [if_neg hm, List.erase_of_not_mem hm]
    exact (h.append_right [key]).trans (List.perm_append_singleton ..)

theorem removeOldest_consistent (h : proofs.insertionOrder.Perm proofs.byKey.keys)
    (hl : proofs.byKey.keys.length ≤ capacity + 1) (ho : proofs.insertionOrder ≠ []) :
    proofs.removeOldest.Consistent capacity := by
  unfold removeOldest
  cases hq : proofs.insertionOrder with
  | nil => exact absurd hq ho
  | cons oldest rest =>
    have he := h.erase oldest
    rw [hq, List.erase_cons_head, ← AList.keys_erase] at he
    have hn := h.length_eq
    rw [hq, List.length_cons] at hn
    exact ⟨he, by rw [← he.length_eq]; omega⟩

/-- After an insertion into a consistent cache at most one key is too many. -/
theorem Consistent.put (h : proofs.Consistent capacity) (key : κ) (proof : ν) :
    (¬capacity < (proofs.put key proof).byKey.keys.length ∧
      (proofs.put key proof).Consistent capacity) ∨
    (capacity < (proofs.put key proof).byKey.keys.length ∧
      (proofs.put key proof).insertionOrder ≠ [] ∧
      (proofs.put key proof).removeOldest.Consistent capacity) := by
  have hp : (proofs.put key proof).insertionOrder.Perm _ := put_perm h.ordered
  have hl : (proofs.put key proof).byKey.keys.length ≤ capacity + 1 := by
    rw [Proofs.put, AList.keys_insert, List.length_cons]
    exact Nat.succ_le_succ (Nat.le_trans List.length_erase_le h.bounded)
  by_cases hn : capacity < (proofs.put key proof).byKey.keys.length
  · have ho : (proofs.put key proof).insertionOrder ≠ [] := by
      intro he
      rw [← hp.length_eq, he] at hn
      exact absurd hn (Nat.not_lt_zero _)
    exact .inr ⟨hn, ho, removeOldest_consistent hp hl ho⟩
  · exact .inl ⟨hn, hp, Nat.not_lt.1 hn⟩

variable {next : Proofs κ ν} {key' : κ} {proof' : ν}

theorem lookup_of_put (h : (proofs.put key proof).byKey.lookup key' = some proof') :
    (key' = key ∧ proof' = proof) ∨ proofs.byKey.lookup key' = some proof' := by
  by_cases hk : key' = key
  · subst hk
    rw [put, AList.lookup_insert] at h
    exact .inl ⟨rfl, (Option.some.inj h).symm⟩
  · rw [put, AList.lookup_insert_ne hk] at h
    exact .inr h

theorem lookup_of_removeOldest (h : proofs.removeOldest.byKey.lookup key = some proof) :
    proofs.byKey.lookup key = some proof := by
  unfold removeOldest at h
  cases hq : proofs.insertionOrder with
  | nil => rwa [hq] at h
  | cons oldest rest =>
    rw [hq] at h
    by_cases hk : key = oldest
    · subst hk
      rw [AList.lookup_erase] at h
      cases h
    · rwa [AList.lookup_erase_ne hk] at h

theorem lookup_of_insert (hi : proofs.insert key proof = some next)
    (h : next.byKey.lookup key' = some proof') :
    (key' = key ∧ proof' = proof) ∨ proofs.byKey.lookup key' = some proof' := by
  unfold insert at hi
  simp only at hi
  split_ifs at hi
  · cases hi
    exact lookup_of_put (lookup_of_removeOldest h)
  · cases hi
    exact lookup_of_put h

end Proofs

open Proofs

theorem insert_maintains :
    Maintains deliveryValidationCacheCapacity (Proofs.insert : Proofs κ ν → _) := by
  intro proofs key proof h
  unfold Proofs.insert
  rcases h.put key proof with ⟨hn, hc⟩ | ⟨hn, ho, hc⟩
  · exact ⟨_, if_neg hn, hc⟩
  · exact ⟨_, by rw [if_pos hn, if_neg ho], hc⟩

theorem insert_ne_none {proofs : Proofs κ ν}
    (h : proofs.Consistent deliveryValidationCacheCapacity) (key : κ) (proof : ν) :
    proofs.insert key proof ≠ none := by
  obtain ⟨next, hn, -⟩ := insert_maintains proofs key proof h
  rw [hn]
  exact Option.some_ne_none _

theorem insert_consistent {proofs next : Proofs κ ν} {key : κ} {proof : ν}
    (h : proofs.Consistent deliveryValidationCacheCapacity)
    (hi : proofs.insert key proof = some next) : next.Consistent deliveryValidationCacheCapacity := by
  obtain ⟨other, hn, hc⟩ := insert_maintains proofs key proof h
  rw [hi] at hn
  cases hn
  exact hc

/-- One round of the loop is enough. -/
theorem evict_maintains (capacity rounds : ℕ) :
    Maintains capacity fun (proofs : Proofs κ ν) key proof =>
      evict capacity (rounds + 1) (proofs.put key proof) := by
  intro proofs key proof h
  simp only [evict]
  rcases h.put key proof with ⟨hn, hc⟩ | ⟨hn, -, hc⟩
  · exact ⟨_, if_neg hn, hc⟩
  · refine ⟨_, ?_, hc⟩
    rw [if_pos hn]
    cases rounds with
    | zero | succ => exact if_neg (Nat.not_lt.2 hc.bounded)

/-- No insertion into a cache panics, and the loop ends after one round. -/
theorem caches_stay_consistent (rounds : ℕ) :
    StaysConsistent deliveryValidationCacheCapacity (Proofs.insert : Proofs κ ν → _) ∧
    StaysConsistent verifiedNarCacheCapacity (cacheVerifiedNar (rounds + 1) : Proofs κ ν → _) ∧
    StaysConsistent verifiedChunkCacheCapacity
      (cacheVerifiedChunk (rounds + 1) : Proofs κ ν → _) :=
  ⟨insert_maintains.staysConsistent, (evict_maintains _ rounds).staysConsistent,
    (evict_maintains _ rounds).staysConsistent⟩

end ProofCaches
