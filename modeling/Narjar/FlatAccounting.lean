import Mathlib.Algebra.BigOperators.Fin
import Narjar.FlatDeletion
import Narjar.SharedHoldings

/-!
# Byte accounting of a flat store

The publications of a flat store share payloads. The collection subtracts what each deleted
publication frees from running reference counts; here this is compared with the set of payloads
that the publications left over still use.
-/
namespace FlatAccounting

open NarFormat ObjectNames FlatCollection FlatDeletion SharedHoldings

section Publications

variable {n : ℕ} (entries : Fin n → Entry)

def payloadsOf (i : Fin n) : Finset NarFileName := (payloadNames (entries i)).toFinset

def payloadSize (name : NarFileName) : ℕ := (payloadSizes entries name).getD 0

def freedBytes (gone : Finset (Fin n)) : ℕ :=
  freed (payloadsOf entries) (fun i => (entries i).narinfoBytes) (payloadSize entries) gone

def heldBytes (kept : Finset (Fin n)) : ℕ :=
  weight (payloadsOf entries) (fun i => (entries i).narinfoBytes) (payloadSize entries) kept

/-- The references that are left once some publications have gone. -/
def countsWithout (gone : Finset (Fin n)) : Counts := fun name =>
  (goneᶜ.filter fun i => name ∈ payloadNames (entries i)).card

variable {entries} {gone : Finset (Fin n)} {i : Fin n} {name : NarFileName}

theorem mem_payloadsOf : name ∈ payloadsOf entries i ↔ name ∈ payloadNames (entries i) :=
  List.mem_toFinset

theorem countsWithout_eq_zero :
    countsWithout entries gone name = 0 ↔ name ∉ used (payloadsOf entries) goneᶜ := by
  rw [countsWithout, Finset.card_eq_zero, Finset.filter_eq_empty_iff]
  simp only [mem_used, mem_payloadsOf, not_exists, not_and]

theorem countsWithout_insert (h : i ∉ gone) :
    countsWithout entries (insert i gone) name =
      if name ∈ payloadNames (entries i) then countsWithout entries gone name - 1
      else countsWithout entries gone name := by
  have he : (insert i gone)ᶜ.filter (fun j => name ∈ payloadNames (entries j)) =
      (goneᶜ.filter fun j => name ∈ payloadNames (entries j)).erase i := by
    ext j
    simp only [Finset.mem_filter, Finset.mem_compl, Finset.mem_insert, Finset.mem_erase, not_or]
    tauto
  rw [countsWithout, he]
  split_ifs with hn
  · exact Finset.card_erase_of_mem (Finset.mem_filter.2 ⟨Finset.mem_compl.2 h, hn⟩)
  · rw [Finset.erase_eq_of_notMem]
    · rfl
    · exact fun hm => hn (Finset.mem_filter.1 hm).2

theorem referenceCounts_eq_countsWithout : referenceCounts entries = countsWithout entries ∅ := by
  funext name
  rw [referenceCounts_eq, countsWithout, Finset.compl_empty]

theorem min_saturatingAdd (a b : ℕ) : min (saturatingAdd a b) u64Max = min (a + b) u64Max := by
  unfold saturatingAdd
  omega

theorem removePayloads_spec (sizes : NarFileName → Option ℕ) {names : List NarFileName}
    (ho : names.Nodup) (bytes : ℕ) (counts : Counts) :
    let removed := names.foldl (fun (bytes, counts) name => let count := counts name - 1
      (saturatingAdd bytes (if count = 0 then (sizes name).getD 0 else 0),
        Function.update counts name count)) (bytes, counts)
    min removed.1 u64Max = min (bytes + ((names.filter fun name => counts name - 1 = 0).map
        fun name => (sizes name).getD 0).sum) u64Max ∧
      removed.2 = fun name => if name ∈ names then counts name - 1 else counts name := by
  induction names generalizing bytes counts with
  | nil => simp
  | cons name names ih =>
    obtain ⟨hn, hr⟩ := List.nodup_cons.1 ho
    obtain ⟨hb, hc⟩ := ih hr
      (saturatingAdd bytes (if counts name - 1 = 0 then (sizes name).getD 0 else 0))
      (Function.update counts name (counts name - 1))
    have hf : (names.filter fun other =>
        Function.update counts name (counts name - 1) other - 1 = 0) =
        names.filter fun other => counts other - 1 = 0 := by
      apply List.filter_congr
      intro other ht
      have hne : other ≠ name := fun heq => hn (heq ▸ ht)
      rw [Function.update_of_ne hne]
    rw [hf] at hb
    refine ⟨?_, ?_⟩
    · rw [List.foldl_cons, hb, List.filter_cons]
      have hs := min_saturatingAdd bytes (if counts name - 1 = 0 then (sizes name).getD 0 else 0)
      split_ifs at hs ⊢ with hz <;>
        simp only [List.map_cons, List.sum_cons, decide_eq_true_eq] at * <;> omega
    · rw [List.foldl_cons, hc]
      funext other
      by_cases heq : other = name
      · subst heq
        simp [hn]
      · simp [heq]

theorem removePublicationBytes_spec (entries : Fin n → Entry) (h : i ∉ gone) :
    min (removePublicationBytes (payloadSizes entries) (entries i) (countsWithout entries gone)).1
        u64Max =
        min (freedBytes entries (insert i gone) - freedBytes entries gone) u64Max ∧
      (removePublicationBytes (payloadSizes entries) (entries i) (countsWithout entries gone)).2 =
        countsWithout entries (insert i gone) := by
  obtain ⟨hb, hc⟩ := removePayloads_spec (payloadSizes entries)
    (payloadNames_nodup (entries i)) (entries i).narinfoBytes (countsWithout entries gone)
  have hl : (payloadNames (entries i)).filter (fun name =>
      countsWithout entries gone name - 1 = 0) =
      (payloadNames (entries i)).filter fun name =>
        name ∉ used (payloadsOf entries) (insert i gone)ᶜ := by
    apply List.filter_congr
    intro name hn
    rw [decide_eq_decide, ← countsWithout_eq_zero, countsWithout_insert h, if_pos hn]
  have hu : (((payloadNames (entries i)).filter fun name =>
      countsWithout entries gone name - 1 = 0).map fun name =>
        (payloadSizes entries name).getD 0).sum =
      ∑ name ∈ (payloadsOf entries i).filter fun name =>
        name ∉ used (payloadsOf entries) (insert i gone)ᶜ, payloadSize entries name := by
    have hs : ((payloadNames (entries i)).filter fun name =>
        name ∉ used (payloadsOf entries) (insert i gone)ᶜ).toFinset =
        (payloadsOf entries i).filter fun name =>
          name ∉ used (payloadsOf entries) (insert i gone)ᶜ := by
      ext name
      simp only [List.mem_toFinset, List.mem_filter, decide_eq_true_eq, Finset.mem_filter,
        mem_payloadsOf]
    rw [hl, ← hs, List.sum_toFinset _ ((payloadNames_nodup (entries i)).filter _)]
    rfl
  refine ⟨?_, ?_⟩
  · rw [freedBytes, freedBytes, freed_insert h, Nat.add_sub_cancel_left, ← hu]
    exact hb
  · refine hc.trans ?_
    funext name
    exact (countsWithout_insert h).symm

theorem removePublicationBytes_le (h : entry.narinfoBytes ≤ u64Max)
    (sizes : NarFileName → Option ℕ) (counts : Counts) :
    (removePublicationBytes sizes entry counts).1 ≤ u64Max := by
  unfold removePublicationBytes
  generalize payloadNames entry = names
  generalize entry.narinfoBytes = bytes at h
  induction names generalizing bytes counts with
  | nil => exact h
  | cons name names ih =>
    rw [List.foldl_cons]
    apply ih
    unfold saturatingAdd
    omega

theorem totalBytes_eq_heldBytes : totalBytes entries = heldBytes entries Finset.univ := by
  have hn : ((List.finRange n).flatMap fun i => payloadNames (entries i)).dedup.toFinset =
      used (payloadsOf entries) Finset.univ := by
    ext name
    simp [mem_used, mem_payloadsOf]
  rw [totalBytes, heldBytes, weight, ← hn, List.sum_toFinset _ (List.nodup_dedup _),
    ← List.sum_toFinset _ (List.nodup_finRange n), List.toFinset_finRange]
  rfl

theorem freedBytes_mono (entries : Fin n → Entry) (h : gone ⊆ more) :
    freedBytes entries gone ≤ freedBytes entries more := freed_mono h

end Publications

theorem sub_eq_of_min_eq (h : min a u64Max = min b u64Max)
    (hf : remaining ≤ u64Max) : remaining - a = remaining - b := by
  omega

end FlatAccounting
