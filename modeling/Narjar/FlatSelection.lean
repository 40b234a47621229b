import Narjar.FlatAccounting
import Narjar.GreedyEviction

/-!
# The selection of a flat collection

The candidates are sorted by reason, instant and name, and taken from the front while there is a
reason. What is taken is the shortest such run: all that are over age, and then as many as the
pressure asks for.
-/
namespace FlatSelection

open NarFormat FlatCollection FlatAccounting GreedyEviction

def publicationsIn {n m : ℕ} (chosen : List (FlatCandidate n m)) : List (Fin n) :=
  chosen.filterMap fun
    | .publication i => some i
    | .orphan _ => none

def orphansIn {n m : ℕ} (chosen : List (FlatCandidate n m)) : List (Fin m) :=
  chosen.filterMap fun
    | .publication _ => none
    | .orphan i => some i

def candidates (n m : ℕ) : List (FlatCandidate n m) :=
  (List.finRange n).map FlatCandidate.publication ++ (List.finRange m).map FlatCandidate.orphan

section Policy

variable (policy : RetentionPolicy)

def oldEnough (modified : ℕ) : Bool := policy.minAge ≤ policy.now - modified

def overAge (modified : ℕ) : Bool :=
  policy.maxAge.any fun maxAge => maxAge ≤ policy.now - modified

def exceedsTarget (remaining : ℕ) : Bool :=
  policy.pressureTarget.any fun target => target < remaining

variable {policy}

theorem reason_isSome (policy : RetentionPolicy) (modified remaining : ℕ) (isProtected : Bool) :
    (policy.reason modified isProtected remaining).isSome =
      ((!isProtected && oldEnough policy modified) &&
        (overAge policy modified || exceedsTarget policy remaining)) := by
  rw [RetentionPolicy.reason, oldEnough, overAge, exceedsTarget]
  by_cases ho : isProtected = true ∨ policy.now - modified < policy.minAge
  · rw [if_pos ho]
    rcases ho with hp | hy
    · simp [hp]
    · simp [hy]
  · rw [if_neg ho]
    push Not at ho
    split_ifs <;> simp_all

theorem reason_maximumAge :
    policy.reason modified isProtected remaining = some .maximumAge ↔
      isProtected = false ∧ oldEnough policy modified = true ∧ overAge policy modified = true := by
  rw [RetentionPolicy.reason, oldEnough, overAge]
  by_cases ho : isProtected = true ∨ policy.now - modified < policy.minAge
  · rw [if_pos ho]
    rcases ho with hp | hy
    · simp [hp]
    · simp [hy]
  · rw [if_neg ho]
    push Not at ho
    split_ifs <;> simp_all

theorem evictionKey_rank (lastUse : ℕ) :
    (policy.evictionKey modified lastUse).1.rank =
      if oldEnough policy modified && overAge policy modified then 0 else 1 := by
  rw [RetentionPolicy.evictionKey]
  by_cases ha : oldEnough policy modified = true ∧ overAge policy modified = true
  · rw [reason_maximumAge.2 ⟨rfl, ha⟩]
    simp [ha, CollectionReason.rank]
  · have hn : policy.reason modified false 0 ≠ some .maximumAge :=
      fun h => ha (reason_maximumAge.1 h).2
    rw [if_neg (by simpa using ha)]
    split
    · exact absurd ‹_› hn
    · rfl
    · rfl

end Policy

section Order

variable {n m : ℕ} (entries : Fin n → Entry) (orphans : Fin m → Orphan)
  (policy : RetentionPolicy) (orphanLastUse : Orphan → ℕ)

instance : Std.Total (FlatCandidate.Precedes entries orphans policy orphanLastUse) where
  total a b := by
    simp only [FlatCandidate.Precedes]
    rcases Nat.lt_trichotomy _ _ with hrank | hrank | hrank
    · exact .inl (.inl hrank)
    · rcases Nat.lt_trichotomy _ _ with htime | htime | htime
      · exact .inl (.inr ⟨hrank, .inl htime⟩)
      · rcases List.le_total (a.name entries orphans) (b.name entries orphans) with hname | hname
        · exact .inl (.inr ⟨hrank, .inr ⟨htime, hname⟩⟩)
        · exact .inr (.inr ⟨hrank.symm, .inr ⟨htime.symm, hname⟩⟩)
      · exact .inr (.inr ⟨hrank.symm, .inl htime⟩)
    · exact .inr (.inl hrank)

instance : IsTrans (FlatCandidate n m)
    (FlatCandidate.Precedes entries orphans policy orphanLastUse) where
  trans a b c hab hbc := by
    simp only [FlatCandidate.Precedes] at hab hbc ⊢
    rcases hab with hrank | ⟨hrank, hab⟩
    · left
      omega
    · rcases hbc with hrank' | ⟨hrank', hbc⟩
      · left
        omega
      · refine .inr ⟨hrank.trans hrank', ?_⟩
        rcases hab with htime | ⟨htime, hname⟩
        · left
          omega
        · rcases hbc with htime' | ⟨htime', hname'⟩
          · left
            omega
          · exact .inr ⟨htime.trans htime', List.le_trans hname hname'⟩

end Order

section Selection

variable {n m : ℕ} (entries : Fin n → Entry) (orphans : Fin m → Orphan)
  (policy : RetentionPolicy) (protectsOrphan : Orphan → Bool)

def eligibleCandidates : List (FlatCandidate n m) :=
  (candidates n m).filter fun candidate =>
    !candidate.protected_ entries orphans protectsOrphan &&
      oldEnough policy (candidate.modified entries orphans)

def candidateOverAge (candidate : FlatCandidate n m) : Bool :=
  overAge policy (candidate.modified entries orphans)

def freedByCandidates (gone : List (FlatCandidate n m)) : ℕ :=
  freedBytes entries (publicationsIn gone).toFinset +
    ((orphansIn gone).map fun i => (orphans i).bytes).sum

def targetExceeded (currentBytes : ℕ) (gone : List (FlatCandidate n m)) : Bool :=
  exceedsTarget policy (currentBytes - freedByCandidates entries orphans gone)

variable {entries orphans policy protectsOrphan} {currentBytes : ℕ}

theorem publicationsIn_nil : (publicationsIn ([] : List (FlatCandidate n m))).toFinset = ∅ := rfl

theorem freedByCandidates_nil : freedByCandidates entries orphans [] = 0 :=
  congrArg (· + 0) SharedHoldings.freed_empty

theorem freedByCandidates_append_le (entries : Fin n → Entry) (orphans : Fin m → Orphan)
    (gone more : List (FlatCandidate n m)) :
    freedByCandidates entries orphans gone ≤ freedByCandidates entries orphans (gone ++ more) := by
  have hs : (publicationsIn gone).toFinset ⊆ (publicationsIn (gone ++ more)).toFinset := by
    intro i hi
    rw [publicationsIn, List.filterMap_append, List.toFinset_append]
    exact Finset.mem_union_left _ hi
  have hu : ((orphansIn (gone ++ more)).map fun i => (orphans i).bytes).sum =
      ((orphansIn gone).map fun i => (orphans i).bytes).sum +
        ((orphansIn more).map fun i => (orphans i).bytes).sum := by
    rw [orphansIn, List.filterMap_append, List.map_append, List.sum_append]
    rfl
  have hp := freedBytes_mono entries hs
  rw [freedByCandidates, freedByCandidates, hu]
  omega

theorem targetExceeded_relieved (entries : Fin n → Entry) (orphans : Fin m → Orphan)
    (policy : RetentionPolicy) (currentBytes : ℕ) :
    Relieved (targetExceeded entries orphans policy currentBytes) := by
  intro gone more hm
  have hf := freedByCandidates_append_le entries orphans gone more
  rw [targetExceeded, exceedsTarget, Option.any_eq_false_iff_get] at hm ⊢
  intro hs
  have ht := hm hs
  simp only [decide_eq_false_iff_not, not_lt] at ht ⊢
  omega

variable (entries orphans) in
def removeCandidate (counts : Counts) : FlatCandidate n m → ℕ × Counts
  | .publication i => removePublicationBytes (payloadSizes entries) (entries i) counts
  | .orphan i => ((orphans i).bytes, counts)

theorem remove_candidate (entries : Fin n → Entry) (orphans : Fin m → Orphan) (hf : currentBytes ≤ u64Max) (hn : candidate ∉ gone) :
    let removed := removeCandidate entries orphans
      (countsWithout entries (publicationsIn gone).toFinset) candidate
    removed.2 = countsWithout entries (publicationsIn (gone ++ [candidate])).toFinset ∧
      currentBytes - freedByCandidates entries orphans gone - removed.1 =
        currentBytes - freedByCandidates entries orphans (gone ++ [candidate]) := by
  cases candidate with
  | publication i =>
    have ht : i ∉ (publicationsIn gone).toFinset := by
      rw [List.mem_toFinset, publicationsIn, List.mem_filterMap]
      rintro ⟨other, hh, heq⟩
      cases other with
      | publication j =>
        obtain rfl := Option.some.inj heq
        exact hn hh
      | orphan j => cases heq
    have hp : (publicationsIn (gone ++ [.publication i])).toFinset =
        insert i (publicationsIn gone).toFinset := by
      ext j
      simp [publicationsIn]
    have ho : orphansIn (gone ++ [.publication i]) = orphansIn gone := by
      simp [orphansIn]
    obtain ⟨hb, hc⟩ := removePublicationBytes_spec entries ht
    have hm := freedBytes_mono entries (Finset.subset_insert i (publicationsIn gone).toFinset)
    refine ⟨by rw [hp]; exact hc, ?_⟩
    rw [removeCandidate, sub_eq_of_min_eq hb (by omega), freedByCandidates, freedByCandidates, hp,
      ho]
    omega
  | orphan i =>
    have hp : publicationsIn (gone ++ [.orphan i]) = publicationsIn gone := by
      simp [publicationsIn]
    have ho : ((orphansIn (gone ++ [.orphan i])).map fun i => (orphans i).bytes).sum =
        ((orphansIn gone).map fun i => (orphans i).bytes).sum + (orphans i).bytes := by
      simp [orphansIn]
    refine ⟨by rw [hp]; rfl, ?_⟩
    rw [removeCandidate, freedByCandidates, freedByCandidates, hp, ho]
    omega

/-- The loop with its running totals decides by what has gone. -/
theorem evict_eq (hf : currentBytes ≤ u64Max) (gone order : List (FlatCandidate n m))
    (hn : (gone ++ order).Nodup)
    (hl : ∀ candidate ∈ order, oldEnough policy (candidate.modified entries orphans) = true) :
    FlatCollection.evict entries orphans policy order
        (currentBytes - freedByCandidates entries orphans gone)
        (countsWithout entries (publicationsIn gone).toFinset) =
      GreedyEviction.evict (candidateOverAge entries orphans policy)
        (targetExceeded entries orphans policy currentBytes) gone order := by
  induction order generalizing gone with
  | nil => rfl
  | cons candidate order ih =>
    obtain ⟨hc, he⟩ := List.forall_mem_cons.1 hl
    have hr := reason_isSome policy (candidate.modified entries orphans)
      (currentBytes - freedByCandidates entries orphans gone) false
    rw [hc, Bool.not_false, Bool.true_and, Bool.true_and] at hr
    rw [FlatCollection.evict.eq_def, GreedyEviction.evict, candidateOverAge, targetExceeded, ← hr]
    dsimp only
    cases hs : policy.reason (candidate.modified entries orphans) false
        (currentBytes - freedByCandidates entries orphans gone) with
    | none =>
      refine ih gone (hn.sublist ?_) he
      exact List.Sublist.append_left (List.sublist_cons_self _ _) _
    | some reason =>
      have hw : candidate ∉ gone :=
        fun hm => (List.disjoint_of_nodup_append hn) hm List.mem_cons_self
      obtain ⟨ho, ha⟩ := remove_candidate entries orphans hf hw
      simp only [Option.isSome_some, if_true]
      rw [← ih (gone ++ [candidate]) (by simpa using hn) he, ← ho, ← ha]
      rfl

theorem precedes_overAge
    (hab : FlatCandidate.Precedes entries orphans policy orphanLastUse a b)
    (ho : oldEnough policy (b.modified entries orphans) = true)
    (ha : candidateOverAge entries orphans policy b = true) :
    candidateOverAge entries orphans policy a = true := by
  rw [candidateOverAge] at ha
  have hr : (policy.evictionKey (a.modified entries orphans)
      (a.lastUse entries orphans orphanLastUse)).1.rank ≤
      (policy.evictionKey (b.modified entries orphans)
        (b.lastUse entries orphans orphanLastUse)).1.rank := by
    rcases hab with hlt | ⟨heq, -⟩
    · exact hlt.le
    · exact heq.le
  rw [evictionKey_rank, evictionKey_rank, ho, ha, Bool.and_self, if_pos rfl] at hr
  by_cases hf : (oldEnough policy (a.modified entries orphans) &&
      overAge policy (a.modified entries orphans)) = true
  · exact (Bool.and_eq_true_iff.1 hf).2
  · rw [if_neg hf] at hr
    omega

theorem precedes_of_overAge
    (ho : oldEnough policy (a.modified entries orphans) = true)
    (ha : candidateOverAge entries orphans policy a = true)
    (hy : candidateOverAge entries orphans policy b = false) :
    FlatCandidate.Precedes entries orphans policy orphanLastUse a b := by
  left
  rw [candidateOverAge] at ha hy
  rw [evictionKey_rank, evictionKey_rank, ho, ha, hy]
  simp

theorem candidates_nodup (n m : ℕ) : (candidates n m).Nodup := by
  refine List.nodup_append.2 ⟨?_, ?_, ?_⟩
  · exact (List.nodup_finRange n).map fun _ _ => FlatCandidate.publication.inj
  · exact (List.nodup_finRange m).map fun _ _ => FlatCandidate.orphan.inj
  · intro a ha b hb heq
    obtain ⟨i, -, rfl⟩ := List.mem_map.1 ha
    obtain ⟨j, -, rfl⟩ := List.mem_map.1 hb
    cases heq

theorem mem_eligibleCandidates
    (h : candidate ∈ eligibleCandidates entries orphans policy protectsOrphan) :
    oldEnough policy (candidate.modified entries orphans) = true :=
  (Bool.and_eq_true_iff.1 (List.mem_filter.1 h).2).2

theorem sorted_candidates (currentBytes : ℕ) :
    (candidates n m).filter (fun candidate => (policy.reason (candidate.modified entries orphans)
          (candidate.protected_ entries orphans protectsOrphan) currentBytes).isSome) =
      (eligibleCandidates entries orphans policy protectsOrphan).filter fun candidate =>
        candidateOverAge entries orphans policy candidate ||
          targetExceeded entries orphans policy currentBytes [] := by
  rw [eligibleCandidates, List.filter_filter]
  apply List.filter_congr
  intro candidate _
  rw [reason_isSome, targetExceeded, freedByCandidates_nil, Nat.sub_zero, candidateOverAge, Bool.and_comm]

end Selection

/-- A flat selection is the shortest run of the eligible candidates in the order of eviction: all
that are over age before any other, each other one taken while the bytes left exceeded the
target, and no end before the target is met, the candidates are exhausted or the budget is
used. -/
theorem selectFlatCandidates_shortest {n m : ℕ} (entries : Fin n → Entry) (orphans : Fin m → Orphan)
    (currentBytes : UInt64) (policy : RetentionPolicy) (protectsOrphan : Orphan → Bool)
    (orphanLastUse : Orphan → ℕ) :
    ∃ order chosen : List (FlatCandidate n m),
      order.Perm (eligibleCandidates entries orphans policy protectsOrphan) ∧
      order.Pairwise (FlatCandidate.Precedes entries orphans policy orphanLastUse) ∧
      chosen.Nodup ∧
      selectFlatCandidates entries orphans currentBytes.toNat policy protectsOrphan orphanLastUse =
        ⟨publicationsIn chosen, orphansIn chosen⟩ ∧
      Shortest (candidateOverAge entries orphans policy)
        (targetExceeded entries orphans policy currentBytes.toNat) order chosen
        (policy.budget.remainingDeletions 0) := by
  have ht := limit_le_u64Max currentBytes
  obtain ⟨order, hp, ho, hi, hf, he⟩ := exists_order
    (FlatCandidate.Precedes entries orphans policy orphanLastUse)
    (candidateOverAge entries orphans policy)
    (eligibleCandidates entries orphans policy protectsOrphan)
    (targetExceeded_relieved entries orphans policy currentBytes.toNat)
    (fun _ _ _ hb hab => precedes_overAge hab (mem_eligibleCandidates hb))
    (fun _ ha _ _ => precedes_of_overAge (mem_eligibleCandidates ha))
  have hn := hp.nodup_iff.2 ((candidates_nodup n m).filter _)
  have hs := evict_shortest (targetExceeded entries orphans policy currentBytes.toNat) hi
    (policy.budget.remainingDeletions 0)
  refine ⟨order, _, hp, ho, hn.sublist hs.first.sublist, ?_, hs⟩
  have hl := evict_eq ht []
    (((eligibleCandidates entries orphans policy protectsOrphan).filter fun candidate =>
      candidateOverAge entries orphans policy candidate ||
        targetExceeded entries orphans policy currentBytes.toNat []).insertionSort
      (FlatCandidate.Precedes entries orphans policy orphanLastUse))
    (hn.sublist hf.sublist) fun candidate hc => mem_eligibleCandidates (hp.mem_iff.1 (hf.subset hc))
  rw [freedByCandidates_nil, Nat.sub_zero, publicationsIn_nil,
    ← referenceCounts_eq_countsWithout] at hl
  rw [← he, ← hl, selectFlatCandidates, ← candidates, sorted_candidates]
  rfl

end FlatSelection
