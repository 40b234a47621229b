import Narjar.CollectionCoordinator
import Narjar.LabelledRuns

/-!
# Interleavings of readers, mutations and a collection pass

The leases that are out, the clock and the collection pass next to the shared activity. The
counters of the activity always agree with the leases, and a pass that is allowed to delete
has raced with nobody.
-/
namespace CollectionSafety

open CollectionCoordinator LabelledRuns ObjectNames List

/-- Where the collection pass stands. The selection is made under the protection of the
snapshot, which is not refreshed afterwards. -/
inductive Collector where
  | idle
  | scanning (snapshot : CollectionSnapshot)
  | selected (snapshot : CollectionSnapshot) (retiring : ObjectSelection)
  | deleting (retiring : ObjectSelection)

structure System where
  activity : Activity
  clock : ℕ
  leases : List ActivityLease
  collector : Collector

def System.initial (now : ℕ) : System := ⟨.new now, now, [], .idle⟩

inductive Label where
  | tick (clock : ℕ)
  | mutation
  | mutationFailed
  | reader (object : ProtectedObject)
  | readerRefused (object : ProtectedObject)
  | advertise (store : StoreHash) (now : ℕ)
  | protect (object : ProtectedObject) (now : ℕ)
  | release (lease : ActivityLease) (now : ℕ)
  | takeSnapshot (now : ℕ)
  | snapshotRefused
  | refresh
  | select (retiring : ObjectSelection)
  | authorize (retiring : ObjectSelection)
  | abandon
  | finish

/-- The step protects `object` from the instant `now`, as an advertisement or as the result of
a mutation. -/
def Label.Advertises (object : ProtectedObject) (now : ℕ) : Label → Prop
  | .advertise store instant => object = .publication store ∧ now = instant
  | .protect other instant => object = other ∧ now = instant
  | .release lease instant => lease.advertisement = some object ∧ now = instant
  | _ => False

/-- One critical section, or time passing. A new mutation waits while objects are deleted;
advertising and dropping a lease read the clock inside the lock, `protect` and `snapshot`
before it. Only mutations call `protect`. -/
inductive Step : System → Label → System → Prop
  | tick {s : System} {clock : ℕ} (later : s.clock ≤ clock) :
    Step s (.tick clock) { s with clock := clock }
  | mutation {s : System} {lease : ActivityLease} {a : Activity}
      (waited : ∀ retiring, s.activity.phase ≠ .deleting retiring)
      (admitted : s.activity.mutation = (.ok lease, a)) :
    Step s .mutation { s with activity := a, leases := lease :: s.leases }
  | mutationFailed {s : System} {error : StorageError} {a : Activity}
      (waited : ∀ retiring, s.activity.phase ≠ .deleting retiring)
      (failed : s.activity.mutation = (.error error, a)) :
    Step s .mutationFailed { s with activity := a }
  | reader {s : System} {object : ProtectedObject} {lease : ActivityLease} {a : Activity}
      (admitted : s.activity.reader object = (.ok (some lease), a)) :
    Step s (.reader object) { s with activity := a, leases := lease :: s.leases }
  | readerRefused {s : System} {object : ProtectedObject} {a : Activity}
      (refused : ∀ lease, s.activity.reader object ≠ (.ok (some lease), a))
      (left : (s.activity.reader object).2 = a) :
    Step s (.readerRefused object) { s with activity := a }
  | advertise {s : System} {lease renewed : ActivityLease} {store : StoreHash} {a : Activity}
      (held : lease ∈ s.leases) (renews : s.activity.advertise lease store s.clock = (renewed, a)) :
    Step s (.advertise store s.clock)
      { s with activity := a, leases := renewed :: s.leases.erase lease }
  | protect {s : System} {lease : ActivityLease} {object : ProtectedObject} {now : ℕ}
      (held : lease ∈ s.leases) (mutates : lease.kind = .mutation) (seen : now ≤ s.clock) :
    Step s (.protect object now) { s with activity := s.activity.protect object now }
  | release {s : System} {lease : ActivityLease} (held : lease ∈ s.leases) :
    Step s (.release lease s.clock)
      { s with activity := s.activity.release lease s.clock, leases := s.leases.erase lease }
  | takeSnapshot {s : System} {now : ℕ} {snapshot : CollectionSnapshot} {a : Activity}
      (seen : now ≤ s.clock)
      (taken : s.activity.snapshotAt now = (.ok snapshot, a)) :
    Step s (.takeSnapshot now) { s with activity := a, collector := .scanning snapshot }
  | snapshotRefused {s : System} {now : ℕ} {error : StorageError} {a : Activity}
      (refused : s.activity.snapshotAt now = (.error error, a)) :
    Step s .snapshotRefused { s with activity := a }
  | refresh {s : System} {snapshot : CollectionSnapshot} (scans : s.collector = .scanning snapshot) :
    Step s .refresh
      { s with collector := .scanning (s.activity.refreshReadProtection snapshot) }
  | select {s : System} {snapshot : CollectionSnapshot} {retiring : ObjectSelection}
      (scans : s.collector = .scanning snapshot) :
    Step s (.select retiring) { s with collector := .selected snapshot retiring }
  | authorize {s : System} {snapshot : CollectionSnapshot} {retiring : ObjectSelection}
      {a : Activity} (chosen : s.collector = .selected snapshot retiring)
      (granted : s.activity.authorizeRetirement snapshot retiring = (.ok (), a)) :
    Step s (.authorize retiring) { s with activity := a, collector := .deleting retiring }
  | abandon {s : System} {snapshot : CollectionSnapshot}
      (open_ : s.collector = .scanning snapshot ∨
        ∃ retiring, s.collector = .selected snapshot retiring) :
    Step s .abandon { s with activity := s.activity.endCollection, collector := .idle }
  | finish {s : System} {retiring : ObjectSelection} (deletes : s.collector = .deleting retiring) :
    Step s .finish { s with activity := s.activity.endCollection, collector := .idle }

section Inversions

variable {a a' : Activity} {lease : ActivityLease} {object : ProtectedObject} {error : StorageError}

theorem mutation_ok (h : a.mutation = (.ok lease, a')) :
    lease = ⟨.mutation, none⟩ ∧
      a' = { a with generation := a.generation + 1, mutations := a.mutations + 1 } := by
  unfold Activity.mutation Activity.admitActivity at h
  simp only at h
  split_ifs at h
  · obtain ⟨hl, rfl⟩ := Prod.mk.inj h
    exact ⟨(Except.ok.inj hl).symm, rfl⟩
  · cases (Prod.mk.inj h).1
  · cases (Prod.mk.inj h).1

theorem mutation_error (h : a.mutation = (.error error, a')) :
    a' = a ∨ a' = { a with generation := a.generation + 1 } := by
  unfold Activity.mutation Activity.admitActivity at h
  simp only at h
  split_ifs at h
  · cases (Prod.mk.inj h).1
  · exact .inr (Prod.mk.inj h).2.symm
  · exact .inl (Prod.mk.inj h).2.symm

theorem reader_ok (h : a.reader object = (.ok (some lease), a')) :
    ¬a.IsRetiring object ∧ lease = ⟨.reader object, none⟩ ∧
      a' = { a with readers := object ::ₘ a.readers } := by
  unfold Activity.reader Activity.admitActivity at h
  simp only at h
  split_ifs at h with hr ho
  · cases (Prod.mk.inj h).1
  · obtain ⟨hl, rfl⟩ := Prod.mk.inj h
    exact ⟨hr, (Option.some.inj (Except.ok.inj hl)).symm, rfl⟩
  · cases (Prod.mk.inj h).1

theorem reader_refused (h : ∀ lease, a.reader object ≠ (.ok (some lease), a'))
    (hl : (a.reader object).2 = a') : a' = a := by
  rw [← hl] at h ⊢
  unfold Activity.reader Activity.admitActivity at h ⊢
  simp only at h ⊢
  by_cases hr : a.IsRetiring object
  · rw [if_pos hr]
  · rw [if_neg hr] at h ⊢
    split_ifs at h ⊢
    · exact absurd rfl (h ⟨.reader object, none⟩)
    · rfl

variable {now : ℕ} {snapshot : CollectionSnapshot}

theorem snapshotAt_ok (h : a.snapshotAt now = (.ok snapshot, a')) :
    a.phase = .idle ∧ a.mutations = 0 ∧ snapshot.generation = a.generation ∧
      snapshot.protectAllUntil = a.protectAllUntil ∧
      (snapshot.protection = .all ∨ a.protectAllUntil ≤ now ∧
        snapshot.protection = .objects (a.recent.retain now).keys.toFinset) ∧
      a' = { a with recent := a.recent.retain now, phase := .scanning } := by
  unfold Activity.snapshotAt at h
  by_cases hb : a.phase ≠ .idle ∨ a.mutations ≠ 0
  · rw [if_pos hb] at h
    cases (Prod.mk.inj h).1
  · rw [if_neg hb] at h
    push Not at hb
    obtain ⟨hs, rfl⟩ := Prod.mk.inj h
    cases Except.ok.inj hs
    refine ⟨hb.1, hb.2, rfl, rfl, ?_, rfl⟩
    by_cases ha : now < a.protectAllUntil
    · exact .inl (if_pos ha)
    · refine .inr ⟨by omega, ?_⟩
      simp only [if_neg ha, RecentObjects.retain, RecentObjects.keys, filter_filter, Bool.and_self]

theorem snapshotAt_error (h : a.snapshotAt now = (.error error, a')) : a' = a := by
  unfold Activity.snapshotAt at h
  by_cases hb : a.phase ≠ .idle ∨ a.mutations ≠ 0
  · rw [if_pos hb] at h
    exact (Prod.mk.inj h).2.symm
  · rw [if_neg hb] at h
    cases (Prod.mk.inj h).1

theorem authorizeRetirement_ok
    (h : a.authorizeRetirement snapshot retiring = (.ok (), a')) :
    a.mutations = 0 ∧ ¬a.RetiringObjectHasAReader retiring ∧
      a.generation = snapshot.generation ∧
      ¬a.RetiringObjectGainedProtection retiring snapshot ∧
      a' = { a with phase := .deleting retiring } := by
  unfold Activity.authorizeRetirement at h
  split_ifs at h with hb hc
  · cases (Prod.mk.inj h).1
  · cases (Prod.mk.inj h).1
  · push Not at hb hc
    exact ⟨hb.1, hb.2, hc.1, hc.2, (Prod.mk.inj h).2.symm⟩

end Inversions

def leasedMutations (leases : List ActivityLease) : ℕ :=
  leases.countP fun lease => lease.kind = .mutation

def readObject (lease : ActivityLease) : Option ProtectedObject :=
  match lease.kind with
  | .mutation => none
  | .reader object => some object

def leasedObjects (leases : List ActivityLease) : Multiset ProtectedObject :=
  leases.filterMap readObject

section Leases

variable {leases : List ActivityLease} {lease renewed : ActivityLease} {object : ProtectedObject}

theorem leasedMutations_cons_mutation (h : lease.kind = .mutation) :
    leasedMutations (lease :: leases) = leasedMutations leases + 1 :=
  countP_cons_of_pos (by simpa using h)

theorem leasedMutations_cons_reader (h : lease.kind = .reader object) :
    leasedMutations (lease :: leases) = leasedMutations leases := countP_cons_of_neg (by simp [h])

theorem leasedObjects_cons_mutation (h : lease.kind = .mutation) :
    leasedObjects (lease :: leases) = leasedObjects leases := by
  rw [leasedObjects, leasedObjects, filterMap_cons_none]
  rw [readObject, h]

theorem leasedObjects_cons_reader (h : lease.kind = .reader object) :
    leasedObjects (lease :: leases) = object ::ₘ leasedObjects leases := by
  have ho : readObject lease = some object := by rw [readObject, h]
  rw [leasedObjects, leasedObjects, filterMap_cons_some ho, Multiset.cons_coe]

theorem leasedMutations_renew (held : lease ∈ leases) (hk : renewed.kind = lease.kind) :
    leasedMutations (renewed :: leases.erase lease) = leasedMutations leases := by
  have hp : leasedMutations leases = leasedMutations (lease :: leases.erase lease) :=
    (perm_cons_erase held).countP_eq _
  rw [hp]
  cases hl : lease.kind with
  | mutation =>
    rw [leasedMutations_cons_mutation hl, leasedMutations_cons_mutation (hk.trans hl)]
  | reader object =>
    rw [leasedMutations_cons_reader hl, leasedMutations_cons_reader (hk.trans hl)]

theorem leasedObjects_renew (held : lease ∈ leases) (hk : renewed.kind = lease.kind) :
    leasedObjects (renewed :: leases.erase lease) = leasedObjects leases := by
  have hp : leasedObjects leases = leasedObjects (lease :: leases.erase lease) :=
    Multiset.coe_eq_coe.2 ((perm_cons_erase held).filterMap _)
  rw [hp]
  cases hl : lease.kind with
  | mutation =>
    rw [leasedObjects_cons_mutation hl, leasedObjects_cons_mutation (hk.trans hl)]
  | reader object =>
    rw [leasedObjects_cons_reader hl, leasedObjects_cons_reader (hk.trans hl)]

theorem leasedMutations_eq_zero :
    leasedMutations leases = 0 ↔ ∀ lease ∈ leases, lease.kind ≠ .mutation := by
  rw [leasedMutations, countP_eq_zero]
  simp

theorem mem_leasedObjects :
    object ∈ leasedObjects leases ↔ ∃ lease ∈ leases, lease.kind = .reader object := by
  rw [leasedObjects, Multiset.mem_coe, mem_filterMap]
  constructor
  · rintro ⟨lease, hm, ho⟩
    refine ⟨lease, hm, ?_⟩
    unfold readObject at ho
    split at ho
    · cases ho
    · rename_i hk
      rw [hk, Option.some.inj ho]
  · rintro ⟨lease, hm, hk⟩
    exact ⟨lease, hm, by rw [readObject, hk]⟩

end Leases

def Collector.phase : Collector → CollectionPhase
  | .idle => .idle
  | .scanning _ | .selected _ _ => .scanning
  | .deleting retiring => .deleting retiring

/-- The counters agree with the leases, the phase with the pass, and nobody holds a lease that
a running deletion excludes. -/
structure Agrees (s : System) : Prop where
  mutations : s.activity.mutations = leasedMutations s.leases
  readers : s.activity.readers = leasedObjects s.leases
  phase : s.activity.phase = s.collector.phase
  quiet : ∀ retiring, s.collector = .deleting retiring →
    leasedMutations s.leases = 0 ∧ ∀ object ∈ leasedObjects s.leases, ¬retiring.Contains object

theorem initial_agrees (now : ℕ) : Agrees (System.initial now) :=
  ⟨rfl, rfl, rfl, fun _ h => by cases h⟩

variable {s s' u : System} {l : Label} {snapshot later : CollectionSnapshot}
variable {labels since : List Label} {a : Activity} {start now : ℕ} {object : ProtectedObject}
variable {leases : List ActivityLease} {retiring : ObjectSelection}

theorem Agrees.protect (h : Agrees s) (object : ProtectedObject) (now : ℕ) :
    Agrees { s with activity := s.activity.protect object now } := by
  refine ⟨?_, ?_, ?_, h.quiet⟩
  · rw [Activity.protect_mutations]
    exact h.mutations
  · rw [Activity.protect_readers]
    exact h.readers
  · rw [Activity.protect_phase]
    exact h.phase

theorem Agrees.drop (h : Agrees s) (held : lease ∈ s.leases)
    (hm : a.mutations = s.activity.mutations) (hr : a.readers = s.activity.readers)
    (hp : a.phase = s.activity.phase) :
    Agrees { s with
      activity := match lease.kind with
        | .mutation => { a with mutations := a.mutations - 1 }
        | .reader object => { a with readers := a.readers.erase object }
      leases := s.leases.erase lease } := by
  have hc := leasedMutations_renew held rfl
  have ho := leasedObjects_renew held rfl
  cases hk : lease.kind with
  | mutation =>
    rw [leasedMutations_cons_mutation hk] at hc
    rw [leasedObjects_cons_mutation hk] at ho
    refine ⟨?_, ?_, hp.trans h.phase, ?_⟩
    · simp only
      rw [hm, h.mutations]
      omega
    · simp only
      rw [hr, h.readers, ho]
    · intro retiring hd
      have hq := (h.quiet retiring hd).1
      omega
  | reader object =>
    rw [leasedMutations_cons_reader hk] at hc
    rw [leasedObjects_cons_reader hk] at ho
    refine ⟨?_, ?_, hp.trans h.phase, ?_⟩
    · simp only
      rw [hm, h.mutations, hc]
    · simp only
      rw [hr, h.readers, ← ho, Multiset.erase_cons_head]
    · intro retiring hd
      obtain ⟨hn, hq⟩ := h.quiet retiring hd
      rw [ho.symm] at hq
      exact ⟨hc.trans hn, fun other ht => hq other (Multiset.mem_cons_of_mem ht)⟩

theorem step_agrees (h : Agrees s) (step : Step s l s') : Agrees s' := by
  cases step with
  | tick => exact ⟨h.mutations, h.readers, h.phase, h.quiet⟩
  | @mutation lease a waited admitted =>
    obtain ⟨rfl, rfl⟩ := mutation_ok admitted
    refine ⟨?_, ?_, h.phase, ?_⟩
    · rw [leasedMutations_cons_mutation rfl, ← h.mutations]
    · rw [leasedObjects_cons_mutation rfl, ← h.readers]
    · intro retiring hd
      refine absurd ?_ (waited retiring)
      rw [h.phase, show s.collector = _ from hd, Collector.phase]
  | mutationFailed waited failed =>
    rcases mutation_error failed with rfl | rfl
    · exact h
    · exact ⟨h.mutations, h.readers, h.phase, h.quiet⟩
  | @reader object lease a admitted =>
    obtain ⟨hr, rfl, rfl⟩ := reader_ok admitted
    refine ⟨?_, ?_, h.phase, ?_⟩
    · rw [leasedMutations_cons_reader rfl, ← h.mutations]
    · rw [leasedObjects_cons_reader rfl, ← h.readers]
    · intro retiring hd
      obtain ⟨hn, hq⟩ := h.quiet retiring hd
      have hh : s.activity.phase = .deleting retiring := by
        rw [h.phase, show s.collector = _ from hd, Collector.phase]
      rw [leasedMutations_cons_reader rfl, leasedObjects_cons_reader rfl]
      refine ⟨hn, fun other ht => ?_⟩
      rcases Multiset.mem_cons.1 ht with rfl | hl
      · rwa [Activity.IsRetiring, hh] at hr
      · exact hq other hl
  | readerRefused refused left =>
    rw [reader_refused refused left]
    exact h
  | @advertise lease renewed store a held renews =>
    obtain ⟨rfl, rfl⟩ := Prod.mk.inj renews
    have hp := h.protect (.publication store) s.clock
    have hc := leasedMutations_renew held rfl
    have hb := leasedObjects_renew held rfl
    refine ⟨hp.mutations.trans hc.symm, hp.readers.trans hb.symm, hp.phase, ?_⟩
    intro retiring hd
    obtain ⟨hn, hq⟩ := h.quiet retiring hd
    exact ⟨hc.trans hn, fun object ho => hq object (hb ▸ ho)⟩
  | protect => exact h.protect _ _
  | @release lease held =>
    unfold Activity.release
    cases lease.advertisement with
    | none => exact h.drop held rfl rfl rfl
    | some object =>
      exact h.drop held (Activity.protect_mutations ..) (Activity.protect_readers ..)
        (Activity.protect_phase ..)
  | takeSnapshot seen taken =>
    obtain ⟨hi, -, -, -, -, rfl⟩ := snapshotAt_ok taken
    exact ⟨h.mutations, h.readers, rfl, fun _ hd => by cases hd⟩
  | snapshotRefused refused =>
    rw [snapshotAt_error refused]
    exact h
  | refresh scans | select scans =>
    refine ⟨h.mutations, h.readers, ?_, fun _ hd => by cases hd⟩
    rw [h.phase, scans]
    rfl
  | authorize chosen granted =>
    obtain ⟨hm, he, -, -, rfl⟩ := authorizeRetirement_ok granted
    refine ⟨h.mutations, h.readers, rfl, ?_⟩
    intro retiring hd
    cases hd
    rw [← h.mutations, ← h.readers]
    refine ⟨hm, fun object ho hr => he ⟨object, ho, hr⟩⟩
  | abandon | finish => exact ⟨h.mutations, h.readers, rfl, fun _ hd => by cases hd⟩

def System.HasSnapshot (s : System) (snapshot : CollectionSnapshot) : Prop :=
  s.collector = .scanning snapshot ∨ ∃ retiring, s.collector = .selected snapshot retiring

structure Refines (snapshot later : CollectionSnapshot) : Prop where
  generation : later.generation = snapshot.generation
  protectAllUntil : later.protectAllUntil = snapshot.protectAllUntil
  protection : ∀ object, snapshot.protection.Contains object → later.protection.Contains object

theorem Refines.refl (snapshot : CollectionSnapshot) : Refines snapshot snapshot :=
  ⟨rfl, rfl, fun _ h => h⟩

theorem refreshReadProtection_refines (a : Activity) (snapshot : CollectionSnapshot) :
    Refines snapshot (a.refreshReadProtection snapshot) := by
  refine ⟨rfl, rfl, fun object ho => ?_⟩
  unfold Activity.refreshReadProtection
  by_cases ha : snapshot.protectAllUntil < a.protectAllUntil
  · simp only [if_pos ha]
    exact ObjectSelection.contains_all object
  · simp only [if_neg ha]
    cases hp : snapshot.protection with
    | all => exact ObjectSelection.contains_all object
    | objects members =>
      rw [hp] at ho
      exact Finset.mem_union_left _ ho

structure StepFacts (s : System) (l : Label) (s' : System) : Prop where
  clock : s.clock ≤ s'.clock
  generation : s.activity.generation ≤ s'.activity.generation
  admitted : l = .mutation → s.activity.generation < s'.activity.generation
  protectAll : s.activity.protectAllUntil ≤ s'.activity.protectAllUntil
  covers : ∀ object until_, s.activity.recent.Covers object until_ →
    s.activity.phase = .scanning ∨ s'.clock < until_ → s'.activity.recent.Covers object until_
  mutating : leasedMutations s'.leases ≠ 0 → leasedMutations s.leases ≠ 0 ∨ l = .mutation
  advertised : ∀ object now, l.Advertises object now →
    (s'.activity.recent.Covers object (now + onlineGcGrace) ∨
      now + onlineGcGrace ≤ s'.activity.protectAllUntil) ∧
    (now = s.clock ∨ leasedMutations s.leases ≠ 0)
  snapshots : ∀ later, s'.HasSnapshot later →
    (∃ now, l = .takeSnapshot now) ∨ ∃ snapshot, s.HasSnapshot snapshot ∧ Refines snapshot later

theorem protect_facts (hl : l ≠ .mutation) (hr : a.recent = (s.activity.protect object now).recent)
    (ha : a.protectAllUntil = (s.activity.protect object now).protectAllUntil)
    (hg : a.generation = s.activity.generation)
    (hm : leasedMutations leases ≤ leasedMutations s.leases) (seen : now ≤ s.clock)
    (hd : ∀ other instant, l.Advertises other instant →
      other = object ∧ instant = now ∧ (now = s.clock ∨ leasedMutations s.leases ≠ 0)) :
    StepFacts s l { s with activity := a, leases := leases } := by
  refine ⟨le_rfl, hg.ge, fun h => absurd h hl, ?_, ?_, ?_, ?_, ?_⟩
  · rw [ha]
    exact Activity.protectAllUntil_le_protect _ _ _
  · intro other until_ hc hn
    rw [hr]
    apply Activity.covers_protect hc
    rcases hn with hs | he
    · exact .inl hs
    · exact .inr (seen.trans_lt he)
  · intro ho
    left
    simp only at ho
    omega
  · intro other instant h
    obtain ⟨rfl, rfl, ht⟩ := hd other instant h
    simp only [hr, ha]
    exact ⟨Activity.protect_covers _ _ _, ht⟩
  · intro later h
    exact .inr ⟨later, h, .refl later⟩

theorem plain_facts (hc : s.clock ≤ clock)
    (hg : s.activity.generation ≤ a.generation)
    (ha : l = .mutation → s.activity.generation < a.generation) (hr : a.recent = s.activity.recent)
    (hl : a.protectAllUntil = s.activity.protectAllUntil)
    (hm : leasedMutations leases ≤ leasedMutations s.leases ∨ l = .mutation)
    (hd : ∀ object now, ¬l.Advertises object now)
    (hs : ∀ later, (⟨a, clock, leases, collector⟩ : System).HasSnapshot later →
      ∃ snapshot, s.HasSnapshot snapshot ∧ Refines snapshot later) :
    StepFacts s l ⟨a, clock, leases, collector⟩ := by
  refine ⟨hc, hg, ha, hl.ge, ?_, ?_, ?_, ?_⟩
  · intro object until_ ho _
    simp only [hr]
    exact ho
  · intro he
    rcases hm with hle | hb
    · left
      simp only at he
      omega
    · exact .inr hb
  · intro object now h
    exact absurd h (hd object now)
  · intro later h
    exact .inr (hs later h)

theorem leasedMutations_erase_le (leases : List ActivityLease) (lease : ActivityLease) :
    leasedMutations (leases.erase lease) ≤ leasedMutations leases := erase_sublist.countP_le

theorem step_facts (step : Step s l s') : StepFacts s l s' := by
  cases step with
  | tick later =>
    exact plain_facts later le_rfl nofun rfl rfl (.inl le_rfl) (fun _ _ h => h)
      fun later h => ⟨later, h, .refl later⟩
  | mutation waited admitted =>
    obtain ⟨rfl, rfl⟩ := mutation_ok admitted
    exact plain_facts le_rfl (Nat.le_succ _) (fun _ => Nat.lt_succ_self _) rfl rfl (.inr rfl)
      (fun _ _ h => h) fun later h => ⟨later, h, .refl later⟩
  | mutationFailed waited failed =>
    rcases mutation_error failed with rfl | rfl
    · exact plain_facts le_rfl le_rfl nofun rfl rfl (.inl le_rfl) (fun _ _ h => h)
        fun later h => ⟨later, h, .refl later⟩
    · exact plain_facts le_rfl (Nat.le_succ _) nofun rfl rfl (.inl le_rfl) (fun _ _ h => h)
        fun later h => ⟨later, h, .refl later⟩
  | reader admitted =>
    obtain ⟨-, rfl, rfl⟩ := reader_ok admitted
    exact plain_facts le_rfl le_rfl nofun rfl rfl
      (.inl (leasedMutations_cons_reader rfl).le) (fun _ _ h => h)
      fun later h => ⟨later, h, .refl later⟩
  | readerRefused refused left =>
    rw [reader_refused refused left]
    exact plain_facts le_rfl le_rfl nofun rfl rfl (.inl le_rfl) (fun _ _ h => h)
      fun later h => ⟨later, h, .refl later⟩
  | @advertise lease renewed store a held renews =>
    obtain ⟨rfl, rfl⟩ := Prod.mk.inj renews
    refine protect_facts nofun rfl rfl (Activity.protect_generation ..)
      (leasedMutations_renew held rfl).le le_rfl ?_
    rintro other instant ⟨rfl, rfl⟩
    exact ⟨rfl, rfl, .inl rfl⟩
  | @protect lease object now held mutates seen =>
    refine protect_facts nofun rfl rfl (Activity.protect_generation ..) le_rfl seen ?_
    rintro other instant ⟨rfl, rfl⟩
    refine ⟨rfl, rfl, .inr ?_⟩
    intro hn
    exact leasedMutations_eq_zero.1 hn lease held mutates
  | @release lease held =>
    have hm := leasedMutations_erase_le s.leases lease
    unfold Activity.release
    cases ha : lease.advertisement with
    | none =>
      refine plain_facts le_rfl ?_ nofun ?_ ?_ (.inl hm) ?_ fun later h => ⟨later, h, .refl later⟩
      · cases lease.kind <;> exact le_rfl
      · cases lease.kind <;> rfl
      · cases lease.kind <;> rfl
      · rintro other instant ⟨ho, -⟩
        rw [ha] at ho
        cases ho
    | some object =>
      refine @protect_facts _ _ _ s.clock object _ nofun ?_ ?_ ?_ hm le_rfl ?_
      · cases lease.kind <;> rfl
      · cases lease.kind <;> rfl
      · cases lease.kind <;> exact Activity.protect_generation ..
      · rintro other instant ⟨ho, rfl⟩
        rw [ha] at ho
        exact ⟨(Option.some.inj ho).symm, rfl, .inl rfl⟩
  | @takeSnapshot now snapshot a seen taken =>
    obtain ⟨hi, -, -, -, -, rfl⟩ := snapshotAt_ok taken
    refine ⟨le_rfl, le_rfl, nofun, le_rfl, ?_, fun h => .inl h, fun _ _ h => h.elim,
      fun _ _ => .inl ⟨now, rfl⟩⟩
    intro object until_ hc hw
    rcases hw with hs | hl
    · rw [hi] at hs
      cases hs
    · exact hc.retain (seen.trans_lt hl)
  | snapshotRefused refused =>
    rw [snapshotAt_error refused]
    exact plain_facts le_rfl le_rfl nofun rfl rfl (.inl le_rfl) (fun _ _ h => h)
      fun later h => ⟨later, h, .refl later⟩
  | @refresh snapshot scans =>
    refine plain_facts le_rfl le_rfl nofun rfl rfl (.inl le_rfl) (fun _ _ h => h) ?_
    rintro later (h | ⟨retiring, h⟩)
    · cases h
      exact ⟨snapshot, .inl scans, refreshReadProtection_refines _ _⟩
    · cases h
  | @select snapshot retiring scans =>
    refine plain_facts le_rfl le_rfl nofun rfl rfl (.inl le_rfl) (fun _ _ h => h) ?_
    rintro later (h | ⟨_, h⟩)
    · cases h
    · cases h
      exact ⟨snapshot, .inl scans, .refl snapshot⟩
  | authorize chosen granted =>
    obtain ⟨-, -, -, -, rfl⟩ := authorizeRetirement_ok granted
    refine plain_facts le_rfl le_rfl nofun rfl rfl (.inl le_rfl) (fun _ _ h => h) ?_
    rintro later (h | ⟨_, h⟩) <;> cases h
  | abandon | finish =>
    refine plain_facts le_rfl le_rfl nofun rfl rfl (.inl le_rfl) (fun _ _ h => h) ?_
    rintro later (h | ⟨_, h⟩) <;> cases h

/-- What the activity still shows of the steps `since` the snapshot was taken. -/
structure Raced (since : List Label) (snapshot : CollectionSnapshot) (s : System) : Prop where
  generation : snapshot.generation ≤ s.activity.generation
  admitted : .mutation ∈ since → snapshot.generation < s.activity.generation
  mutating : leasedMutations s.leases ≠ 0 → .mutation ∈ since
  protectAll : snapshot.protectAllUntil ≤ s.activity.protectAllUntil
  base : (∀ object, snapshot.protection.Contains object) ∨ snapshot.protectAllUntil ≤ s.clock
  advertised : ∀ object now l, l ∈ since → l.Advertises object now →
    .mutation ∈ since ∨ (∀ other, snapshot.protection.Contains other) ∨
      (∃ until_, s.activity.recent.Covers object until_) ∨
      snapshot.protectAllUntil < s.activity.protectAllUntil

theorem taken_raced (h : Agrees s) (seen : now ≤ s.clock)
    (taken : s.activity.snapshotAt now = (.ok snapshot, a)) :
    Raced [] snapshot { s with activity := a, collector := .scanning snapshot } := by
  obtain ⟨-, hm, hg, ha, hp, rfl⟩ := snapshotAt_ok taken
  refine ⟨hg.le, nofun, ?_, ha.le, ?_, nofun⟩
  · intro hs
    exact absurd (h.mutations.symm.trans hm) hs
  · rcases hp with heq | ⟨he, -⟩
    · left
      intro object
      rw [heq]
      exact ObjectSelection.contains_all object
    · right
      simp only
      omega

theorem Raced.step (h : Raced since snapshot s) (scanning : s.activity.phase = .scanning)
    (facts : StepFacts s l s') (refines : Refines snapshot later) :
    Raced (since ++ [l]) later s' := by
  have hb : (∀ object, later.protection.Contains object) ∨
      later.protectAllUntil ≤ s.clock := by
    rw [refines.protectAllUntil]
    rcases h.base with hc | he
    · exact .inl fun object => refines.protection object (hc object)
    · exact .inr he
  have hg := facts.generation
  have hd : .mutation ∈ since ++ [l] → later.generation < s'.activity.generation := by
    intro hm
    rw [refines.generation]
    rcases mem_append.1 hm with ho | hn
    · have := h.admitted ho
      omega
    · have hls := facts.admitted (mem_singleton.1 hn).symm
      have := h.generation
      omega
  refine ⟨?_, hd, ?_, ?_, ?_, ?_⟩
  · rw [refines.generation]
    exact h.generation.trans hg
  · intro hs
    rcases facts.mutating hs with ho | hla
    · exact mem_append_left _ (h.mutating ho)
    · exact mem_append_right _ (mem_singleton.2 hla.symm)
  · rw [refines.protectAllUntil]
    exact h.protectAll.trans facts.protectAll
  · rcases hb with hc | he
    · exact .inl hc
    · exact .inr (he.trans facts.clock)
  · intro object now label hm ha
    rcases mem_append.1 hm with ho | hn
    · rw [refines.protectAllUntil]
      rcases h.advertised object now label ho ha with ht | hc |
        ⟨until_, hv⟩ | hr
      · exact .inl (mem_append_left _ ht)
      · exact .inr (.inl fun other => refines.protection other (hc other))
      · exact .inr (.inr (.inl ⟨until_, facts.covers object until_ hv (.inl scanning)⟩))
      · exact .inr (.inr (.inr (hr.trans_le facts.protectAll)))
    · rw [mem_singleton.1 hn] at ha
      obtain ⟨hco, hi⟩ := facts.advertised object now ha
      rcases hi with hcl | hu
      · rcases hco with hv | hl
        · exact .inr (.inr (.inl ⟨_, hv⟩))
        · rcases hb with hc | he
          · exact .inr (.inl hc)
          · -- the table is full: the protection of all ends later than at the snapshot
            refine .inr (.inr (.inr (lt_of_lt_of_le ?_ hl)))
            have hgr : 0 < onlineGcGrace := by decide
            omega
      · exact .inl (mem_append_left _ (h.mutating hu))

/-- After a run that began with the snapshot and took no other, the open snapshot is still
accurate about everything that raced with it. -/
theorem run_raced (agrees : Agrees s) (first : Step s (.takeSnapshot now) t)
    (run : Run Step t since u) (only : ∀ instant, .takeSnapshot instant ∉ since) :
    Agrees u ∧ ∀ snapshot, u.HasSnapshot snapshot → Raced since snapshot u := by
  have hl : (∀ instant, .takeSnapshot instant ∉ since) →
      Agrees u ∧ ∀ snapshot, u.HasSnapshot snapshot → Raced since snapshot u := by
    refine run.history (I := fun since u => (∀ instant, .takeSnapshot instant ∉ since) →
      Agrees u ∧ ∀ snapshot, u.HasSnapshot snapshot → Raced since snapshot u) ?_ ?_
    · intro _
      refine ⟨step_agrees agrees first, ?_⟩
      cases first with
      | takeSnapshot seen taken =>
        rintro snapshot (h | ⟨_, h⟩)
        · cases h
          exact taken_raced agrees seen taken
        · cases h
    · intro labels v l w ih step ho
      have hb : ∀ instant, .takeSnapshot instant ∉ labels :=
        fun instant hm => ho instant (mem_append_left _ hm)
      obtain ⟨ha, hr⟩ := ih hb
      refine ⟨step_agrees ha step, fun later ht => ?_⟩
      rcases (step_facts step).snapshots later ht with ⟨instant, rfl⟩ | ⟨snapshot, hp, he⟩
      · exact absurd (mem_append_right _ (mem_singleton_self _)) (ho instant)
      · have hs : v.activity.phase = .scanning := by
          rw [ha.phase]
          rcases hp with h | ⟨_, h⟩ <;> rw [h] <;> rfl
        exact (hr snapshot hp).step hs (step_facts step) he
  exact hl only

theorem latest_snapshot (h : ∃ now, .takeSnapshot now ∈ labels) :
    ∃ before now since, labels = before ++ .takeSnapshot now :: since ∧
      ∀ instant, .takeSnapshot instant ∉ since := by
  induction labels using List.reverseRecOn with
  | nil =>
    obtain ⟨now, hm⟩ := h
    cases hm
  | append_singleton labels l ih =>
    by_cases hl : ∃ now, l = .takeSnapshot now
    · obtain ⟨now, rfl⟩ := hl
      exact ⟨labels, now, [], rfl, nofun⟩
    · have ho : ∃ now, .takeSnapshot now ∈ labels := by
        obtain ⟨now, hm⟩ := h
        rcases mem_append.1 hm with ho | hn
        · exact ⟨now, ho⟩
        · exact absurd ⟨now, (mem_singleton.1 hn).symm⟩ hl
      obtain ⟨before, now, since, rfl, he⟩ := ih ho
      refine ⟨before, now, since ++ [l], by simp, fun instant hm => ?_⟩
      rcases mem_append.1 hm with hm | hn
      · exact he instant hm
      · exact hl ⟨instant, (mem_singleton.1 hn).symm⟩

section

variable (run : Run Step (System.initial start) labels s)
include run

theorem snapshot_was_taken (h : s.HasSnapshot snapshot) : ∃ now, .takeSnapshot now ∈ labels := by
  have ha : ∀ snapshot, s.HasSnapshot snapshot → ∃ now, .takeSnapshot now ∈ labels := by
    refine run.history (I := fun labels s => ∀ snapshot, s.HasSnapshot snapshot →
      ∃ now, .takeSnapshot now ∈ labels) ?_ ?_
    · rintro snapshot (h | ⟨_, h⟩) <;> cases h
    · intro labels t l u ih step later hl
      rcases (step_facts step).snapshots later hl with ⟨now, rfl⟩ | ⟨snapshot, ho, -⟩
      · exact ⟨now, mem_append_right _ (mem_singleton_self _)⟩
      · obtain ⟨now, hm⟩ := ih snapshot ho
        exact ⟨now, mem_append_left _ hm⟩
  exact ha snapshot h

theorem run_agrees : Agrees s :=
  run.invariant (initial_agrees start) fun _ _ _ => step_agrees

theorem open_snapshot_raced (h : s.HasSnapshot snapshot) :
    ∃ before now since, labels = before ++ .takeSnapshot now :: since ∧
      (∀ instant, .takeSnapshot instant ∉ since) ∧ Raced since snapshot s := by
  obtain ⟨before, now, since, rfl, ho⟩ := latest_snapshot (snapshot_was_taken run h)
  obtain ⟨t, hb, hr⟩ := run_append.1 run
  obtain ⟨t', hn, hs⟩ := run_cons.1 hr
  exact ⟨before, now, since, rfl, ho, (run_raced (run_agrees hb) hn hs ho).2 snapshot h⟩

end

theorem deleting_excludes (h : Agrees s) (hp : s.activity.phase = .deleting retiring) :
    (∀ lease ∈ s.leases, lease.kind ≠ .mutation) ∧
      (∀ lease ∈ s.leases, ∀ object, lease.kind = .reader object → ¬retiring.Contains object) ∧
      (∀ s', ¬Step s .mutation s') ∧
      ∀ object s', Step s (.reader object) s' → ¬retiring.Contains object := by
  have ho : s.collector = .deleting retiring := by
    have ha := h.phase
    rw [hp] at ha
    cases hc : s.collector with
    | deleting other =>
      rw [hc] at ha
      cases ha
      rfl
    | idle | scanning | selected =>
      rw [hc] at ha
      cases ha
  obtain ⟨hn, hq⟩ := h.quiet retiring ho
  refine ⟨leasedMutations_eq_zero.1 hn, ?_, ?_, ?_⟩
  · intro lease hm object hk
    exact hq object (mem_leasedObjects.2 ⟨lease, hm, hk⟩)
  · intro s' hs
    cases hs with
    | mutation waited => exact waited retiring hp
  · intro object s' hs
    cases hs with
    | reader admitted =>
      obtain ⟨hr, -, -⟩ := reader_ok admitted
      rwa [Activity.IsRetiring, hp] at hr

theorem Raced.protects (raced : Raced since snapshot s)
    (granted : s.activity.authorizeRetirement snapshot retiring = (.ok (), a))
    (retires : retiring.Contains object)
    (advertised : ∃ l ∈ since, ∃ instant, l.Advertises object instant) :
    snapshot.protection.Contains object := by
  obtain ⟨-, -, he, hg, -⟩ := authorizeRetirement_ok granted
  obtain ⟨l, hm, instant, ha⟩ := advertised
  by_contra hu
  rcases raced.advertised object instant l hm ha with ht | hl | ⟨until_, hc⟩ | ho
  · have := raced.admitted ht
    omega
  · exact hu (hl object)
  · exact hg (.inr ⟨object, hc.mem_keys, retires, hu⟩)
  · exact hg (.inl ⟨ObjectSelection.not_isEmpty retires, ho⟩)

theorem run_covers (run : Run Step (System.initial start) labels s) (hm : l ∈ labels)
    (ha : l.Advertises object instant) (hr : s.clock < instant + onlineGcGrace) :
    s.activity.recent.Covers object (instant + onlineGcGrace) ∨
      instant + onlineGcGrace ≤ s.activity.protectAllUntil := by
  have hl := run.history (I := fun labels s => l ∈ labels → s.clock < instant + onlineGcGrace →
    s.activity.recent.Covers object (instant + onlineGcGrace) ∨
      instant + onlineGcGrace ≤ s.activity.protectAllUntil) nofun ?_
  · exact hl hm hr
  · intro labels t last u ih step hb hc
    have facts := step_facts step
    rcases mem_append.1 hb with hd | hn
    · rcases ih hd (facts.clock.trans_lt hc) with ho | hu
      · exact .inl (facts.covers object _ ho (.inr hc))
      · exact .inr (hu.trans facts.protectAll)
    · rw [mem_singleton.1 hn] at ha
      exact (facts.advertised object instant ha).1

theorem taken_protects (step : Step s (.takeSnapshot now) s') (hp : s'.HasSnapshot snapshot) (he : s.clock < until_)
    (hc : s.activity.recent.Covers object until_ ∨ until_ ≤ s.activity.protectAllUntil) :
    snapshot.protection.Contains object := by
  cases step with
  | takeSnapshot seen taken =>
    obtain ⟨-, -, -, -, hr, -⟩ := snapshotAt_ok taken
    rcases hp with hs | ⟨_, hl⟩
    · cases hs
      rcases hr with ha | ⟨hx, hk⟩
      · rw [ha]
        exact ObjectSelection.contains_all object
      · rw [hk, ObjectSelection.contains_objects, mem_toFinset]
        rcases hc with ho | hu
        · exact (ho.retain (seen.trans_lt he)).mem_keys
        · omega
    · cases hl

theorem Refines.trans {a b c} (first : Refines a b) (second : Refines b c) : Refines a c :=
  ⟨second.generation.trans first.generation, second.protectAllUntil.trans first.protectAllUntil,
    fun object h => second.protection object (first.protection object h)⟩

theorem run_refines (run : Run Step s since u) (only : ∀ instant, .takeSnapshot instant ∉ since)
    (hp : u.HasSnapshot later) : ∃ snapshot, s.HasSnapshot snapshot ∧ Refines snapshot later := by
  have ha := run.history (I := fun since u => (∀ instant, .takeSnapshot instant ∉ since) →
    ∀ later, u.HasSnapshot later → ∃ snapshot, s.HasSnapshot snapshot ∧ Refines snapshot later)
    (fun _ later h => ⟨later, h, .refl later⟩) ?_
  · exact ha only later hp
  · intro labels v l w ih step ho later hl
    rcases (step_facts step).snapshots later hl with ⟨instant, rfl⟩ | ⟨middle, hi, hr⟩
    · exact absurd (mem_append_right _ (mem_singleton_self _)) (ho instant)
    · obtain ⟨snapshot, hs, hf⟩ :=
        ih (fun instant hm => ho instant (mem_append_left _ hm)) middle hi
      exact ⟨snapshot, hs, hf.trans hr⟩

/-- In every interleaving: when a pass enters the deleting phase for `retiring`, no mutation is
in progress or was admitted since its snapshot, no reader holds one of these objects, and each
of them that was advertised since the snapshot is in the protection the selection was made
under; while it deletes, no mutation and no reader of these objects is admitted. -/
theorem deletion_races_with_nobody {start : ℕ} {labels : List Label} {s : System}
    (run : Run Step (System.initial start) labels s) :
    (∀ retiring s', Step s (.authorize retiring) s' →
      s'.activity.phase = .deleting retiring ∧
      (∀ lease ∈ s.leases, lease.kind ≠ .mutation) ∧
      (∀ lease ∈ s.leases, ∀ object, lease.kind = .reader object → ¬retiring.Contains object) ∧
      ∃ snapshot before now since, s.collector = .selected snapshot retiring ∧
        labels = before ++ .takeSnapshot now :: since ∧
        (∀ instant, .takeSnapshot instant ∉ since) ∧
        .mutation ∉ since ∧
        ∀ object, retiring.Contains object →
          (∃ l ∈ since, ∃ instant, l.Advertises object instant) →
          snapshot.protection.Contains object) ∧
    (∀ retiring, s.activity.phase = .deleting retiring →
      (∀ lease ∈ s.leases, lease.kind ≠ .mutation) ∧
      (∀ lease ∈ s.leases, ∀ object, lease.kind = .reader object → ¬retiring.Contains object) ∧
      (∀ s', ¬Step s .mutation s') ∧
      ∀ object s', Step s (.reader object) s' → ¬retiring.Contains object) := by
  refine ⟨?_, fun retiring => deleting_excludes (run_agrees run)⟩
  intro retiring s' hs
  cases hs with
  | @authorize snapshot _ a chosen granted =>
    have ha := run_agrees run
    obtain ⟨hu, he, hg, -, rfl⟩ := authorizeRetirement_ok granted
    obtain ⟨before, now, since, hl, ho, hr⟩ := open_snapshot_raced run (.inr ⟨retiring, chosen⟩)
    have hn : .mutation ∉ since := by
      intro hm
      have := hr.admitted hm
      omega
    refine ⟨rfl, ?_, ?_, snapshot, before, now, since, chosen, hl, ho, hn, ?_⟩
    · exact leasedMutations_eq_zero.1 (ha.mutations.symm.trans hu)
    · intro lease hm object hk hc
      refine he ⟨object, ?_, hc⟩
      rw [ha.readers]
      exact mem_leasedObjects.2 ⟨lease, hm, hk⟩
    · exact fun object hc hd => hr.protects granted hc hd

def retiredStore : StoreHash := ⟨List.replicate 32 48, valid_zeros⟩

def readStore : StoreHash := ⟨List.replicate 32 49, valid_ones⟩

/-- Once the startup grace is over, a pass retires one publication while another is read. -/
theorem sample_deletion_races_with_nobody :
    ∃ labels s s', Run Step (System.initial 0) labels s ∧
      .reader (.publication readStore) ∈ labels ∧
      Step s (.authorize (.objects {.publication retiredStore})) s' ∧
      s'.activity.phase = .deleting (.objects {.publication retiredStore}) ∧
      ∀ lease ∈ s.leases, lease.kind ≠ .mutation := by
  let scanned : Activity := { Activity.new 0 with phase := .scanning }
  let read : Activity := { scanned with readers := {.publication readStore} }
  let snapshot : CollectionSnapshot := ⟨0, onlineGcGrace, .objects ∅⟩
  let lease : ActivityLease := ⟨.reader (.publication readStore), none⟩
  have ht : Step (System.initial 0) (.tick onlineGcGrace)
      ⟨.new 0, onlineGcGrace, [], .idle⟩ := .tick (Nat.zero_le _)
  have hsn : Step ⟨.new 0, onlineGcGrace, [], .idle⟩ (.takeSnapshot onlineGcGrace)
      ⟨scanned, onlineGcGrace, [], .scanning snapshot⟩ := .takeSnapshot le_rfl rfl
  have he : Step ⟨scanned, onlineGcGrace, [], .scanning snapshot⟩ (.reader (.publication readStore))
      ⟨read, onlineGcGrace, [lease], .scanning snapshot⟩ := .reader rfl
  have hs : Step ⟨read, onlineGcGrace, [lease], .scanning snapshot⟩
      (.select (.objects {.publication retiredStore}))
      ⟨read, onlineGcGrace, [lease], .selected snapshot (.objects {.publication retiredStore})⟩ :=
    .select rfl
  have ha : Step
      ⟨read, onlineGcGrace, [lease], .selected snapshot (.objects {.publication retiredStore})⟩
      (.authorize (.objects {.publication retiredStore})) _ := .authorize rfl rfl
  have hr := (((Run.single ht).tail hsn).tail he).tail hs
  obtain ⟨hp, hn, -⟩ := (deletion_races_with_nobody hr).1 _ _ ha
  exact ⟨_, _, _, hr, by simp, ha, hp, hn⟩

end CollectionSafety
