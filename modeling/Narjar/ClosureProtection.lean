import Narjar.CollectionSafety
import Narjar.FlatDeletion
import Narjar.RootProtection

/-!
# What was advertised is kept with its closure

The protection follows references forward from what is protected, the request to delete follows
them backward from what is selected. A publication that was advertised is therefore protected
with everything it reaches, or the request is refused.
-/
namespace ClosureProtection

open ByteCodecs ObjectNames CollectionCoordinator FlatCollection FlatDeletion WorklistSearch
open LabelledRuns RootProtection List

section Graphs

variable {n : ℕ} {store : FlatStore}

def Names (entry : Entry) (key : Bytes) : Prop :=
  key = entry.storePath.asStr ∨ key = entry.store.bytes

def RefersAt (entries : Fin n → Entry) (i j : Fin n) : Prop :=
  ∃ key ∈ (entries i).references, Names (entries j) key

theorem distinguished (h : Represents store entries) :
    Distinguished fun i => (entries i).node where
  carries i := ⟨(entries i).storePath, rfl, rfl⟩
  distinct := h.distinct

theorem protect_closed (h : Represents store entries)
    (hf : (protect (fun i => (entries i).node) roots).1 i = true) (hr : RefersAt entries i j) :
    (protect (fun i => (entries i).node) roots).1 j = true := by
  have hn := distinguished h
  rw [protect_flag hn, reached_iff hn] at hf ⊢
  obtain ⟨start, ha, hp⟩ := hf
  exact ⟨start, ha, hp.tail hr⟩

theorem mem_aliases {key : Bytes} {hash} :
    (key, hash) ∈ aliases entries ↔ ∃ i, Names (entries i) key ∧ hash = (entries i).store := by
  rw [aliases, mem_reverse, mem_flatMap]
  constructor
  · intro hm
    obtain ⟨i, -, hi⟩ := hm
    rcases mem_cons.1 hi with hp | hs
    · obtain ⟨rfl, rfl⟩ := Prod.mk.inj hp
      exact ⟨i, .inl rfl, rfl⟩
    · obtain ⟨rfl, rfl⟩ := Prod.mk.inj (mem_singleton.1 hs)
      exact ⟨i, .inr rfl, rfl⟩
  · intro h
    obtain ⟨i, hn, rfl⟩ := h
    refine ⟨i, mem_finRange i, ?_⟩
    rcases hn with rfl | rfl
    · exact mem_cons_self
    · exact mem_cons_of_mem _ (mem_singleton_self _)

theorem mem_dependents (h : Represents store entries) {i j : Fin n} (hr : RefersAt entries i j) :
    (entries i).store ∈ dependents entries (entries j).store := by
  obtain ⟨key, he, hn⟩ := hr
  have hl : (aliases entries).lookup key = some (entries j).store := by
    refine lookup_of_unique (mem_aliases.2 ⟨j, hn, rfl⟩) fun other ho => ?_
    obtain ⟨k, hk, rfl⟩ := mem_aliases.1 ho
    rw [(distinguished h).matches_unique hk hn]
  rw [dependents, mem_flatMap]
  refine ⟨i, mem_finRange i, mem_map.2 ⟨(entries j).store, ?_, rfl⟩⟩
  exact mem_filter.2 ⟨mem_filterMap.2 ⟨key, he, hl⟩, decide_eq_true rfl⟩

theorem retires_dependents (h : Represents store entries)
    (hs : (entries j).store ∈ selected) (hr : Relation.ReflTransGen (RefersAt entries) i j) :
    .publication (entries i).store ∈ retiringPublications entries selected := by
  refine Finset.mem_image.2 ⟨(entries i).store, KeyGraph.mem_close_visited.2 ?_, rfl⟩
  refine ⟨(entries j).store, mem_reverse.2 hs, (entries j).store, rfl, ?_⟩
  induction hr using Relation.ReflTransGen.head_induction_on with
  | refl => exact .refl
  | head he _ ih => exact ih.tail ⟨_, mem_dependents h he, rfl⟩

end Graphs

section Selection

variable {n : ℕ}

theorem evict_subset
    (h : candidate ∈ evict entries orphans policy candidates remaining counts) :
    candidate ∈ candidates := by
  induction candidates generalizing remaining counts with
  | nil => exact h
  | cons first rest ih =>
    simp only [evict] at h
    split at h
    · exact mem_cons_of_mem _ (ih h)
    · rcases mem_cons.1 h with rfl | hr
      · exact mem_cons_self
      · exact mem_cons_of_mem _ (ih hr)

theorem selected_unprotected
    (h : i ∈ (selectFlatCandidates entries orphans currentBytes policy protectsOrphan
      orphanLastUse).publications) : (entries i).protected_ = false := by
  obtain ⟨candidate, hh, hc⟩ := mem_filterMap.1 h
  cases candidate with
  | orphan => cases hc
  | publication j =>
    cases Option.some.inj hc
    have ho := evict_subset (mem_of_mem_take hh)
    rw [mem_insertionSort] at ho
    have hr := (mem_filter.1 ho).2
    by_contra hp
    rw [Bool.not_eq_false] at hp
    simp [FlatCandidate.protected_, RetentionPolicy.reason, hp] at hr

end Selection

def Refers (store : FlatStore) (p q : TrustedGcPublication) : Prop :=
  q ∈ publications store ∧ (q.storePath.asStr ∈ p.references ∨ q.store.bytes ∈ p.references)

/-- The object was advertised within the grace period before the scan or since it began. Of an
advertisement by an earlier process, before the start of this one, only the instant is known. -/
def Advertised (start clock : ℕ) (before since : List CollectionSafety.Label)
    (object : ProtectedObject) : Prop :=
  (∃ l ∈ before, ∃ instant, l.Advertises object instant ∧ clock < instant + onlineGcGrace) ∨
    (∃ instant ≤ start, clock < instant + onlineGcGrace) ∨
    ∃ l ∈ since, ∃ instant, l.Advertises object instant

section Pass

variable {start now : ℕ} {before since : List CollectionSafety.Label}
  {t t' s : CollectionSafety.System}

theorem start_le_protectAllUntil (hr : Run CollectionSafety.Step (.initial start) before t) :
    start + onlineGcGrace ≤ t.activity.protectAllUntil :=
  hr.invariant (I := fun s => start + onlineGcGrace ≤ s.activity.protectAllUntil) le_rfl
    fun _ _ _ h step => h.trans (CollectionSafety.step_facts step).protectAll

/-- The selection was made under a protection that covers every advertised object, unless the
object is not among those that are retired. -/
theorem advertised_protected (hb : Run CollectionSafety.Step (.initial start) before t)
    (hs : CollectionSafety.Step t (.takeSnapshot now) t')
    (hi : Run CollectionSafety.Step t' since s)
    (ho : ∀ instant, .takeSnapshot instant ∉ since) (hse : s.collector = .selected snapshot retiring)
    (hg : s.activity.authorizeRetirement snapshot retiring = (.ok (), a)) (hre : retiring.Contains object)
    (ha : Advertised start t.clock before since object) : snapshot.protection.Contains object := by
  have hp : s.HasSnapshot snapshot := .inr ⟨retiring, hse⟩
  obtain ⟨taken, ht, hr⟩ := CollectionSafety.run_refines hi ho hp
  rcases ha with ⟨l, hl, instant, hd, hc⟩ | ⟨instant, hst, hc⟩ | he
  · apply hr.protection
    exact CollectionSafety.taken_protects hs ht hc (CollectionSafety.run_covers hb hl hd hc)
  · apply hr.protection
    have hal := start_le_protectAllUntil hb
    exact CollectionSafety.taken_protects hs ht hc (.inr (by omega))
  · have hra := (CollectionSafety.run_raced (CollectionSafety.run_agrees hb) hs hi ho).2 snapshot hp
    exact hra.protects hg hre he

end Pass

section Plan

variable {options : GcOptions} {targetBytes : Option ℕ} {wallClock : ℕ} {store : FlatStore}
  {leases : AdvertisementLeases} {plan : FlatPlan}

structure Planned (options : GcOptions) (store : FlatStore) (leases : AdvertisementLeases)
    (access : CollectionAccess) (plan : FlatPlan) : Prop where
  scanned : scan store = .ok plan.scanned
  entries : plan.entries = protectEntries options store access plan.scanned.get
  orphans : ∀ i j, (plan.orphans.get i).name ∉ payloadNames (plan.entries j)
  unprotected : ∀ i ∈ plan.selection.publications, (plan.entries i).protected_ = false
  decided : plan.effects = [] ∨
    plan.retiring = retiringFlatObjects plan.entries plan.orphans.get plan.selection ∧
    plan.effects = deletion leases plan.entries plan.selection.publications plan.orphans.get
      plan.selection.orphans

theorem runFlatGc_ok
    (h : runFlatGc options targetBytes wallClock store leases access = .ok plan) :
    Planned options store leases access plan := by
  rw [runFlatGc, FallibleState.except_bind_ok] at h
  obtain ⟨scanned, hs, hp⟩ := h
  cases Except.ok.inj hp
  refine ⟨hs, rfl, fun i j => ?_, fun i hi => selected_unprotected hi, ?_⟩
  · rw [payloadNames_protectEntries]
    exact orphan_notMem_payloadNames i (get_mem _ _)
  · cases options.mode with
    | dryRun => exact .inl rfl
    | apply => exact .inr ⟨rfl, rfl⟩

theorem Planned.represents (h : Planned options store leases access plan) :
    Represents store plan.entries := by
  rw [h.entries]
  exact protectEntries_represents (scan_represents h.scanned) options access

theorem refersAt_of_refers (h : Represents store plan.entries)
    (hp : p ∈ publications store) (he : Relation.ReflTransGen (Refers store) p q) :
    q ∈ publications store ∧ ∃ i j, Describes store p (plan.entries i) ∧
      Describes store q (plan.entries j) ∧ Relation.ReflTransGen (RefersAt plan.entries) i j := by
  obtain ⟨i, hi⟩ := h.complete p hp
  induction he with
  | refl => exact ⟨hp, i, i, hi, hi, .refl⟩
  | @tail q r _ hf ih =>
    obtain ⟨-, i, j, hi, hj, ha⟩ := ih
    obtain ⟨hr, hn⟩ := hf
    obtain ⟨k, hk⟩ := h.complete r hr
    refine ⟨hr, i, k, hi, hk, ha.tail ?_⟩
    rw [← congrArg Publication.references hj.publication] at hn
    rw [← hk.store_eq, ← congrArg Publication.storePath hk.publication] at hn
    rcases hn with ha | hs
    · exact ⟨_, ha, .inl rfl⟩
    · exact ⟨_, hs, .inr rfl⟩

theorem protectAdvertised_protected
    (h : access.protects (.publication entry.store) = true) :
    (protectAdvertised access entry).protected_ = true := by
  simp only [protectAdvertised, h, Bool.true_or, Bool.or_true]

theorem protected_of_reach (h : Represents store scanned)
    (hp : snapshot.protection.Contains
      (.publication (protectEntries options store (.online snapshot durable) scanned i).store))
    (he : Relation.ReflTransGen
      (RefersAt (protectEntries options store (.online snapshot durable) scanned)) i j) :
    (protectEntries options store (.online snapshot durable) scanned j).protected_ = true := by
  have hrp := advertisedEntries_represents h options (.online snapshot durable)
  have hr : (CollectionAccess.online snapshot durable).protects
      (.publication (protectEntries options store (.online snapshot durable) scanned i).store) =
        true := by
    rw [CollectionAccess.protects, decide_eq_true hp, Bool.or_true]
  have hf : (protect (fun i => (advertisedEntries options store (.online snapshot durable)
      scanned i).node) options.protectedRoots).1 i = true := by
    rw [protect, Bool.or_eq_true]
    exact .inl (protectAdvertised_protected hr)
  induction he with
  | refl => exact hf
  | tail _ hre ih => exact protect_closed hrp ih hre

end Plan

/-- In every interleaving: once a pass is allowed to delete what it selected, no publication that
was advertised within the grace period before the scan or since, and none that it reaches, loses
its narinfo, its output or its canonical NAR, at any point of the deletion and in any crash. -/
theorem advertised_closure_survives {start now : ℕ} {before since : List CollectionSafety.Label}
    {t t' s s' : CollectionSafety.System}
    (hbefore : Run CollectionSafety.Step (.initial start) before t)
    (hsnapshot : CollectionSafety.Step t (.takeSnapshot now) t')
    (hsince : Run CollectionSafety.Step t' since s)
    (honly : ∀ instant, .takeSnapshot instant ∉ since)
    {options : GcOptions} {targetBytes : Option ℕ} {wallClock : ℕ} {store : FlatStore}
    {leases : AdvertisementLeases} {snapshot : CollectionSnapshot}
    {durable : AdvertisementProtection} {plan : FlatPlan}
    (hplan : runFlatGc options targetBytes wallClock store leases (.online snapshot durable) =
      .ok plan)
    (hselected : s.collector = .selected snapshot (.objects plan.retiring))
    (hauthorized : CollectionSafety.Step s (.authorize (.objects plan.retiring)) s')
    {p q : TrustedGcPublication} (hp : p ∈ publications store)
    (hadvertised : Advertised start t.clock before since (.publication p.store))
    (hreach : Relation.ReflTransGen (Refers store) p q) {executed : List Effect} {disk : Disk}
    (hfirst : executed <+: plan.effects)
    (hrun : Run FlatDeletion.Step (diskOf store) executed disk) :
    .unlinkNarinfo q.store ∉ executed ∧
      (∀ name, Needs store q name → .unlinkNar name ∉ executed) ∧
      ∀ root nars, disk.root.Survives root → disk.nars.Survives nars →
        root q.store = some q ∧
          ∀ name, Needs store q name → (nars name).isSome ∧
            nars name = (diskOf store).nars.live name := by
  have hl := runFlatGc_ok hplan
  have he := hl.represents
  obtain ⟨hq, i, j, hi, hj, ht⟩ := refersAt_of_refers he hp hreach
  have hk : .unlinkNarinfo (plan.entries j).store ∉ executed ∧
      ∀ name ∈ payloadNames (plan.entries j), .unlinkNar name ∉ executed := by
    rcases hl.decided with hh | ⟨hrt, hef⟩
    · rw [hh, prefix_nil] at hfirst
      rw [hfirst]
      exact ⟨nofun, nofun⟩
    · rw [hef] at hfirst
      refine unselected_kept he hl.orphans (fun hm => ?_) hfirst hrun
      -- a selected publication retires all that reach it, so the snapshot protects them
      have hre : (ObjectSelection.objects plan.retiring).Contains (.publication p.store) := by
        rw [hrt, ← hi.store_eq, ObjectSelection.contains_objects]
        exact Finset.mem_union_left _ (retires_dependents he
          (mem_map.2 ⟨j, hm, rfl⟩) ht)
      have ho : snapshot.protection.Contains (.publication p.store) := by
        cases hauthorized with
        | authorize chosen granted =>
          cases hselected.symm.trans chosen
          exact advertised_protected hbefore hsnapshot hsince honly hselected granted hre
            hadvertised
      have hr := hl.unprotected j hm
      rw [← hi.store_eq, hl.entries] at ho
      rw [hl.entries] at ht hr
      rw [protected_of_reach (scan_represents hl.scanned) ho ht] at hr
      cases hr
  obtain ⟨ha, hy⟩ := hk
  rw [hj.store_eq] at ha
  refine ⟨ha, fun name hn => hy name (hj.needs hn),
    fun root nars hro hs => ⟨?_, fun name hn => ?_⟩⟩
  · apply (run_onlyUnlinks hrun).1.survives_of_live hro
    rw [(narinfo_kept hrun ha).1, root_of_publication hq]
  · obtain ⟨file, hf⟩ := Option.isSome_iff_exists.1 (hj.present name (hj.needs hn))
    have hv : disk.nars.live name = some file := by
      rw [nar_kept hrun (hy name (hj.needs hn))]
      exact hf
    rw [(run_onlyUnlinks hrun).2.survives_of_live hs hv]
    exact ⟨rfl, hf.symm⟩

def samplePublication (digit : UInt8) (h : validNix32 (List.replicate 32 digit) 32 = true)
    (references : List Bytes) : TrustedGcPublication where
  storePath := ⟨⟨List.replicate 32 digit, h⟩, [97], valid_letter⟩
  references := references
  narinfoBytes := 10
  modified := 0
  representation := .raw ⟨⟨List.replicate 32 digit, ManifestFormat.length_repeated digit⟩, 5⟩

def referenced : TrustedGcPublication := samplePublication 49 valid_ones []

def unrelated : TrustedGcPublication := samplePublication 50 valid_twos []

/-- It refers to a publication of the store and to one that is missing. -/
def advertised : TrustedGcPublication :=
  samplePublication 48 valid_zeros [referenced.storePath.asStr, [47]]

def sampleStore : FlatStore where
  narinfos := [.ok advertised, .ok unrelated, .ok referenced]
  distinct := by decide
  nars := [advertised, unrelated, referenced].map fun p =>
    (p.representation.fileName, .regular ⟨5, 0⟩)
  accessTime := fun _ => none

theorem sample_plan : ∃ plan : FlatPlan,
    runFlatGc ⟨⟨.publication, none⟩, none, some 0, 0, [], .apply⟩ none 1 sampleStore .absent
      (.online ⟨0, onlineGcGrace, .objects {.publication advertised.store}⟩ .absent) = .ok plan ∧
    plan.retiring = {.publication unrelated.store,
      .canonicalNar unrelated.representation.identity.hash} ∧
    plan.effects = [.notePublicationRemoved unrelated.store, .unlinkNarinfo unrelated.store,
      .syncRoot, .unlinkNar unrelated.representation.fileName, .syncNars] :=
  ⟨_, rfl, by decide +kernel, by decide +kernel⟩

/-- An advertised publication keeps the one it refers to while an unrelated one is deleted. -/
theorem sample_closure_survives :
    ∃ (plan : FlatPlan) (executed : List Effect) (disk : Disk),
      Run FlatDeletion.Step (diskOf sampleStore) executed disk ∧ executed = plan.effects ∧
      .unlinkNarinfo unrelated.store ∈ executed ∧
      .unlinkNarinfo referenced.store ∉ executed ∧
      disk.root.live referenced.store = some referenced := by
  obtain ⟨plan, hp, ht, he⟩ := sample_plan
  let snapshot : CollectionSnapshot := ⟨0, onlineGcGrace, .objects {.publication advertised.store}⟩
  let recent : RecentObjects :=
    ⟨[(.publication advertised.store, onlineGcGrace + onlineGcGrace)], nodup_singleton _, by decide⟩
  let lease : ActivityLease := ⟨.reader (.publication advertised.store), none⟩
  let renewed : ActivityLease := ⟨.reader (.publication advertised.store),
    some (.publication advertised.store)⟩
  let read : Activity := { Activity.new 0 with readers := {.publication advertised.store} }
  let known : Activity := { read with recent := recent }
  have hi : CollectionSafety.Step (.initial 0) (.tick onlineGcGrace)
      ⟨.new 0, onlineGcGrace, [], .idle⟩ := .tick (Nat.zero_le _)
  have hd : CollectionSafety.Step ⟨.new 0, onlineGcGrace, [], .idle⟩
      (.reader (.publication advertised.store)) ⟨read, onlineGcGrace, [lease], .idle⟩ := .reader rfl
  have ha : CollectionSafety.Step ⟨read, onlineGcGrace, [lease], .idle⟩
      (.advertise advertised.store onlineGcGrace) ⟨known, onlineGcGrace, [renewed], .idle⟩ :=
    have hre : read.advertise lease advertised.store onlineGcGrace = (renewed, known) := rfl
    .advertise (s := ⟨read, onlineGcGrace, [lease], .idle⟩) mem_cons_self hre
  have hsn : CollectionSafety.Step ⟨known, onlineGcGrace, [renewed], .idle⟩
      (.takeSnapshot onlineGcGrace)
      ⟨{ known with phase := .scanning }, onlineGcGrace, [renewed], .scanning snapshot⟩ :=
    .takeSnapshot le_rfl rfl
  have hs : CollectionSafety.Step
      ⟨{ known with phase := .scanning }, onlineGcGrace, [renewed], .scanning snapshot⟩
      (.select (.objects plan.retiring))
      ⟨{ known with phase := .scanning }, onlineGcGrace, [renewed],
        .selected snapshot (.objects plan.retiring)⟩ := .select rfl
  have hu : CollectionSafety.Step
      ⟨{ known with phase := .scanning }, onlineGcGrace, [renewed],
        .selected snapshot (.objects plan.retiring)⟩ (.authorize (.objects plan.retiring))
      ⟨{ known with phase := .deleting (.objects plan.retiring) }, onlineGcGrace, [renewed],
        .deleting (.objects plan.retiring)⟩ := by
    rw [ht]
    exact .authorize rfl rfl
  have hr : Run FlatDeletion.Step (diskOf sampleStore)
      [.notePublicationRemoved unrelated.store, .unlinkNarinfo unrelated.store, .syncRoot,
        .unlinkNar unrelated.representation.fileName, .syncNars] _ :=
    run_cons.2 ⟨_, rfl, run_cons.2 ⟨_, rfl, run_cons.2 ⟨_, rfl, run_cons.2 ⟨_, rfl,
      run_cons.2 ⟨_, rfl, run_nil.2 rfl⟩⟩⟩⟩⟩
  have hc : Relation.ReflTransGen (Refers sampleStore) advertised referenced :=
    .single ⟨by decide, .inl mem_cons_self⟩
  obtain ⟨hn, -, hv⟩ := advertised_closure_survives
    (((Run.single hi).tail hd).tail ha) hsn (.single hs) (by simp) hp
    rfl hu (show advertised ∈ publications sampleStore by decide)
    (.inl ⟨_, mem_append_right _ (mem_singleton_self _), onlineGcGrace, ⟨rfl, rfl⟩, by decide⟩) hc
    (he ▸ prefix_refl _) hr
  refine ⟨plan, _, _, hr, he.symm, by simp, hn, ?_⟩
  exact (hv _ _ (DirectoryDurability.Directory.live_survives _)
    (DirectoryDurability.Directory.live_survives _)).1

end ClosureProtection
