import Narjar.FlatAccounting

/-!
# The outcome of a flat deletion

What is on disk when every effect of a deletion has been executed, and what a fresh scan of that
disk finds: the publications that were not selected, with the same payloads as before.
-/
namespace FlatOutcome

open FallibleState ObjectNames LabelledRuns
open FlatCollection FlatDeletion FlatAccounting SharedHoldings

section Applied

variable {n : ℕ} {store : FlatStore} {entries : Fin n → Entry} {gone : Finset (Fin n)}
  {leases : AdvertisementLeases} {d d' : Disk} {i : Fin n}

variable (store entries) in
/-- These publications have gone, with the payloads that only they used. -/
structure Gone (gone : Finset (Fin n)) (d : Disk) : Prop where
  narinfos : ∀ hash, d.root.live hash =
    if ∃ i ∈ gone, (entries i).store = hash then none else (diskOf store).root.live hash
  payloads : ∀ name, d.nars.live name =
    if name ∈ used (payloadsOf entries) gone \ used (payloadsOf entries) goneᶜ then none
    else (diskOf store).nars.live name

theorem start_gone : Gone store entries ∅ (diskOf store) := by
  constructor
  · intro hash
    simp
  · intro name
    simp [used]

theorem released_eq (h : i ∉ gone) :
    releasePayloads (payloadNames (entries i)) (countsWithout entries gone) =
      ((payloadNames (entries i)).filter fun name =>
          name ∉ used (payloadsOf entries) (insert i gone)ᶜ,
        countsWithout entries (insert i gone)) := by
  rw [release_names (payloadNames_nodup _)]
  congr 1
  · apply List.filter_congr
    intro name hn
    rw [decide_eq_decide, ← countsWithout_eq_zero, countsWithout_insert h, if_pos hn]
  · funext name
    exact (countsWithout_insert h).symm

theorem mem_freed_insert (h : i ∉ gone) :
    name ∈ used (payloadsOf entries) (insert i gone) \ used (payloadsOf entries) (insert i gone)ᶜ ↔
      (name ∈ payloadNames (entries i) ∧ name ∉ used (payloadsOf entries) (insert i gone)ᶜ) ∨
        name ∈ used (payloadsOf entries) gone \ used (payloadsOf entries) goneᶜ := by
  have hc : name ∈ used (payloadsOf entries) goneᶜ ↔
      name ∈ payloadNames (entries i) ∨ name ∈ used (payloadsOf entries) (insert i gone)ᶜ := by
    simp only [mem_used, mem_payloadsOf, Finset.mem_compl, Finset.mem_insert]
    constructor
    · intro hu
      obtain ⟨j, hj, hn⟩ := hu
      by_cases heq : j = i
      · exact .inl (heq ▸ hn)
      · exact .inr ⟨j, by tauto, hn⟩
    · intro hu
      rcases hu with hn | ⟨j, hj, hn⟩
      · exact ⟨i, h, hn⟩
      · exact ⟨j, fun hm => hj (.inr hm), hn⟩
  have hi : name ∈ used (payloadsOf entries) (insert i gone) ↔
      name ∈ payloadNames (entries i) ∨ name ∈ used (payloadsOf entries) gone := by
    simp only [mem_used, mem_payloadsOf, Finset.mem_insert, exists_eq_or_imp]
  rw [Finset.mem_sdiff, Finset.mem_sdiff, hi, hc]
  tauto

theorem Gone.remove (hg : Gone store entries gone d) {d₁ d₂ d₃ : Disk} (h : i ∉ gone)
    (hr : d₁.root.live = Function.update d.root.live (entries i).store none)
    (hn : d₁.nars = d.nars) (hr₂ : d₂.root = d₁.root)
    (hn₂ : ∀ name, d₂.nars.live name =
      if name ∈ (payloadNames (entries i)).filter fun name =>
        name ∉ used (payloadsOf entries) (insert i gone)ᶜ then none else d₁.nars.live name)
    (hr₃ : d₃.root = d₂.root) (hn₃ : d₃.nars.live = d₂.nars.live) :
    Gone store entries (insert i gone) d₃ := by
  constructor
  · intro hash
    rw [hr₃, hr₂, hr]
    by_cases heq : hash = (entries i).store
    · subst heq
      rw [Function.update_self, if_pos ⟨i, Finset.mem_insert_self _ _, rfl⟩]
    · rw [Function.update_of_ne heq, hg.narinfos]
      have hi : (∃ j ∈ insert i gone, (entries j).store = hash) ↔
          ∃ j ∈ gone, (entries j).store = hash := by
        simp [Ne.symm heq]
      rw [if_congr hi rfl rfl]
  · intro name
    rw [hn₃, hn₂, hn, hg.payloads]
    simp only [mem_freed_insert h, List.mem_filter, decide_eq_true_eq]
    split_ifs <;> tauto

theorem applyEntries_gone {selected : List (Fin n)} (hg : Gone store entries gone d)
    (hu : Run Step d (applyEntries leases (selected.map entries) (countsWithout entries gone)) d') :
    Gone store entries (selected.toFinset ∪ gone) d' ∧ selected.Nodup ∧ ∀ i ∈ selected, i ∉ gone := by
  induction selected generalizing gone d with
  | nil =>
    rw [List.map_nil, applyEntries, run_nil] at hu
    rw [hu, List.toFinset_nil, Finset.empty_union]
    exact ⟨hg, List.nodup_nil, fun _ h => absurd h List.not_mem_nil⟩
  | cons i selected ih =>
    rw [List.map_cons, applyEntries_cons] at hu
    obtain ⟨d₁, hre, hr⟩ := run_append.1 hu
    obtain ⟨hl, hn, ho, -⟩ := removal_run hre
    have he : i ∉ gone := by
      intro hm
      rw [hg.narinfos, if_pos ⟨i, hm, rfl⟩] at hl
      cases hl
    rw [released_eq he] at hr
    obtain ⟨d₂, hun, hr⟩ := run_append.1 hr
    obtain ⟨d₃, hs, hr⟩ := run_append.1 hr
    obtain ⟨ho₂, hn₂⟩ := unlinks_run hun
    obtain ⟨ho₃, hn₃⟩ := syncNars_run hs
    obtain ⟨hg', hno, hd⟩ := ih (hg.remove he ho hn ho₂ hn₂ ho₃ hn₃) hr
    refine ⟨?_, List.nodup_cons.2 ⟨?_, hno⟩, List.forall_mem_cons.2 ⟨he, ?_⟩⟩
    · have hi : (i :: selected).toFinset ∪ gone = selected.toFinset ∪ insert i gone := by
        rw [List.toFinset_cons, Finset.insert_union, Finset.union_insert]
      rw [hi]
      exact hg'
    · exact fun hm => hd i hm (Finset.mem_insert_self _ _)
    · exact fun j hj hm => hd j hj (Finset.mem_insert_of_mem hm)

end Applied

section Deletion

variable {n m : ℕ} {store : FlatStore} {entries : Fin n → Entry} {orphans : Fin m → Orphan}
  {selected : List (Fin n)} {selectedOrphans : List (Fin m)} {leases : AdvertisementLeases}
  {d : Disk}

def unlinked (entries : Fin n → Entry) (orphans : Fin m → Orphan) (selected : List (Fin n))
    (selectedOrphans : List (Fin m)) : Finset NarFileName :=
  (used (payloadsOf entries) selected.toFinset \ used (payloadsOf entries) selected.toFinsetᶜ) ∪
    (selectedOrphans.map fun i => (orphans i).name).toFinset

variable (store entries orphans selected selectedOrphans) in
structure Outcome (d : Disk) : Prop where
  nodup : selected.Nodup
  nodupOrphans : (selectedOrphans.map fun i => (orphans i).name).Nodup
  narinfos : ∀ hash, d.root.live hash =
    if ∃ i ∈ selected, (entries i).store = hash then none else (diskOf store).root.live hash
  nars : ∀ name, d.nars.live name =
    if name ∈ unlinked entries orphans selected selectedOrphans then none
    else (diskOf store).nars.live name

theorem deletion_outcome
    (hu : Run Step (diskOf store) (deletion leases entries selected orphans selectedOrphans) d) :
    Outcome store entries orphans selected selectedOrphans d := by
  have hi := unlinked_once hu
  rw [deletion, applyWithCheckpoint, applyOrphans, referenceCounts_eq_countsWithout] at hu hi
  obtain ⟨d₁, ht, hre⟩ := run_append.1 hu
  obtain ⟨d₂, hl, hs⟩ := run_append.1 hre
  obtain ⟨hg, ho, -⟩ := applyEntries_gone start_gone ht
  rw [Finset.union_empty] at hg
  have hm : (selectedOrphans.map fun i => Effect.unlinkNar (orphans i).name) =
      (selectedOrphans.map fun i => (orphans i).name).map Effect.unlinkNar := by
    rw [List.map_map]
    rfl
  rw [hm] at hl
  obtain ⟨hr₂, hn₂⟩ := unlinks_run hl
  obtain ⟨hr₃, hn₃⟩ : d.root = d₂.root ∧ d.nars.live = d₂.nars.live := by
    split_ifs at hs
    · rw [run_nil.1 hs]
      exact ⟨rfl, rfl⟩
    · obtain ⟨d₃, hp, he⟩ := run_cons.1 hs
      cases Option.some.inj hp
      rw [run_nil.1 he]
      exact ⟨rfl, rfl⟩
  refine ⟨ho, ?_, fun hash => ?_, fun name => ?_⟩
  · rw [List.nodup_iff_count_le_one]
    intro name
    have hc := (hi name).1
    rw [List.count_append, List.count_append, hm,
      List.count_map_of_injective _ _ fun _ _ => Effect.unlinkNar.inj] at hc
    omega
  · rw [hr₃, hr₂, hg.narinfos]
    simp only [List.mem_toFinset]
  · rw [hn₃, hn₂, hg.payloads, unlinked]
    simp only [Finset.mem_union, List.mem_toFinset]
    split_ifs <;> tauto

structure Lists (store : FlatStore) (d : Disk) : Prop where
  valid : ∀ narinfo ∈ store.narinfos, ∃ p, narinfo = .ok p
  narinfos : (diskOf store).root.live = d.root.live
  nars : (diskOf store).nars.live = d.nars.live
  names : (store.nars.map Prod.fst).Nodup

variable {store' : FlatStore}

theorem scanEntry_congr
    (ho : store'.nars.lookup p.representation.fileName =
      store.nars.lookup p.representation.fileName)
    (hc : store'.nars.lookup p.canonicalRawName = store.nars.lookup p.canonicalRawName) :
    scanEntry store' p = scanEntry store p := by
  simp only [scanEntry, ho, hc]

theorem survivor (hre : Represents store entries)
    (hr : ∀ i j, (orphans i).name ∉ payloadNames (entries j))
    (ho : Outcome store entries orphans selected selectedOrphans d) (hl : Lists store' d) (hp : p ∈ publications store') :
    (∃ i, i ∉ selected ∧ Describes store p (entries i)) ∧ p ∈ publications store ∧
      scanEntry store' p = scanEntry store p := by
  have hv : d.root.live p.store = some p := by
    rw [← hl.narinfos]
    exact root_of_publication hp
  rw [ho.narinfos] at hv
  split_ifs at hv with hse
  obtain ⟨hm, -⟩ := root_find hv
  obtain ⟨i, hd⟩ := hre.complete p hm
  have hi : i ∉ selected := fun h => hse ⟨i, h, hd.store_eq⟩
  have hk : ∀ name ∈ payloadNames (entries i),
      store'.nars.lookup name = store.nars.lookup name := by
    intro name ha
    have ht : name ∉ unlinked entries orphans selected selectedOrphans := by
      rw [unlinked, Finset.mem_union, Finset.mem_sdiff, List.mem_toFinset, List.mem_map]
      rintro (⟨-, hu⟩ | ⟨j, -, hj⟩)
      · exact hu (mem_used.2 ⟨i, by simpa using hi, mem_payloadsOf.2 ha⟩)
      · exact hr j i (hj ▸ ha)
    have hn := congrFun hl.nars name
    rw [ho.nars, if_neg ht] at hn
    exact hn
  refine ⟨⟨i, hi, hd⟩, hm, scanEntry_congr ?_ ?_⟩
  · exact hk _ (hd.needs (.inl rfl))
  · by_cases hs : (store.nars.lookup p.canonicalRawName).isSome
    · exact hk _ (hd.needs (.inr ⟨rfl, hs⟩))
    · -- nothing appears that was not there
      have he := Option.not_isSome_iff_eq_none.1 hs
      have hn : store'.nars.lookup p.canonicalRawName = _ :=
        congrFun hl.nars p.canonicalRawName
      rw [ho.nars, show (diskOf store).nars.live p.canonicalRawName = none from he,
        ite_self] at hn
      rw [hn, he]

theorem rescan (hc : scan store = .ok scanned)
    (hr : Represents store entries) (ho : ∀ i j, (orphans i).name ∉ payloadNames (entries j))
    (hu : Outcome store entries orphans selected selectedOrphans d)
    (hl : Lists store' d) : ∃ rescanned, scan store' = .ok rescanned := by
  apply exists_mapM
  intro narinfo hn
  obtain ⟨p, rfl⟩ := hl.valid narinfo hn
  obtain ⟨-, hm, hs⟩ := survivor hr ho hu hl (mem_publications.2 hn)
  obtain ⟨entry, -, he⟩ := mapM_mem hc (mem_publications.1 hm)
  exact ⟨entry, hs.trans he⟩

end Deletion

end FlatOutcome
