import Narjar.FileTree
import Narjar.FlatOutcome

/-!
# Projected bytes of a flat collection

Before anything is deleted the collection reports the bytes that will be left, and the bytes of
all candidates that may be deleted. Both are compared with a scan of the disk after the deletion.
-/
namespace FlatProjection

open NarFormat ObjectNames FlatCollection FlatDeletion FlatAccounting FlatOutcome
open FallibleState LabelledRuns SharedHoldings List

section Reported

variable {n m : ℕ} (entries : Fin n → Entry) (orphans : Fin m → Orphan)

def projectedPublishedBytes (selected : List (Fin n)) : ℕ :=
  (selected.foldl
    (fun (total, counts) i =>
      let (removed, counts) := removePublicationBytes (payloadSizes entries) (entries i) counts
      (total - removed, counts))
    (totalBytes entries, referenceCounts entries)).1

def logicalAfterBytes (selected : List (Fin n)) (selectedOrphans : List (Fin m)) : ℕ :=
  saturatingAdd (projectedPublishedBytes entries selected) (orphanBytes orphans) -
    (selectedOrphans.map fun i => (orphans i).bytes).sum

def categoryBytes (include_ : Entry → Bool) : ℕ :=
  let included := (List.finRange n).filter fun i => include_ (entries i)
  let sizes := included.foldl (fun sizes i => recordPayloadSizes sizes (entries i)) fun _ => none
  (included.map fun i => (entries i).narinfoBytes).sum +
    ((included.flatMap fun i => payloadNames (entries i)).dedup.map
      fun name => (sizes name).getD 0).sum

def isEligible (now minAge : ℕ) (entry : Entry) : Bool :=
  !entry.protected_ && decide (minAge ≤ now - entry.modified)

def isEligibleOrphan (now minAge : ℕ) (access : CollectionAccess) (orphan : Orphan) : Bool :=
  decide (minAge ≤ now - orphan.modified) && !access.protectsNarName orphan.name

def eligibleBytes (now minAge : ℕ) (access : CollectionAccess) : ℕ :=
  categoryBytes entries (isEligible now minAge) +
    (((List.finRange m).filter fun i => isEligibleOrphan now minAge access (orphans i)).map
      fun i => (orphans i).bytes).sum

end Reported

def scannedBytes (store : FlatStore) (scanned : List Entry) : ℕ :=
  totalBytes scanned.get + orphanBytes (scanOrphans store scanned).get

section Loop

variable {n : ℕ} (entries : Fin n → Entry)

def removals (counts : Counts) : List (Fin n) → List ℕ
  | [] => []
  | i :: rest =>
    let (removed, counts) := removePublicationBytes (payloadSizes entries) (entries i) counts
    removed :: removals counts rest

variable {entries}

theorem projectedPublishedBytes_eq_sub (entries : Fin n → Entry) (selected : List (Fin n)) :
    projectedPublishedBytes entries selected =
      totalBytes entries - (removals entries (referenceCounts entries) selected).sum := by
  have hl : ∀ (rest : List (Fin n)) (total : ℕ) (counts : Counts),
      (rest.foldl (fun (total, counts) i =>
        let (removed, counts) := removePublicationBytes (payloadSizes entries) (entries i) counts
        (total - removed, counts)) (total, counts)).1 =
      total - (removals entries counts rest).sum := by
    intro rest
    induction rest with
    | nil => exact fun total counts => rfl
    | cons i rest ih =>
      intro total counts
      rw [foldl_cons, removals, sum_cons, ← Nat.sub_sub]
      exact ih _ _
  exact hl selected _ _

theorem removals_sum (hf : totalBytes entries ≤ u64Max) (gone : Finset (Fin n)) (ho : rest.Nodup) (hn : ∀ i ∈ rest, i ∉ gone) :
    freedBytes entries gone + (removals entries (countsWithout entries gone) rest).sum =
      freedBytes entries (rest.toFinset ∪ gone) := by
  induction rest generalizing gone with
  | nil => rw [removals, sum_nil, toFinset_nil, Finset.empty_union, Nat.add_zero]
  | cons i rest ih =>
    obtain ⟨hi, hr⟩ := nodup_cons.1 ho
    obtain ⟨he, hn⟩ := forall_mem_cons.1 hn
    obtain ⟨hb, hc⟩ := removePublicationBytes_spec entries he
    have hmo := freedBytes_mono entries (Finset.subset_insert i gone)
    have hg : freedBytes entries (insert i gone) ≤ totalBytes entries := by
      rw [totalBytes_eq_heldBytes]
      exact freed_le_weight _
    have hw : (entries i).narinfoBytes ≤ u64Max := by
      have hs : freedBytes entries (insert i gone) = _ := freed_insert he
      omega
    have hle := removePublicationBytes_le hw (payloadSizes entries) (countsWithout entries gone)
    have hu : (i :: rest).toFinset ∪ gone = rest.toFinset ∪ insert i gone := by
      rw [toFinset_cons, Finset.insert_union, Finset.union_insert]
    have ihrest := ih (insert i gone) hr fun j hj hm => by
      rcases Finset.mem_insert.1 hm with rfl | hm
      · exact hi hj
      · exact hn j hj hm
    rw [hu, ← ihrest, removals, sum_cons, hc]
    omega

theorem removals_sum_start (entries : Fin n → Entry) (hf : totalBytes entries ≤ u64Max)
    (hn : selected.Nodup) :
    (removals entries (referenceCounts entries) selected).sum =
      freedBytes entries selected.toFinset := by
  have hs := removals_sum hf ∅ hn fun _ _ => Finset.notMem_empty _
  rwa [show freedBytes entries ∅ = 0 from freed_empty, Nat.zero_add, Finset.union_empty,
    ← referenceCounts_eq_countsWithout] at hs

end Loop

section Measured

def regularBytes : DirectoryEntry → ℕ
  | .regular file => file.bytes
  | .other => 0

def fileBytes (store : FlatStore) (name : NarFileName) : ℕ :=
  ((store.nars.lookup name).map regularBytes).getD 0

structure Measured (store : FlatStore) (entry : Entry) : Prop where
  nar : ∃ file, store.nars.lookup entry.narName = some (.regular file) ∧ entry.narBytes = file.bytes
  raw : ∃ file, store.nars.lookup entry.rawNarName = some (.regular file) ∧
    entry.rawNarBytes = file.bytes

variable {store : FlatStore} {entry : Entry} {name : NarFileName}

theorem Measured.narBytes_eq (h : Measured store entry) :
    entry.narBytes = fileBytes store entry.narName := by
  obtain ⟨file, hl, hb⟩ := h.nar
  rw [fileBytes, hl, hb]
  rfl

theorem Measured.rawNarBytes_eq (h : Measured store entry) :
    entry.rawNarBytes = fileBytes store entry.rawNarName := by
  obtain ⟨file, hl, hb⟩ := h.raw
  rw [fileBytes, hl, hb]
  rfl

theorem scanEntry_measured (h : scanEntry store p = .ok entry) : Measured store entry := by
  obtain ⟨nar, hn, -, hm, hb, hw⟩ := scanEntry_ok h
  rw [← hm] at hn
  refine ⟨⟨nar, hn, hb⟩, ?_⟩
  rcases hw with ⟨raw, hl, ha, hr⟩ | ⟨-, ha, hr⟩
  · exact ⟨raw, ha ▸ hl, hr⟩
  · exact ⟨nar, ha ▸ hn, hr⟩

theorem scan_measured (h : scan store = .ok scanned) (he : entry ∈ scanned) :
    Measured store entry := by
  obtain ⟨narinfo, -, hs⟩ := mem_mapM h he
  obtain ⟨p, -, hs⟩ := except_bind_ok.1 hs
  exact scanEntry_measured hs

theorem recordPayloadSizes_eq (he : Measured store entry)
    (hs : ∀ name size, sizes name = some size → size = fileBytes store name) (name : NarFileName) :
    recordPayloadSizes sizes entry name =
      if name ∈ payloadNames entry then some (fileBytes store name) else sizes name := by
  have hi : ∀ (sizes : NarFileName → Option ℕ) (key : NarFileName) (bytes : ℕ),
      (∀ size, sizes key = some size → size = fileBytes store key) → bytes = fileBytes store key →
      Function.update sizes key (some ((sizes key).getD bytes)) name =
        if name = key then some (fileBytes store name) else sizes name := by
    intro sizes key bytes ho hb
    by_cases heq : name = key
    · subst heq
      rw [Function.update_self, if_pos rfl]
      cases hc : sizes name with
      | none => rw [Option.getD_none, hb]
      | some size => rw [Option.getD_some, ho size hc]
    · rw [Function.update_of_ne heq, if_neg heq]
  have hn := hi sizes entry.narName entry.narBytes (hs entry.narName) he.narBytes_eq
  unfold recordPayloadSizes
  by_cases hr : entry.rawNarName ≠ entry.narName
  · simp only [if_pos hr, mem_payloadNames]
    rw [hi _ entry.rawNarName entry.rawNarBytes ?_ he.rawNarBytes_eq, hn]
    · split_ifs <;> tauto
    · rw [Function.update_of_ne hr]
      exact hs entry.rawNarName
  · simp only [if_neg hr, mem_payloadNames, hn]
    push Not at hr
    simp only [hr, or_self]

variable {n : ℕ} {entries : Fin n → Entry}

theorem recordedSizes_eq {positions : List (Fin n)}
    (hm : ∀ i ∈ positions, Measured store (entries i)) {sizes : NarFileName → Option ℕ}
    (hs : ∀ name size, sizes name = some size → size = fileBytes store name) :
    positions.foldl (fun sizes i => recordPayloadSizes sizes (entries i)) sizes name =
      if name ∈ positions.flatMap fun i => payloadNames (entries i) then
        some (fileBytes store name) else sizes name := by
  induction positions generalizing sizes with
  | nil => simp
  | cons i positions ih =>
    obtain ⟨hi, hr⟩ := forall_mem_cons.1 hm
    have ht := recordPayloadSizes_eq hi hs
    rw [foldl_cons, ih hr ?_, ht, flatMap_cons]
    · simp only [mem_append]
      split_ifs <;> tauto
    · intro other size ho
      rw [ht] at ho
      split_ifs at ho
      · exact (Option.some.inj ho).symm
      · exact hs other size ho

theorem recordedSizes_getD {positions : List (Fin n)}
    (hm : ∀ i ∈ positions, Measured store (entries i))
    (hn : name ∈ positions.flatMap fun i => payloadNames (entries i)) :
    (positions.foldl (fun sizes i => recordPayloadSizes sizes (entries i)) (fun _ => none)
      name).getD 0 = fileBytes store name := by
  have hs : ∀ (other : NarFileName) (size : ℕ),
      (none : Option ℕ) = some size → size = fileBytes store other := fun _ _ h => by cases h
  rw [recordedSizes_eq hm hs, if_pos hn, Option.getD_some]

section

variable (hm : ∀ i, Measured store (entries i))
include hm

theorem categoryBytes_eq (include_ : Entry → Bool) : categoryBytes entries include_ =
      weight (payloadsOf entries) (fun i => (entries i).narinfoBytes) (fileBytes store)
        (Finset.univ.filter fun i => include_ (entries i) = true) := by
  let included := (List.finRange n).filter fun i => include_ (entries i)
  have hi : included.toFinset = Finset.univ.filter fun i => include_ (entries i) = true := by
    ext i
    simp [included]
  have ho : included.Nodup := (nodup_finRange n).filter _
  have ha : (included.flatMap fun i => payloadNames (entries i)).dedup.toFinset =
      used (payloadsOf entries) included.toFinset := by
    ext name
    simp [mem_used, mem_payloadsOf]
  rw [weight, ← hi, ← ha, sum_toFinset _ (nodup_dedup _), sum_toFinset _ ho, categoryBytes]
  congr 2
  apply map_congr_left
  intro name hn
  exact recordedSizes_getD (fun i _ => hm i) (mem_dedup.1 hn)

theorem payloadSize_eq {items : Finset (Fin n)} (hn : name ∈ used (payloadsOf entries) items) :
    payloadSize entries name = fileBytes store name := by
  obtain ⟨i, -, hi⟩ := mem_used.1 hn
  have he : name ∈ (List.finRange n).flatMap fun i => payloadNames (entries i) :=
    mem_flatMap.2 ⟨i, mem_finRange i, mem_payloadsOf.1 hi⟩
  exact recordedSizes_getD (fun i _ => hm i) he

theorem heldBytes_eq (items : Finset (Fin n)) :
    heldBytes entries items = weight (payloadsOf entries) (fun i => (entries i).narinfoBytes)
      (fileBytes store) items := by
  rw [heldBytes, weight, weight]
  congr 1
  exact Finset.sum_congr rfl fun name hn => payloadSize_eq hm hn

theorem freedBytes_eq (gone : Finset (Fin n)) :
    freedBytes entries gone = freed (payloadsOf entries) (fun i => (entries i).narinfoBytes)
      (fileBytes store) gone := by
  rw [freedBytes, freed, freed]
  congr 1
  refine Finset.sum_congr rfl fun name hn => ?_
  exact payloadSize_eq hm (Finset.mem_sdiff.1 hn).1

end

end Measured

section Listing

variable {store : FlatStore} {scanned : List Entry}

def narNames (store : FlatStore) : Finset NarFileName := (store.nars.map Prod.fst).toFinset

theorem mem_narNames : name ∈ narNames store ↔ (store.nars.lookup name).isSome := by
  rw [narNames, mem_toFinset]
  constructor
  · intro h
    obtain ⟨p, hp, rfl⟩ := mem_map.1 h
    by_contra hn
    rw [Option.not_isSome_iff_eq_none, lookup_eq_none_iff] at hn
    simpa using hn p hp
  · intro h
    obtain ⟨file, hf⟩ := Option.isSome_iff_exists.1 h
    obtain ⟨before, after, heq, -⟩ := lookup_eq_some_iff.1 hf
    rw [heq]
    simp

theorem fileBytes_of_mem (hn : (store.nars.map Prod.fst).Nodup)
    (hp : p ∈ store.nars) : fileBytes store p.1 = regularBytes p.2 := by
  rw [fileBytes, (FileTree.lookup_eq_some hn).2 hp]
  rfl

theorem mem_referenced :
    name ∈ (scanned.flatMap fun entry => [entry.narName, entry.rawNarName]) ↔
      name ∈ used (payloadsOf scanned.get) Finset.univ := by
  simp only [mem_flatMap, mem_used, mem_payloadsOf, mem_payloadNames, mem_cons,
    not_mem_nil, or_false, Finset.mem_univ, true_and]
  constructor
  · intro h
    obtain ⟨entry, he, hn⟩ := h
    obtain ⟨i, rfl⟩ := get_of_mem he
    exact ⟨i, hn⟩
  · intro h
    obtain ⟨i, hn⟩ := h
    exact ⟨scanned.get i, get_mem _ _, hn⟩

theorem unreferenced_sum (referenced : List NarFileName)
    (nars : List (NarFileName × DirectoryEntry)) :
    ((nars.filterMap fun (name, file) => match file with
      | .other => none
      | .regular file => if name ∈ referenced then none
          else some (⟨name, file.bytes, file.modified⟩ : Orphan)).map
        fun orphan => orphan.bytes).sum =
      (nars.map fun p => if p.1 ∈ referenced then 0 else regularBytes p.2).sum := by
  induction nars with
  | nil => rfl
  | cons p nars ih =>
    obtain ⟨name, file⟩ := p
    rw [map_cons, sum_cons, ← ih, filterMap_cons]
    cases file with
    | other => simp [regularBytes]
    | regular file =>
      by_cases hn : name ∈ referenced
      · simp only [hn, if_true, Nat.zero_add]
      · simp only [hn, if_false, map_cons, sum_cons, regularBytes]

theorem orphanBytes_eq (ha : (store.nars.map Prod.fst).Nodup) :
    orphanBytes (scanOrphans store scanned).get =
      ∑ name ∈ narNames store \ used (payloadsOf scanned.get) Finset.univ, fileBytes store name := by
  have hg : (List.finRange (scanOrphans store scanned).length).map
      ((fun orphan => orphan.bytes) ∘ (scanOrphans store scanned).get) =
      (scanOrphans store scanned).map fun orphan => orphan.bytes := by
    rw [← ofFn_eq_map, ← map_ofFn, ofFn_get]
  refine (congrArg List.sum hg).trans ((unreferenced_sum _ store.nars).trans ?_)
  rw [Finset.sdiff_eq_filter, Finset.sum_filter, narNames, sum_toFinset _ ha, map_map]
  congr 1
  apply map_congr_left
  intro p hp
  by_cases hn : p.1 ∈ used (payloadsOf scanned.get) Finset.univ
  · simp [hn, mem_referenced.2 hn]
  · simp only [mt mem_referenced.1 hn, hn, if_false, not_false_eq_true, if_true,
      Function.comp_apply, fileBytes_of_mem ha hp]

theorem scannedBytes_eq (hs : scan store = .ok scanned)
    (ha : (store.nars.map Prod.fst).Nodup) :
    scannedBytes store scanned =
      ∑ i, (scanned.get i).narinfoBytes + ∑ name ∈ narNames store, fileBytes store name := by
  have hm : ∀ i, Measured store (scanned.get i) := fun i => scan_measured hs (get_mem _ _)
  have hp : used (payloadsOf scanned.get) Finset.univ ⊆ narNames store := by
    intro name hn
    obtain ⟨i, -, hi⟩ := mem_used.1 hn
    rw [mem_narNames]
    obtain ⟨p, -, hd⟩ := (scan_represents hs).described i
    exact hd.present name (mem_payloadsOf.1 hi)
  rw [scannedBytes, totalBytes_eq_heldBytes, heldBytes_eq hm, weight, orphanBytes_eq ha,
    ← Finset.sum_sdiff hp]
  omega

end Listing

section Rescan

variable {n m : ℕ} {store store' : FlatStore} {entries : Fin n → Entry} {orphans : Fin m → Orphan}
  {selected : List (Fin n)} {selectedOrphans : List (Fin m)} {d : Disk} {rescanned : List Entry}

theorem rescanned_narinfoBytes (hr : Represents store entries)
    (hh : ∀ i j, (orphans i).name ∉ payloadNames (entries j))
    (ho : Outcome store entries orphans selected selectedOrphans d) (hl : Lists store' d)
    (hc : scan store' = .ok rescanned) :
    ∑ i, (rescanned.get i).narinfoBytes =
      ∑ i ∈ selected.toFinsetᶜ, (entries i).narinfoBytes := by
  have he := scan_represents hc
  -- both sides run over the same publications
  have hm : ∀ i, ∃ j ∈ selected.toFinsetᶜ,
      (rescanned.get i).toPublication = (entries j).toPublication := by
    intro i
    obtain ⟨p, hp, hd⟩ := he.described i
    obtain ⟨⟨j, hj, hj'⟩, -⟩ := survivor hr hh ho hl hp
    exact ⟨j, by simpa using hj, hd.publication.trans hj'.publication.symm⟩
  choose target ha hs using hm
  refine Finset.sum_bij (fun i _ => target i) (fun i _ => ha i) ?_ ?_ ?_
  · intro i _ j _ heq
    apply he.distinct
    rw [Publication.store, Publication.store, hs i, hs j, heq]
  · intro j hj
    obtain ⟨p, hp, hd⟩ := hr.described j
    have hv : d.root.live p.store = some p := by
      rw [ho.narinfos, if_neg, root_of_publication hp]
      rintro ⟨k, hk, ht⟩
      have heq := hr.distinct k j (ht.trans hd.store_eq.symm)
      rw [heq] at hk
      simp [hk] at hj
    rw [← hl.narinfos] at hv
    obtain ⟨i, hi⟩ := he.complete p (root_find hv).1
    refine ⟨i, Finset.mem_univ i, hr.distinct _ _ ?_⟩
    rw [Publication.store, Publication.store, ← hs i, hi.publication, hd.publication]
  · intro i _
    rw [hs i]

theorem rescanned_narNames
    (ho : Outcome store entries orphans selected selectedOrphans d) (hl : Lists store' d) :
    narNames store' = narNames store \ unlinked entries orphans selected selectedOrphans := by
  ext name
  have ha : store'.nars.lookup name = _ := congrFun hl.nars name
  rw [Finset.mem_sdiff, mem_narNames, mem_narNames, ha, ho.nars]
  split_ifs with hn
  · simp [hn]
  · simp only [hn, not_false_eq_true, and_true]
    rfl

theorem rescanned_fileBytes
    (ho : Outcome store entries orphans selected selectedOrphans d) (hl : Lists store' d) (hn : name ∉ unlinked entries orphans selected selectedOrphans) :
    fileBytes store' name = fileBytes store name := by
  have ha : store'.nars.lookup name = _ := congrFun hl.nars name
  rw [fileBytes, ha, ho.nars, if_neg hn]
  rfl

theorem scanOrphans_mem (hn : (store.nars.map Prod.fst).Nodup)
    (i : Fin (scanOrphans store scanned).length) :
    ((scanOrphans store scanned).get i).name ∈ narNames store ∧
      ((scanOrphans store scanned).get i).bytes =
        fileBytes store ((scanOrphans store scanned).get i).name := by
  have hm := get_mem (scanOrphans store scanned) i
  generalize (scanOrphans store scanned).get i = orphan at hm
  obtain ⟨⟨name, file⟩, hf, hs⟩ := mem_filterMap.1 hm
  have hb := fileBytes_of_mem hn hf
  cases file with
  | other => cases hs
  | regular file =>
    simp only at hs
    split_ifs at hs
    cases Option.some.inj hs
    refine ⟨mem_toFinset.2 (mem_map_of_mem (f := Prod.fst) hf), ?_⟩
    exact hb.symm

end Rescan

section Bytes

variable {store store' : FlatStore} {scanned rescanned : List Entry} {n : ℕ}
  {entries : Fin scanned.length → Entry} {selected : List (Fin scanned.length)}
  {selectedOrphans : List (Fin (scanOrphans store scanned).length)} {d : Disk}

/-- The entries of a pass have the files and narinfos that were scanned. -/
structure SameFiles (scanned : List Entry) (entries : Fin scanned.length → Entry) : Prop where
  publication : ∀ i, (entries i).toPublication = (scanned.get i).toPublication
  narName : ∀ i, (entries i).narName = (scanned.get i).narName
  narBytes : ∀ i, (entries i).narBytes = (scanned.get i).narBytes
  rawNarName : ∀ i, (entries i).rawNarName = (scanned.get i).rawNarName
  rawNarBytes : ∀ i, (entries i).rawNarBytes = (scanned.get i).rawNarBytes

theorem protectEntries_sameFiles (options : GcOptions) (access : CollectionAccess) :
    SameFiles scanned (protectEntries options store access scanned.get) := by
  unfold protectEntries advertisedEntries
  cases options.retention.evictionOrder with
  | publication
  | lastUse => exact ⟨fun _ => rfl, fun _ => rfl, fun _ => rfl, fun _ => rfl, fun _ => rfl⟩

section

variable (h : SameFiles scanned entries)
include h

theorem SameFiles.payloadsOf_eq : payloadsOf entries = payloadsOf scanned.get := by
  funext i
  rw [payloadsOf, payloadsOf, payloadNames, payloadNames, h.narName, h.rawNarName]

theorem SameFiles.measured (hs : scan store = .ok scanned)
    (i : Fin scanned.length) : Measured store (entries i) := by
  obtain ⟨hn, hr⟩ := scan_measured hs (get_mem scanned i)
  constructor
  · rw [h.narName, h.narBytes]
    exact hn
  · rw [h.rawNarName, h.rawNarBytes]
    exact hr

theorem SameFiles.represents (hs : scan store = .ok scanned) : Represents store entries :=
  (scan_represents hs).congr fun i => ⟨h.publication i, h.narName i, h.rawNarName i⟩

theorem SameFiles.orphan_notMem
    (i : Fin (scanOrphans store scanned).length) (j : Fin scanned.length) :
    ((scanOrphans store scanned).get i).name ∉ payloadNames (entries j) := by
  rw [payloadNames, h.narName, h.rawNarName]
  exact orphan_notMem_payloadNames i (get_mem _ _)

theorem SameFiles.totalBytes_eq (hs : scan store = .ok scanned) :
    totalBytes entries = totalBytes scanned.get := by
  have hc : ∀ i, Measured store (scanned.get i) := fun i => scan_measured hs (get_mem _ _)
  have ho : (fun i => (entries i).narinfoBytes) = fun i => (scanned.get i).narinfoBytes := by
    funext i
    rw [h.publication]
  rw [totalBytes_eq_heldBytes, totalBytes_eq_heldBytes, heldBytes_eq (h.measured hs),
    heldBytes_eq hc, h.payloadsOf_eq, ho]

theorem rescanned_add_freed (hs : scan store = .ok scanned) (ha : (store.nars.map Prod.fst).Nodup)
    (ho : Outcome store entries (scanOrphans store scanned).get selected selectedOrphans d)
    (hl : Lists store' d) (hc : scan store' = .ok rescanned) :
    scannedBytes store' rescanned + (freedBytes entries selected.toFinset +
        (selectedOrphans.map fun i => ((scanOrphans store scanned).get i).bytes).sum) =
      scannedBytes store scanned := by
  have he := h.represents hs
  have hf := freedBytes_eq (h.measured hs) selected.toFinset
  rw [freed] at hf
  have hp : (selectedOrphans.map fun i => ((scanOrphans store scanned).get i).bytes).sum =
      ∑ name ∈ (selectedOrphans.map fun i => ((scanOrphans store scanned).get i).name).toFinset,
        fileBytes store name := by
    rw [sum_toFinset _ ho.nodupOrphans, map_map]
    congr 1
    exact map_congr_left fun i _ => (scanOrphans_mem ha i).2
  have hi : Disjoint (used (payloadsOf entries) selected.toFinset \
      used (payloadsOf entries) selected.toFinsetᶜ)
      (selectedOrphans.map fun i => ((scanOrphans store scanned).get i).name).toFinset := by
    rw [Finset.disjoint_left]
    intro name hn hr
    obtain ⟨j, -, hj⟩ := mem_used.1 (Finset.mem_sdiff.1 hn).1
    obtain ⟨i, -, rfl⟩ := mem_map.1 (mem_toFinset.1 hr)
    exact h.orphan_notMem i j (mem_payloadsOf.1 hj)
  have hu : unlinked entries (scanOrphans store scanned).get selected selectedOrphans ⊆
      narNames store := by
    intro name hn
    rcases Finset.mem_union.1 hn with hy | hr
    · obtain ⟨j, -, hj⟩ := mem_used.1 (Finset.mem_sdiff.1 hy).1
      obtain ⟨p, -, hd⟩ := he.described j
      exact mem_narNames.2 (hd.present name (mem_payloadsOf.1 hj))
    · obtain ⟨i, -, rfl⟩ := mem_map.1 (mem_toFinset.1 hr)
      exact (scanOrphans_mem ha i).1
  have hk : ∑ name ∈ narNames store', fileBytes store' name = ∑ name ∈ narNames store \
        unlinked entries (scanOrphans store scanned).get selected selectedOrphans,
        fileBytes store name := by
    rw [rescanned_narNames ho hl]
    exact Finset.sum_congr rfl fun name hn => rescanned_fileBytes ho hl (Finset.mem_sdiff.1 hn).2
  have hw : ∑ i, (scanned.get i).narinfoBytes = ∑ i ∈ selected.toFinset, (entries i).narinfoBytes +
      ∑ i ∈ selected.toFinsetᶜ, (entries i).narinfoBytes := by
    rw [Finset.sum_add_sum_compl]
    exact Finset.sum_congr rfl fun i _ => by rw [h.publication]
  rw [scannedBytes_eq hc hl.names, scannedBytes_eq hs ha, hk, hw, hf,
    hp, rescanned_narinfoBytes he h.orphan_notMem ho hl hc,
    ← Finset.sum_sdiff hu, unlinked, Finset.sum_union hi]
  omega

end

theorem heldBytes_add_freedBytes (entries : Fin n → Entry) (gone : Finset (Fin n)) :
    heldBytes entries goneᶜ + freedBytes entries gone = totalBytes entries := by
  rw [totalBytes_eq_heldBytes]
  exact weight_compl_add_freed gone

theorem eligibleBytes_le {entries : Fin n → Entry} (hm : ∀ i, Measured store (entries i))
    (orphans : Fin m → Orphan) (now minAge : ℕ) (access : CollectionAccess) :
    eligibleBytes entries orphans now minAge access ≤ totalBytes entries + orphanBytes orphans := by
  apply Nat.add_le_add
  · rw [categoryBytes_eq hm, ← heldBytes_eq hm]
    have hh := heldBytes_add_freedBytes entries
      (Finset.univ.filter fun i => isEligible now minAge (entries i) = true)ᶜ
    rw [compl_compl] at hh
    omega
  · exact (filter_sublist.map _).sum_le_sum fun _ _ => Nat.zero_le _

end Bytes

def sharingEntries : List Entry :=
  [sharingEntry (sharingPublication 48 valid_zeros), sharingEntry (sharingPublication 49 valid_ones)]

def keepRoots (roots : List ByteCodecs.Bytes) : GcOptions :=
  ⟨⟨.publication, none⟩, none, none, 0, roots, .apply⟩

def oneProtected : Fin sharingEntries.length → Entry :=
  protectEntries (keepRoots [(sharingPublication 49 valid_ones).storePath.asStr]) sharingStore
    (.offline .absent) sharingEntries.get

def firstRemoved : Disk where
  root := ((diskOf sharingStore).root.record (.unlink (sharingPublication 48 valid_zeros).store)).sync
  nars := (diskOf sharingStore).nars

def secondStore : FlatStore where
  narinfos := [.ok (sharingPublication 49 valid_ones)]
  distinct := List.nodup_singleton _
  nars := sharingStore.nars
  accessTime := fun _ => none

theorem sharingStore_names : (sharingStore.nars.map Prod.fst).Nodup := nodup_singleton _

theorem firstRemoved_run :
    Run Step (diskOf sharingStore)
      (deletion .absent oneProtected [⟨0, by decide⟩] (scanOrphans sharingStore sharingEntries).get [])
      firstRemoved := run_cons.2 ⟨_, rfl, run_cons.2 ⟨_, rfl, run_cons.2 ⟨_, rfl, run_nil.2 rfl⟩⟩⟩

theorem secondStore_lists : Lists secondStore firstRemoved where
  valid := by
    intro narinfo hm
    rw [mem_singleton.1 hm]
    exact ⟨_, rfl⟩
  narinfos := by
    funext hash
    by_cases hf : hash = (sharingPublication 48 valid_zeros).store
    · subst hf
      decide +kernel
    · have hl : firstRemoved.root.live hash = (diskOf sharingStore).root.live hash :=
        Function.update_of_ne hf ..
      have hs : [sharingPublication 48 valid_zeros, sharingPublication 49 valid_ones].find?
          (fun p => p.store = hash) =
          [sharingPublication 49 valid_ones].find? fun p => p.store = hash :=
        List.find?_cons_of_neg (by simpa using Ne.symm hf)
      exact (hl.trans hs).symm
  nars := rfl
  names := sharingStore_names

/-- The bytes reported as left are the bytes that a scan after the deletion adds up, however
payloads are shared and in whatever order the candidates are taken. The subtractions never
exceed what is there, and the addition stays within 64 bits. -/
theorem logicalAfterBytes_eq_rescan {store : FlatStore} {scanned : List Entry}
    (hscan : scan store = .ok scanned) (hnames : (store.nars.map Prod.fst).Nodup)
    (hfits : scannedBytes store scanned ≤ u64Max) (options : GcOptions) (access : CollectionAccess)
    (leases : AdvertisementLeases) (selected : List (Fin scanned.length))
    (selectedOrphans : List (Fin (scanOrphans store scanned).length))
    {entries : Fin scanned.length → Entry}
    (hentries : entries = protectEntries options store access scanned.get) {d : Disk}
    (hrun : Run Step (diskOf store)
      (deletion leases entries selected (scanOrphans store scanned).get selectedOrphans) d)
    {store' : FlatStore} (hlists : Lists store' d) :
    ∃ rescanned, scan store' = .ok rescanned ∧
      logicalAfterBytes entries (scanOrphans store scanned).get selected selectedOrphans =
        scannedBytes store' rescanned ∧
      (removals entries (referenceCounts entries) selected).sum ≤ totalBytes entries ∧
      (selectedOrphans.map fun i => ((scanOrphans store scanned).get i).bytes).sum ≤
        projectedPublishedBytes entries selected + orphanBytes (scanOrphans store scanned).get ∧
      projectedPublishedBytes entries selected + orphanBytes (scanOrphans store scanned).get ≤
        u64Max := by
  have hs := hentries ▸ protectEntries_sameFiles options access
  have ho := deletion_outcome hrun
  obtain ⟨rescanned, hr⟩ := rescan hscan (hs.represents hscan) hs.orphan_notMem ho hlists
  have hb : scannedBytes store scanned =
      totalBytes entries + orphanBytes (scanOrphans store scanned).get := by
    rw [scannedBytes, hs.totalBytes_eq hscan]
  have ha := rescanned_add_freed hs hscan hnames ho hlists hr
  have hh := heldBytes_add_freedBytes entries selected.toFinset
  have he := removals_sum_start entries (by omega) ho.nodup
  have hp := projectedPublishedBytes_eq_sub entries selected
  refine ⟨rescanned, hr, ?_, by omega, by omega, by omega⟩
  rw [logicalAfterBytes, saturatingAdd]
  omega

theorem firstRemoved_leaves_the_payload :
    ∃ rescanned, scan secondStore = .ok rescanned ∧
      logicalAfterBytes oneProtected (scanOrphans sharingStore sharingEntries).get [⟨0, by decide⟩] [] =
        scannedBytes secondStore rescanned ∧ scannedBytes sharingStore sharingEntries = 25 := by
  have hs : scan sharingStore = .ok sharingEntries := rfl
  have hf : scannedBytes sharingStore sharingEntries ≤ u64Max := by decide +kernel
  obtain ⟨rescanned, hr, hb, -⟩ := logicalAfterBytes_eq_rescan hs sharingStore_names
    hf _ _ .absent [⟨0, by decide⟩] [] rfl firstRemoved_run secondStore_lists
  exact ⟨rescanned, hr, hb, by decide +kernel⟩

/-- The bytes reported as eligible are freed by deleting every eligible candidate exactly when no
payload with bytes is shared between an eligible and another publication. Their sum stays within
64 bits if the bytes of the whole store do. -/
theorem eligibleBytes_reclaimable_iff {store : FlatStore} {scanned : List Entry}
    (hscan : scan store = .ok scanned) (hnames : (store.nars.map Prod.fst).Nodup)
    (hfits : scannedBytes store scanned ≤ u64Max) (options : GcOptions)
    (access : CollectionAccess) (now : ℕ) (leases : AdvertisementLeases)
    {entries : Fin scanned.length → Entry}
    (hentries : entries = protectEntries options store access scanned.get)
    {selected : List (Fin scanned.length)}
    (hselected : ∀ i, i ∈ selected ↔ isEligible now options.minAge (entries i) = true)
    {selectedOrphans : List (Fin (scanOrphans store scanned).length)}
    (hselectedOrphans : ∀ i, i ∈ selectedOrphans ↔
      isEligibleOrphan now options.minAge access ((scanOrphans store scanned).get i) = true)
    {d : Disk} (hrun : Run Step (diskOf store)
      (deletion leases entries selected (scanOrphans store scanned).get selectedOrphans) d)
    {store' : FlatStore} (hlists : Lists store' d) {rescanned : List Entry}
    (hrescan : scan store' = .ok rescanned) :
    eligibleBytes entries (scanOrphans store scanned).get now options.minAge access ≤ u64Max ∧
    (eligibleBytes entries (scanOrphans store scanned).get now options.minAge access ≤
        scannedBytes store scanned - scannedBytes store' rescanned ↔
      ∀ i j name, isEligible now options.minAge (entries i) = true →
        isEligible now options.minAge (entries j) = false →
        name ∈ payloadNames (entries i) → name ∈ payloadNames (entries j) →
          fileBytes store name = 0) := by
  have hs := hentries ▸ protectEntries_sameFiles options access
  have hm := hs.measured hscan
  have hu := deletion_outcome hrun
  have ha := rescanned_add_freed hs hscan hnames hu hlists hrescan
  have he : selected.toFinset =
      Finset.univ.filter fun i => isEligible now options.minAge (entries i) = true := by
    ext i
    simp [hselected]
  have hr : (((List.finRange (scanOrphans store scanned).length).filter fun i =>
      isEligibleOrphan now options.minAge access ((scanOrphans store scanned).get i)).map
        fun i => ((scanOrphans store scanned).get i).bytes).sum =
      (selectedOrphans.map fun i => ((scanOrphans store scanned).get i).bytes).sum := by
    apply List.Perm.sum_eq
    apply List.Perm.map
    refine (perm_ext_iff_of_nodup ((nodup_finRange _).filter _)
      hu.nodupOrphans.of_map).2 fun i => ?_
    simp [hselectedOrphans]
  have hf : eligibleBytes entries (scanOrphans store scanned).get now options.minAge access ≤
      scannedBytes store scanned - scannedBytes store' rescanned ↔
      weight (payloadsOf entries) (fun i => (entries i).narinfoBytes) (fileBytes store)
        selected.toFinset ≤ freed (payloadsOf entries) (fun i => (entries i).narinfoBytes)
        (fileBytes store) selected.toFinset := by
    rw [eligibleBytes, categoryBytes_eq hm, hr, ← he]
    rw [freedBytes_eq hm] at ha
    omega
  have hb : scannedBytes store scanned =
      totalBytes entries + orphanBytes (scanOrphans store scanned).get := by
    rw [scannedBytes, hs.totalBytes_eq hscan]
  have hle := eligibleBytes_le hm (scanOrphans store scanned).get now options.minAge access
  refine ⟨by omega, ?_⟩
  rw [hf, weight_le_freed_iff]
  simp only [mem_used, mem_payloadsOf, Finset.mem_compl, mem_toFinset, hselected]
  constructor
  · intro h i j name hi hj hn ho
    exact h name ⟨i, hi, hn⟩ ⟨j, by simp [hj], ho⟩
  · intro h name hn ho
    obtain ⟨i, hi, hn⟩ := hn
    obtain ⟨j, hj, ho⟩ := ho
    exact h i j name hi (by simpa using hj) hn ho

/-- A publication of a NAR of its own. -/
def apartPublication : TrustedGcPublication :=
  { sharingPublication 49 valid_ones with
    representation := .raw ⟨.ofNat 1, 7⟩ }

def apartStore : FlatStore where
  narinfos := [.ok (sharingPublication 48 valid_zeros), .ok apartPublication]
  distinct := by decide
  nars := sharingStore.nars ++ [(apartPublication.representation.fileName, .regular ⟨7, 0⟩)]
  accessTime := fun _ => none

def apartEntries : List Entry :=
  [sharingEntry (sharingPublication 48 valid_zeros),
    { sharingEntry apartPublication with narBytes := 7, rawNarBytes := 7 }]

def apartProtected : Fin apartEntries.length → Entry :=
  protectEntries (keepRoots [apartPublication.storePath.asStr]) apartStore (.offline .absent)
    apartEntries.get

def apartRemoved : Disk where
  root := ((diskOf apartStore).root.record (.unlink (sharingPublication 48 valid_zeros).store)).sync
  nars := ((diskOf apartStore).nars.record
    (.unlink (sharingPublication 48 valid_zeros).representation.fileName)).sync

def apartLeft : FlatStore where
  narinfos := [.ok apartPublication]
  distinct := List.nodup_singleton _
  nars := [(apartPublication.representation.fileName, .regular ⟨7, 0⟩)]
  accessTime := fun _ => none

theorem apartLeft_lists : Lists apartLeft apartRemoved where
  valid := by
    intro narinfo hm
    rw [mem_singleton.1 hm]
    exact ⟨_, rfl⟩
  narinfos := by
    funext hash
    by_cases hf : hash = (sharingPublication 48 valid_zeros).store
    · subst hf
      decide +kernel
    · have hl : apartRemoved.root.live hash = (diskOf apartStore).root.live hash :=
        Function.update_of_ne hf ..
      have hs : [sharingPublication 48 valid_zeros, apartPublication].find?
          (fun p => p.store = hash) = [apartPublication].find? fun p => p.store = hash :=
        List.find?_cons_of_neg (by simpa using Ne.symm hf)
      exact (hl.trans hs).symm
  nars := by
    funext name
    by_cases hf : name = (sharingPublication 48 valid_zeros).representation.fileName
    · subst hf
      decide +kernel
    · have hl : apartRemoved.nars.live name = (diskOf apartStore).nars.live name :=
        Function.update_of_ne hf ..
      have hk : apartStore.nars.lookup name = apartLeft.nars.lookup name := by
        rw [show apartStore.nars = ((sharingPublication 48 valid_zeros).representation.fileName,
          .regular ⟨5, 0⟩) :: apartLeft.nars from rfl, lookup_cons, beq_eq_false_iff_ne.2 hf]
      exact (hl.trans hk).symm
  names := nodup_singleton _

/-- An eligible publication beside a protected one that shares nothing with it: all that is
reported as eligible is freed. -/
theorem apartStore_reclaims :
    scan apartStore = .ok apartEntries ∧
    eligibleBytes apartProtected (scanOrphans apartStore apartEntries).get 0 0 (.offline .absent) =
      15 ∧
    eligibleBytes apartProtected (scanOrphans apartStore apartEntries).get 0 0 (.offline .absent) ≤
      scannedBytes apartStore apartEntries - scannedBytes apartLeft [apartEntries.get ⟨1, by decide⟩] := by
  have hs : scan apartStore = .ok apartEntries := rfl
  have hr : Run Step (diskOf apartStore)
      (deletion .absent apartProtected [⟨0, by decide⟩] (scanOrphans apartStore apartEntries).get [])
      apartRemoved :=
    run_cons.2 ⟨_, rfl, run_cons.2 ⟨_, rfl, run_cons.2 ⟨_, rfl, run_cons.2 ⟨_, rfl,
      run_cons.2 ⟨_, rfl, run_nil.2 rfl⟩⟩⟩⟩⟩
  refine ⟨hs, by decide +kernel, (eligibleBytes_reclaimable_iff hs (by decide) (by decide +kernel)
    (keepRoots [apartPublication.storePath.asStr]) (.offline .absent) 0 .absent rfl
    (by decide +kernel) (by decide +kernel) hr apartLeft_lists rfl).2.2 ?_⟩
  have ha : ∀ i j, isEligible 0 0 (apartProtected i) = true →
      isEligible 0 0 (apartProtected j) = false →
      ∀ name ∈ payloadNames (apartProtected i), name ∉ payloadNames (apartProtected j) := by
    decide +kernel
  intro i j name hi hj hn hm
  exact absurd hm (ha i j hi hj name hn)

/-- The payload of an eligible publication is reported as eligible although a root keeps it. -/
theorem oneProtected_overcounts :
    (∀ i : Fin sharingEntries.length, i ∈ [(⟨0, by decide⟩ : Fin sharingEntries.length)] ↔
      isEligible 0 0 (oneProtected i) = true) ∧ Run Step (diskOf sharingStore)
      (deletion .absent oneProtected [⟨0, by decide⟩] (scanOrphans sharingStore sharingEntries).get [])
      firstRemoved ∧
    Lists secondStore firstRemoved ∧
    scan secondStore = .ok [sharingEntry (sharingPublication 49 valid_ones)] ∧
    scannedBytes sharingStore sharingEntries -
        scannedBytes secondStore [sharingEntry (sharingPublication 49 valid_ones)] = 10 ∧
    eligibleBytes oneProtected (scanOrphans sharingStore sharingEntries).get 0 0
      (.offline .absent) = 15 :=
  ⟨by decide +kernel, firstRemoved_run, secondStore_lists, rfl, by decide +kernel, by decide +kernel⟩

end FlatProjection
