import Narjar.FlatCollection
import Narjar.LabelledRuns

/-!
# Deleting from a flat store

The effects of a deletion on the two directories of the store, for every prefix that is
executed and every crash. The reference counts of the loop are the number of narinfos that are
left, so a payload is unlinked after the durable removal of the last one.
-/
namespace FlatDeletion

open FallibleState ObjectNames CollectionCoordinator DirectoryDurability FlatCollection LabelledRuns
open List

structure Disk where
  root : Directory StoreHash TrustedGcPublication
  nars : Directory NarFileName DirectoryEntry

/-- An effect that finds nothing to unlink fails. -/
def run : Effect → Disk → Option Disk
  | .refuse, _ => none
  | .markRemovalPending _, d | .notePublicationRemoved _, d | .unlinkLease _, d
  | .syncLeases, d => some d
  | .unlinkNarinfo store, d =>
    if (d.root.live store).isSome then some { d with root := d.root.record (.unlink store) }
    else none
  | .syncRoot, d => some { d with root := d.root.sync }
  | .unlinkNar name, d =>
    if (d.nars.live name).isSome then some { d with nars := d.nars.record (.unlink name) }
    else none
  | .syncNars, d => some { d with nars := d.nars.sync }

def Step (d : Disk) (effect : Effect) (d' : Disk) : Prop := run effect d = some d'

variable {d d' : Disk} {executed plan : List Effect} {name : NarFileName} {p : TrustedGcPublication}
variable {scanned : List Entry} {leases : AdvertisementLeases} {hash : StoreHash}
variable {names : List NarFileName} {α : Type} {first rest after : List α} {x : α} {counts : Counts}
variable {entry : Entry}

theorem step_unlinkNarinfo :
    Step d (.unlinkNarinfo store) d' ↔
      (d.root.live store).isSome ∧ d' = { d with root := d.root.record (.unlink store) } := by
  simp only [Step, run]
  split_ifs with h
  · simp only [h, true_and, Option.some.injEq, eq_comm]
  · simp only [h, false_and, reduceCtorEq]

theorem step_unlinkNar :
    Step d (.unlinkNar name) d' ↔
      (d.nars.live name).isSome ∧ d' = { d with nars := d.nars.record (.unlink name) } := by
  simp only [Step, run]
  split_ifs with h
  · simp only [h, true_and, Option.some.injEq, eq_comm]
  · simp only [h, false_and, reduceCtorEq]

def publications (store : FlatStore) : List TrustedGcPublication :=
  store.narinfos.filterMap Except.toOption

/-- The disk a store is on, with everything synced. -/
def diskOf (store : FlatStore) : Disk where
  root := ⟨fun hash => (publications store).find? fun p => p.store = hash, []⟩
  nars := ⟨fun name => store.nars.lookup name, []⟩

theorem mem_publications : p ∈ publications store ↔ .ok p ∈ store.narinfos := by
  rw [publications, mem_filterMap]
  constructor
  · intro h
    obtain ⟨narinfo, hm, hs⟩ := h
    cases narinfo with
    | error => cases hs
    | ok q =>
      cases Option.some.inj hs
      exact hm
  · intro h
    exact ⟨_, h, rfl⟩

theorem root_find (h : (diskOf store).root.live hash = some p) :
    p ∈ publications store ∧ p.store = hash := by
  have hf := h
  exact ⟨mem_of_find?_eq_some hf, by simpa using List.find?_some hf⟩

theorem root_of_publication (hp : p ∈ publications store) :
    (diskOf store).root.live p.store = some p := by
  have hn : ((publications store).map fun q => q.store).Nodup := by
    rw [publications, map_filterMap]
    exact store.distinct
  cases hf : (diskOf store).root.live p.store with
  | none => exact absurd (decide_eq_true rfl) (List.find?_eq_none.1 hf p hp)
  | some q =>
    obtain ⟨hq, hs⟩ := root_find hf
    rw [inj_on_of_nodup_map hn hq hp hs]

/-- The entry stands for the publication: it has its files, as far as they exist. -/
structure Describes (store : FlatStore) (p : TrustedGcPublication) (entry : Entry) : Prop where
  publication : entry.toPublication = p.toPublication
  output : entry.narName = p.representation.fileName
  canonical : (store.nars.lookup p.canonicalRawName).isSome → entry.rawNarName = p.canonicalRawName
  present : ∀ name ∈ payloadNames entry, (store.nars.lookup name).isSome

section Scan

variable {store : FlatStore} {p : TrustedGcPublication} {entry : Entry} {name : NarFileName}

theorem mem_payloadNames : name ∈ payloadNames entry ↔ name = entry.narName ∨ name = entry.rawNarName := by
  unfold payloadNames
  split_ifs with hne
  · simp only [mem_cons, not_mem_nil, or_false]
  · push Not at hne
    simp only [mem_cons, not_mem_nil, or_false, hne, or_self]

theorem payloadNames_nodup (entry : Entry) : (payloadNames entry).Nodup := by
  unfold payloadNames
  split_ifs with hne
  · exact nodup_cons.2 ⟨by simpa using hne.symm, nodup_singleton _⟩
  · exact nodup_singleton _

theorem Describes.store_eq (h : Describes store p entry) : entry.store = p.store := by
  rw [Publication.store, Publication.store, h.publication]

theorem scanEntry_ok (h : scanEntry store p = .ok entry) :
    ∃ nar, store.nars.lookup p.representation.fileName = some (.regular nar) ∧
      entry.toPublication = p.toPublication ∧ entry.narName = p.representation.fileName ∧
      entry.narBytes = nar.bytes ∧
      ((∃ raw, store.nars.lookup p.canonicalRawName = some (.regular raw) ∧
          entry.rawNarName = p.canonicalRawName ∧ entry.rawNarBytes = raw.bytes) ∨
        store.nars.lookup p.canonicalRawName = none ∧
          entry.rawNarName = entry.narName ∧ entry.rawNarBytes = nar.bytes) := by
  unfold scanEntry at h
  simp only [bind, Except.bind] at h
  cases hn : store.nars.lookup p.representation.fileName with
  | none => simp [hn] at h
  | some file =>
    cases file with
    | other => simp [hn] at h
    | regular nar =>
      simp only [hn] at h
      split_ifs at h
      cases hr : store.nars.lookup p.canonicalRawName with
      | none =>
        simp only [hr] at h
        cases Except.ok.inj h
        exact ⟨nar, rfl, rfl, rfl, rfl, .inr ⟨rfl, rfl, rfl⟩⟩
      | some file =>
        cases file with
        | other => simp [hr] at h
        | regular raw =>
          simp only [hr] at h
          cases Except.ok.inj h
          exact ⟨nar, rfl, rfl, rfl, rfl, .inl ⟨raw, rfl, rfl, rfl⟩⟩

theorem scanEntry_describes (h : scanEntry store p = .ok entry) : Describes store p entry := by
  obtain ⟨nar, ha, hp, hn, -, hw⟩ := scanEntry_ok h
  refine ⟨hp, hn, fun hs => ?_, fun name hm => ?_⟩
  · rcases hw with ⟨raw, -, hr, -⟩ | ⟨ho, -⟩
    · exact hr
    · rw [ho] at hs
      cases hs
  · rcases mem_payloadNames.1 hm with rfl | rfl
    · rw [hn, ha]
      rfl
    · rcases hw with ⟨raw, hl, hr, -⟩ | ⟨-, hr, -⟩
      · rw [hr, hl]
        rfl
      · rw [hr, hn, ha]
        rfl

theorem scan_describes (h : scan store = .ok scanned) :
    List.Forall₂ (fun narinfo entry => ∃ p, narinfo = .ok p ∧ Describes store p entry)
      store.narinfos scanned := by
  refine (mapM_ok h).imp ?_
  intro narinfo entry he
  rw [except_bind_ok] at he
  obtain ⟨p, hp, hs⟩ := he
  exact ⟨p, hp, scanEntry_describes hs⟩

end Scan

/-- The entries stand for the publications of the store, one for each. -/
structure Represents (store : FlatStore) {n : ℕ} (entries : Fin n → Entry) : Prop where
  distinct : ∀ i j, (entries i).store = (entries j).store → i = j
  described : ∀ i, ∃ p ∈ publications store, Describes store p (entries i)
  complete : ∀ p ∈ publications store, ∃ i, Describes store p (entries i)

/-- Element by element, so in the same order and with nothing left out on either side. -/
theorem described_lists {store : FlatStore}
    {narinfos : List (Except StorageError TrustedGcPublication)}
    (h : List.Forall₂ (fun narinfo entry => ∃ p, narinfo = .ok p ∧
      Describes store p entry) narinfos scanned) :
    (narinfos.filterMap fun narinfo => narinfo.toOption.map fun p => p.store) =
        scanned.map (fun entry => entry.store) ∧
      (∀ entry ∈ scanned, ∃ p, .ok p ∈ narinfos ∧ Describes store p entry) ∧
      ∀ p, .ok p ∈ narinfos → ∃ entry ∈ scanned, Describes store p entry := by
  induction h with
  | nil => exact ⟨rfl, nofun, nofun⟩
  | @cons narinfo entry narinfos scanned hn _ ih =>
    obtain ⟨p, rfl, hd⟩ := hn
    obtain ⟨hs, he, hc⟩ := ih
    refine ⟨?_, fun other ho => ?_, fun q hq => ?_⟩
    · rw [map_cons, ← hs, hd.store_eq]
      rfl
    · rcases mem_cons.1 ho with rfl | hr
      · exact ⟨p, mem_cons_self, hd⟩
      · obtain ⟨q, hq, hd⟩ := he other hr
        exact ⟨q, mem_cons_of_mem _ hq, hd⟩
    · rcases mem_cons.1 hq with heq | hr
      · cases Except.ok.inj heq
        exact ⟨entry, mem_cons_self, hd⟩
      · obtain ⟨other, ho, hd⟩ := hc q hr
        exact ⟨other, mem_cons_of_mem _ ho, hd⟩

theorem scan_represents {store : FlatStore} (h : scan store = .ok scanned) :
    Represents store scanned.get := by
  obtain ⟨hs, he, hc⟩ := described_lists (scan_describes h)
  refine ⟨fun i j hij => ?_, fun i => ?_, fun p hp => ?_⟩
  · have hn := store.distinct
    rw [hs] at hn
    have heq := inj_on_of_nodup_map hn (get_mem _ _) (get_mem _ _) hij
    exact hn.of_map.get_inj_iff.1 heq
  · obtain ⟨p, hp, hd⟩ := he _ (get_mem scanned i)
    exact ⟨p, mem_publications.2 hp, hd⟩
  · obtain ⟨entry, ht, hd⟩ := hc p (mem_publications.1 hp)
    obtain ⟨i, rfl⟩ := get_of_mem ht
    exact ⟨i, hd⟩

theorem Represents.congr
    (h : Represents store entries)
    (hs : ∀ i, (others i).toPublication = (entries i).toPublication ∧
      (others i).narName = (entries i).narName ∧ (others i).rawNarName = (entries i).rawNarName) :
    Represents store others := by
  have ht : ∀ i, (others i).store = (entries i).store := by
    intro i
    rw [Publication.store, Publication.store, (hs i).1]
  have he : ∀ i p, Describes store p (entries i) → Describes store p (others i) := by
    intro i p hp
    obtain ⟨hu, ho, hr⟩ := hs i
    refine ⟨hu.trans hp.publication, ho.trans hp.output,
      fun hm => hr.trans (hp.canonical hm), fun name hn => hp.present name ?_⟩
    rw [mem_payloadNames] at hn ⊢
    rwa [← ho, ← hr]
  refine ⟨fun i j hij => h.distinct i j ?_, fun i => ?_, fun p hp => ?_⟩
  · rw [← ht i, ← ht j, hij]
  · obtain ⟨p, hp, hd⟩ := h.described i
    exact ⟨p, hp, he i p hd⟩
  · obtain ⟨i, hd⟩ := h.complete p hp
    exact ⟨i, he i p hd⟩

theorem advertisedEntries_represents {n : ℕ} {scanned : Fin n → Entry}
    (h : Represents store scanned) (options : GcOptions) (access : CollectionAccess) :
    Represents store (advertisedEntries options store access scanned) := by
  apply h.congr
  intro i
  unfold advertisedEntries
  cases options.retention.evictionOrder <;> exact ⟨rfl, rfl, rfl⟩

theorem protectEntries_represents {n : ℕ} {scanned : Fin n → Entry}
    (h : Represents store scanned) (options : GcOptions) (access : CollectionAccess) :
    Represents store (protectEntries options store access scanned) :=
  (advertisedEntries_represents h options access).congr fun _ => ⟨rfl, rfl, rfl⟩

theorem count_names (hn : names.Nodup) (counts : Counts) (name : NarFileName) :
    names.foldl (fun counts name => Function.update counts name (counts name + 1)) counts name =
      counts name + if name ∈ names then 1 else 0 := by
  induction names generalizing counts with
  | nil => rfl
  | cons first names ih =>
    obtain ⟨hf, hr⟩ := nodup_cons.1 hn
    rw [foldl_cons, ih hr]
    by_cases heq : name = first
    · subst heq
      rw [Function.update_self, if_neg hf, if_pos mem_cons_self]
    · rw [Function.update_of_ne heq]
      simp only [mem_cons, heq, false_or]

theorem release_names (ho : names.Nodup) (counts : Counts) :
    releasePayloads names counts =
      (names.filter fun name => counts name - 1 = 0,
        fun name => if name ∈ names then counts name - 1 else counts name) := by
  induction names generalizing counts with
  | nil => rfl
  | cons first names ih =>
    obtain ⟨hf, hr⟩ := nodup_cons.1 ho
    rw [releasePayloads, ih hr]
    refine Prod.ext ?_ ?_
    · have hi : (names.filter fun name =>
          Function.update counts first (counts first - 1) name - 1 = 0) =
            names.filter fun name => counts name - 1 = 0 := by
        apply filter_congr
        intro name hn
        have hne : name ≠ first := fun heq => hf (heq ▸ hn)
        rw [Function.update_of_ne hne]
      simp only [hi, filter_cons, decide_eq_true_eq]
    · funext name
      by_cases heq : name = first
      · subst heq
        simp only [if_neg hf, mem_cons, true_or, if_true, Function.update_self]
      · simp only [mem_cons, heq, false_or, Function.update_of_ne heq]

theorem released_nodup (entry : Entry) (counts : Counts) :
    (releasePayloads (payloadNames entry) counts).1.Nodup := by
  rw [release_names (payloadNames_nodup _)]
  exact List.Nodup.filter _ (payloadNames_nodup _)

section Accounts

variable {n : ℕ} (entries : Fin n → Entry)

/-- The entries that refer to a payload and whose narinfo is still there. -/
def holders (d : Disk) (name : NarFileName) : Finset (Fin n) :=
  Finset.univ.filter fun i =>
    name ∈ payloadNames (entries i) ∧ (d.root.live (entries i).store).isSome

theorem referenceCounts_eq (name : NarFileName) :
    referenceCounts entries name =
      (Finset.univ.filter fun i => name ∈ payloadNames (entries i)).card := by
  have hf : ∀ (positions : List (Fin n)) (counts : Counts),
      positions.foldl (fun counts i => (payloadNames (entries i)).foldl
        (fun counts name => Function.update counts name (counts name + 1)) counts) counts name =
      counts name + (positions.filter fun i => name ∈ payloadNames (entries i)).length := by
    intro positions
    induction positions with
    | nil => exact fun _ => rfl
    | cons i positions ih =>
      intro counts
      rw [foldl_cons, ih, count_names (payloadNames_nodup _), filter_cons]
      by_cases hn : name ∈ payloadNames (entries i)
      · simp only [hn, if_true, decide_true, length_cons]
        omega
      · simp only [hn, if_false, decide_false, Bool.false_eq_true, add_zero]
  rw [referenceCounts, hf, zero_add]
  rfl

/-- No narinfo that a crash may leave refers to the payload. -/
def Unreferenced (d : Disk) (name : NarFileName) : Prop :=
  ∀ i, name ∈ payloadNames (entries i) → d.root.synced (entries i).store = none

/-- Between two entries of the loop: the counts are the narinfos that are left, their removals
are durable, and a payload that is counted is there. -/
structure Accounts (counts : Counts) (d : Disk) : Prop where
  counted : ∀ name, counts name = (holders entries d name).card
  durable : d.root.synced = d.root.live
  held : ∀ name, 0 < counts name → (d.nars.live name).isSome

end Accounts

variable {n : ℕ} {entries : Fin n → Entry} {store : FlatStore}

theorem start_accounts (h : Represents store entries) :
    Accounts entries (referenceCounts entries) (diskOf store) := by
  have hl : ∀ i, ((diskOf store).root.live (entries i).store).isSome := by
    intro i
    obtain ⟨p, hp, hd⟩ := h.described i
    rw [hd.store_eq, root_of_publication hp]
    rfl
  refine ⟨fun name => ?_, rfl, fun name hn => ?_⟩
  · rw [referenceCounts_eq]
    simp only [holders, hl, and_true]
  · rw [referenceCounts_eq, Finset.card_pos] at hn
    obtain ⟨i, hi⟩ := hn
    obtain ⟨p, -, hd⟩ := h.described i
    exact hd.present name (Finset.mem_filter.1 hi).2

section Entry

variable {leases : AdvertisementLeases} {d d' : Disk} {counts : Counts} {i : Fin n}

theorem removal_run {store}
    (h : Run Step d (removeNarinfoWithRetentionAndUnlink leases store ++ [.syncRoot]) d') :
    (d.root.live store).isSome ∧ d'.nars = d.nars ∧
      d'.root.live = Function.update d.root.live store none ∧ d'.root.synced = d'.root.live := by
  cases leases with
  | absent =>
    simp only [removeNarinfoWithRetentionAndUnlink, markAdvertisementRemovalPending,
      removeAdvertisementRecord, nil_append, cons_append, run_cons, run_nil,
      step_unlinkNarinfo] at h
    obtain ⟨d₁, hn, d₂, ⟨hl, rfl⟩, d₃, hs, rfl⟩ := h
    cases Option.some.inj hn
    cases Option.some.inj hs
    exact ⟨hl, rfl, Directory.live_record, rfl⟩
  | incomplete =>
    simp only [removeNarinfoWithRetentionAndUnlink, markAdvertisementRemovalPending,
      cons_append, run_cons] at h
    obtain ⟨d₁, hr, -⟩ := h
    cases hr
  | active =>
    simp only [removeNarinfoWithRetentionAndUnlink, markAdvertisementRemovalPending,
      removeAdvertisementRecord, nil_append, cons_append, run_cons, run_nil,
      step_unlinkNarinfo] at h
    obtain ⟨d₁, hm, d₂, hn, d₃, ⟨hl, rfl⟩, d₄, hs, d₅, he, d₆, ha, d₇, hy, rfl⟩ := h
    cases Option.some.inj hm
    cases Option.some.inj hn
    cases Option.some.inj hs
    cases Option.some.inj he
    cases Option.some.inj ha
    cases Option.some.inj hy
    exact ⟨hl, rfl, Directory.live_record, rfl⟩

theorem unlinks_run (h : Run Step d (names.map Effect.unlinkNar) d') :
    d'.root = d.root ∧
      ∀ name, d'.nars.live name = if name ∈ names then none else d.nars.live name := by
  induction names generalizing d with
  | nil =>
    rw [map_nil, run_nil] at h
    rw [h]
    exact ⟨rfl, fun _ => rfl⟩
  | cons first names ih =>
    rw [map_cons, run_cons] at h
    obtain ⟨d₁, hs, hr⟩ := h
    obtain ⟨-, rfl⟩ := step_unlinkNar.1 hs
    obtain ⟨ho, hi⟩ := ih hr
    refine ⟨ho, fun name => ?_⟩
    rw [hi, Directory.live_record]
    by_cases hl : name ∈ names
    · rw [if_pos hl, if_pos (mem_cons_of_mem _ hl)]
    · rw [if_neg hl]
      by_cases heq : name = first
      · subst heq
        rw [if_pos mem_cons_self, Change.apply_unlink_self]
      · rw [if_neg (not_mem_cons_of_ne_of_not_mem heq hl), Change.apply_unlink_of_ne _ heq]

section

variable (h : Represents store entries)
include h

theorem holders_removed (hl : d'.root.live = Function.update d.root.live (entries i).store none)
    (name : NarFileName) : holders entries d' name = (holders entries d name).erase i := by
  ext j
  simp only [holders, Finset.mem_filter, Finset.mem_univ, true_and, Finset.mem_erase, hl]
  by_cases heq : j = i
  · subst heq
    simp only [Function.update_self, Option.isSome_none, Bool.false_eq_true, and_false, ne_eq,
      not_true_eq_false, false_and]
  · have ht : (entries j).store ≠ (entries i).store := fun hs => heq (h.distinct j i hs)
    simp only [Function.update_of_ne ht, ne_eq, heq, not_false_eq_true, true_and]

theorem removed_card (accounts : Accounts entries counts d)
    (hu : Run Step d (removeNarinfoWithRetentionAndUnlink leases (entries i).store ++ [.syncRoot])
      d') (name : NarFileName) :
    (holders entries d' name).card =
        (releasePayloads (payloadNames (entries i)) counts).2 name ∧
      (name ∈ payloadNames (entries i) → 0 < counts name) := by
  obtain ⟨hl, -, hr, -⟩ := removal_run hu
  rw [holders_removed h hr, release_names (payloadNames_nodup _)]
  simp only [accounts.counted]
  by_cases hn : name ∈ payloadNames (entries i)
  · have hh : i ∈ holders entries d name := Finset.mem_filter.2 ⟨Finset.mem_univ i, hn, hl⟩
    rw [if_pos hn]
    exact ⟨Finset.card_erase_of_mem hh, fun _ => Finset.card_pos.2 ⟨i, hh⟩⟩
  · have ho : i ∉ holders entries d name := fun hm => hn (Finset.mem_filter.1 hm).2.1
    rw [if_neg hn, Finset.erase_eq_of_notMem ho]
    exact ⟨rfl, fun hm => absurd hm hn⟩

theorem released_unreferenced (accounts : Accounts entries counts d)
    (hr : Run Step d (removeNarinfoWithRetentionAndUnlink leases (entries i).store ++ [.syncRoot])
      d') {name} (hn : name ∈ (releasePayloads (payloadNames (entries i)) counts).1) :
    Unreferenced entries d' name ∧ (d'.nars.live name).isSome := by
  obtain ⟨-, ha, -, hs⟩ := removal_run hr
  obtain ⟨hc, ho⟩ := removed_card h accounts hr name
  rw [release_names (payloadNames_nodup _)] at hn hc
  obtain ⟨hp, hl⟩ := mem_filter.1 hn
  simp only [if_pos hp] at hc
  have he := Finset.card_eq_zero.1 (hc.trans (of_decide_eq_true hl))
  refine ⟨fun j hj => ?_, ?_⟩
  · rw [hs, ← Option.not_isSome_iff_eq_none]
    intro hi
    have hm : j ∈ holders entries d' name := Finset.mem_filter.2 ⟨Finset.mem_univ j, hj, hi⟩
    rw [he] at hm
    cases hm
  · rw [ha]
    exact accounts.held name (ho hp)

theorem released_accounts (accounts : Accounts entries counts d)
    (hu : Run Step d (removeNarinfoWithRetentionAndUnlink leases (entries i).store ++ [.syncRoot])
      d') {d'' : Disk} (hr : d''.root = d'.root)
    (ha : ∀ name, d''.nars.live name =
      if name ∈ (releasePayloads (payloadNames (entries i)) counts).1 then none
      else d'.nars.live name) :
    Accounts entries (releasePayloads (payloadNames (entries i)) counts).2 d'' := by
  obtain ⟨-, hs, -, hy⟩ := removal_run hu
  refine ⟨fun name => ?_, ?_, fun name hn => ?_⟩
  · rw [← (removed_card h accounts hu name).1, holders, holders, hr]
  · rw [hr, hy]
  · rw [release_names (payloadNames_nodup _)] at hn ha
    rw [ha, if_neg, hs]
    · apply accounts.held
      simp only at hn
      split_ifs at hn <;> omega
    · intro hm
      obtain ⟨hp, hl⟩ := mem_filter.1 hm
      simp only [if_pos hp, of_decide_eq_true hl, lt_self_iff_false] at hn

end

end Entry

theorem split_at {executed : List α} (h : executed ++ x :: after = first ++ rest) :
    (∃ todo, first = executed ++ x :: todo) ∨
      ∃ more, executed = first ++ more ∧ more ++ x :: after = rest := by
  rcases append_eq_append_iff.1 h with ⟨tail, hf, ht⟩ | ⟨more, he, hr⟩
  · cases tail with
    | nil => exact .inr ⟨[], by rw [hf, append_nil, append_nil], ht⟩
    | cons y tail =>
      cases (List.cons.inj ht).1
      exact .inl ⟨tail, hf⟩
  · exact .inr ⟨more, he, hr.symm⟩

theorem split_after {executed : List α} (hx : x ∉ first)
    (h : executed ++ x :: after = first ++ rest) :
    ∃ more, executed = first ++ more ∧ more ++ x :: after = rest := by
  rcases split_at h with ⟨todo, hf⟩ | hl
  · refine absurd ?_ hx
    rw [hf]
    exact mem_append_right _ mem_cons_self
  · exact hl

theorem unlinkNar_notMem_removal (leases : AdvertisementLeases) (store : StoreHash)
    (name : NarFileName) :
    .unlinkNar name ∉ removeNarinfoWithRetentionAndUnlink leases store ++ [.syncRoot] := by
  cases leases <;> simp [removeNarinfoWithRetentionAndUnlink, markAdvertisementRemovalPending,
    removeAdvertisementRecord]

theorem applyEntries_cons (leases : AdvertisementLeases) (entry : Entry) (rest : List Entry)
    (counts : Counts) :
    applyEntries leases (entry :: rest) counts =
      (removeNarinfoWithRetentionAndUnlink leases entry.store ++ [.syncRoot]) ++
        ((releasePayloads (payloadNames entry) counts).1.map Effect.unlinkNar ++
          ((if (releasePayloads (payloadNames entry) counts).1 = [] then [] else [.syncNars]) ++
            applyEntries leases rest (releasePayloads (payloadNames entry) counts).2)) := by
  rw [applyEntries, append_assoc, singleton_append]
  rfl

theorem syncNars_run
    (h : Run Step d (if released = [] then [] else [.syncNars]) d') :
    d'.root = d.root ∧ d'.nars.live = d.nars.live := by
  split_ifs at h
  · rw [run_nil.1 h]
    exact ⟨rfl, rfl⟩
  · simp only [run_cons, run_nil] at h
    obtain ⟨d₁, hs, rfl⟩ := h
    cases Option.some.inj hs
    exact ⟨rfl, rfl⟩

/-- Whenever the loop comes to unlink a payload, the payload is there and no narinfo refers to
it, even after a crash. -/
theorem applyEntries_unlinks (h : Represents store entries) {selected : List (Fin n)}
    {after : List Effect} (accounts : Accounts entries counts d)
    (hp : executed ++ .unlinkNar name :: after = applyEntries leases (selected.map entries) counts)
    (hu : Run Step d executed d') : Unreferenced entries d' name ∧ (d'.nars.live name).isSome := by
  induction selected generalizing counts d executed with
  | nil => simp [applyEntries] at hp
  | cons i selected ih =>
    rw [map_cons, applyEntries_cons] at hp
    obtain ⟨more, rfl, hmo⟩ := split_after (unlinkNar_notMem_removal _ _ _) hp
    obtain ⟨d₁, hm, hs⟩ := run_append.1 hu
    rcases split_at hmo with ⟨todo, hma⟩ | ⟨later, rfl, hl⟩
    · -- among the payloads this entry releases
      obtain ⟨done, others, he, rfl, ht⟩ := map_eq_append_iff.1 hma
      obtain ⟨first, todo, rfl, hf, -⟩ := map_eq_cons_iff.1 ht
      cases Effect.unlinkNar.inj hf
      have hfr : name ∉ done := by
        have ho := released_nodup (entries i) counts
        rw [he, nodup_append] at ho
        exact fun hme => ho.2.2 name hme name mem_cons_self rfl
      have hna : name ∈ (releasePayloads (payloadNames (entries i)) counts).1 := by
        rw [he]
        exact mem_append_right _ mem_cons_self
      obtain ⟨hr, hn⟩ := unlinks_run hs
      obtain ⟨hur, hi⟩ := released_unreferenced h accounts hm hna
      refine ⟨fun j hj => ?_, ?_⟩
      · rw [hr]
        exact hur j hj
      · rw [hn, if_neg hfr]
        exact hi
    · obtain ⟨d₂, hun, ha⟩ := run_append.1 hs
      obtain ⟨rest, rfl, hta⟩ := split_after (by split_ifs <;> simp) hl
      obtain ⟨d₃, hy, hti⟩ := run_append.1 ha
      obtain ⟨hr, hn⟩ := unlinks_run hun
      obtain ⟨hr', hn'⟩ := syncNars_run hy
      refine ih (released_accounts h accounts hm (hr'.trans hr) fun name => ?_) hta
        hti
      rw [hn', hn]

def deletion {m : ℕ} (leases : AdvertisementLeases) (entries : Fin n → Entry)
    (selected : List (Fin n)) (orphans : Fin m → Orphan) (selectedOrphans : List (Fin m)) :
    List Effect :=
  applyWithCheckpoint leases entries selected ++ applyOrphans orphans selectedOrphans

theorem deletion_unlinks (h : Represents store entries) {selected : List (Fin n)} {m : ℕ}
    {orphans : Fin m → Orphan} {selectedOrphans : List (Fin m)}
    (ho : ∀ i j, (orphans i).name ∉ payloadNames (entries j)) {after : List Effect}
    (ha : executed ++ .unlinkNar name :: after = deletion leases entries selected orphans selectedOrphans)
    (hu : Run Step (diskOf store) executed d) :
    Unreferenced entries d name ∧
      ((∃ i, name ∈ payloadNames (entries i)) → (d.nars.live name).isSome) := by
  rcases split_at ha with ⟨todo, hf⟩ | ⟨more, -, hr⟩
  · obtain ⟨he, hl⟩ := applyEntries_unlinks h (start_accounts h) hf.symm hu
    exact ⟨he, fun _ => hl⟩
  · have hm : .unlinkNar name ∈ applyOrphans orphans selectedOrphans := by
      rw [← hr]
      exact mem_append_right _ mem_cons_self
    have hp : ∃ i, (orphans i).name = name := by
      unfold applyOrphans at hm
      rcases mem_append.1 hm with hn | hs
      · obtain ⟨i, -, hi⟩ := mem_map.1 hn
        exact ⟨i, Effect.unlinkNar.inj hi⟩
      · split_ifs at hs <;> simp at hs
    obtain ⟨i, rfl⟩ := hp
    exact ⟨fun j hj => absurd hj (ho i j), fun ⟨j, hj⟩ => absurd hj (ho i j)⟩

section Frame

variable {d d' : Disk} {effect : Effect} {executed : List Effect}

theorem step_frame (h : Step d effect d') :
    (∀ hash, effect ≠ .unlinkNarinfo hash → d'.root.live hash = d.root.live hash) ∧
      (d'.root.synced = d.root.synced ∨ d'.root.synced = d.root.live) ∧
      (∀ name, effect ≠ .unlinkNar name → d'.nars.live name = d.nars.live name) ∧
      ∀ name, effect = .unlinkNar name → (d.nars.live name).isSome ∧ d'.nars.live name = none := by
  cases effect with
  | refuse => cases h
  | markRemovalPending | notePublicationRemoved | unlinkLease | syncLeases =>
    cases Option.some.inj h
    exact ⟨fun _ _ => rfl, .inl rfl, fun _ _ => rfl, nofun⟩
  | unlinkNarinfo gone =>
    obtain ⟨-, rfl⟩ := step_unlinkNarinfo.1 h
    refine ⟨fun hash hne => ?_, .inl rfl, fun _ _ => rfl, nofun⟩
    rw [Directory.live_record, Change.apply_unlink_of_ne]
    exact fun heq => hne (congrArg _ heq.symm)
  | syncRoot =>
    cases Option.some.inj h
    exact ⟨fun _ _ => rfl, .inr rfl, fun _ _ => rfl, nofun⟩
  | unlinkNar gone =>
    obtain ⟨hl, rfl⟩ := step_unlinkNar.1 h
    refine ⟨fun _ _ => rfl, .inl rfl, fun name hne => ?_, fun name heq => ?_⟩
    · rw [Directory.live_record, Change.apply_unlink_of_ne]
      exact fun heq => hne (congrArg _ heq.symm)
    · cases heq
      refine ⟨hl, ?_⟩
      rw [Directory.live_record, Change.apply_unlink_self]
  | syncNars =>
    cases Option.some.inj h
    exact ⟨fun _ _ => rfl, .inl rfl, fun _ _ => rfl, nofun⟩

theorem narinfo_kept (hr : Run Step (diskOf store) executed d)
    (hk : .unlinkNarinfo hash ∉ executed) :
    d.root.live hash = (diskOf store).root.live hash ∧
      d.root.synced hash = (diskOf store).root.live hash := by
  have ha := hr.history (I := fun executed d => .unlinkNarinfo hash ∉ executed →
    d.root.live hash = (diskOf store).root.live hash ∧
      d.root.synced hash = (diskOf store).root.live hash) (fun _ => ⟨rfl, rfl⟩) ?_
  · exact ha hk
  · intro executed t effect u ih ht hn
    rw [mem_append, mem_singleton, not_or] at hn
    obtain ⟨hl, hc⟩ := ih hn.1
    obtain ⟨hf, hy, -, -⟩ := step_frame ht
    refine ⟨(hf hash fun heq => hn.2 heq.symm).trans hl, ?_⟩
    rcases hy with hs | he
    · rw [hs, hc]
    · rw [he, hl]

theorem nar_kept (hr : Run Step (diskOf store) executed d)
    (hk : .unlinkNar name ∉ executed) : d.nars.live name = (diskOf store).nars.live name := by
  have ha := hr.history (I := fun executed d => .unlinkNar name ∉ executed →
    d.nars.live name = (diskOf store).nars.live name) (fun _ => rfl) ?_
  · exact ha hk
  · intro executed t effect u ih hs hn
    rw [mem_append, mem_singleton, not_or] at hn
    obtain ⟨-, -, hf, -⟩ := step_frame hs
    exact (hf name fun heq => hn.2 heq.symm).trans (ih hn.1)

theorem unlinked_once (hu : Run Step (diskOf store) executed d) (name : NarFileName) :
    executed.count (.unlinkNar name) ≤ 1 ∧
      (.unlinkNar name ∈ executed → d.nars.live name = none) := by
  refine hu.history (I := fun executed d => executed.count (.unlinkNar name) ≤ 1 ∧
    (.unlinkNar name ∈ executed → d.nars.live name = none)) ⟨Nat.zero_le _, nofun⟩ ?_
  intro executed t effect u ih hs
  obtain ⟨hc, hg⟩ := ih
  obtain ⟨-, -, hr, hi⟩ := step_frame hs
  rw [count_append]
  by_cases heq : effect = .unlinkNar name
  · obtain ⟨hl, ho⟩ := hi name heq
    have hf : .unlinkNar name ∉ executed := by
      intro hm
      rw [hg hm] at hl
      cases hl
    rw [heq, count_eq_zero_of_not_mem hf, count_singleton_self]
    exact ⟨le_rfl, fun _ => ho⟩
  · rw [count_singleton, if_neg (by simpa using heq)]
    refine ⟨hc, fun hm => ?_⟩
    rw [hr name heq]
    apply hg
    rcases mem_append.1 hm with hd | hn
    · exact hd
    · exact absurd (mem_singleton.1 hn).symm heq

end Frame

theorem run_onlyUnlinks (hu : Run Step (diskOf store) executed d) :
    d.root.OnlyUnlinks ∧ d.nars.OnlyUnlinks := by
  refine hu.invariant (I := fun d => d.root.OnlyUnlinks ∧ d.nars.OnlyUnlinks) ⟨nofun, nofun⟩ ?_
  intro d effect d' ih hs
  obtain ⟨hr, hn⟩ := ih
  cases effect with
  | refuse => cases hs
  | markRemovalPending | notePublicationRemoved | unlinkLease | syncLeases =>
    cases Option.some.inj hs
    exact ⟨hr, hn⟩
  | unlinkNarinfo gone =>
    obtain ⟨-, rfl⟩ := step_unlinkNarinfo.1 hs
    exact ⟨hr.record_unlink gone, hn⟩
  | syncRoot =>
    cases Option.some.inj hs
    exact ⟨Directory.onlyUnlinks_sync _, hn⟩
  | unlinkNar gone =>
    obtain ⟨-, rfl⟩ := step_unlinkNar.1 hs
    exact ⟨hr, hn.record_unlink gone⟩
  | syncNars =>
    cases Option.some.inj hs
    exact ⟨hr, Directory.onlyUnlinks_sync _⟩

/-- A narinfo that a crash may leave is an old one and its payloads are there. -/
structure Kept (store : FlatStore) (entries : Fin n → Entry) (d : Disk) : Prop where
  old : ∀ hash p, d.root.synced hash = some p → (diskOf store).root.live hash = some p
  safe : ∀ i, (d.root.synced (entries i).store).isSome →
    ∀ name ∈ payloadNames (entries i), (d.nars.live name).isSome

theorem start_kept (h : Represents store entries) : Kept store entries (diskOf store) := by
  refine ⟨fun _ _ h => h, fun i _ name hn => ?_⟩
  obtain ⟨p, -, hd⟩ := h.described i
  exact hd.present name hn

theorem Kept.step (kept : Kept store entries d) (hu : d.root.OnlyUnlinks)
    (ht : Step d effect d') (hr : ∀ name, effect = .unlinkNar name → Unreferenced entries d name) :
    Kept store entries d' := by
  obtain ⟨-, hy, hf, -⟩ := step_frame ht
  have ho : ∀ hash p, d'.root.synced hash = some p → d.root.synced hash = some p := by
    intro hash p hp
    rcases hy with hs | he
    · rwa [← hs]
    · rw [he] at hp
      exact hu.synced_of_live hp
  refine ⟨fun hash p hp => kept.old hash p (ho hash p hp), fun i hi name hn => ?_⟩
  obtain ⟨p, hp⟩ := Option.isSome_iff_exists.1 hi
  have hb := ho _ p hp
  have hk : effect ≠ .unlinkNar name := by
    intro heq
    rw [hr name heq i hn] at hb
    cases hb
  rw [hf name hk]
  exact kept.safe i (Option.isSome_iff_exists.2 ⟨p, hb⟩) name hn

theorem run_kept (h : Represents store entries)
    (hu : ∀ done name after t, done ++ .unlinkNar name :: after = plan →
      Run Step (diskOf store) done t → Unreferenced entries t name)
    (hf : executed <+: plan) (hr : Run Step (diskOf store) executed d) : Kept store entries d := by
  have ha := hr.history
    (I := fun executed d => executed <+: plan → Run Step (diskOf store) executed d ∧ Kept store entries d)
    (fun _ => ⟨.refl _, start_kept h⟩) ?_
  · exact (ha hf).2
  · intro executed t effect u ih hs hl
    obtain ⟨after, hp⟩ := hl
    rw [append_assoc, singleton_append] at hp
    obtain ⟨hb, kept⟩ := ih ⟨_, hp⟩
    refine ⟨hb.tail hs, kept.step (run_onlyUnlinks hb).1 hs fun name heq => ?_⟩
    subst heq
    exact hu executed name after t hp hb

theorem nar_old (hr : Run Step (diskOf store) executed d) (hl : (d.nars.live name).isSome) :
    ((diskOf store).nars.live name).isSome := by
  by_cases hm : .unlinkNar name ∈ executed
  · rw [(unlinked_once hr name).2 hm] at hl
    cases hl
  · rwa [← nar_kept hr hm]

def Needs (store : FlatStore) (p : TrustedGcPublication) (name : NarFileName) : Prop :=
  name = p.representation.fileName ∨
    name = p.canonicalRawName ∧ ((diskOf store).nars.live name).isSome

theorem Describes.needs (h : Describes store p entry) (hn : Needs store p name) :
    name ∈ payloadNames entry := by
  rw [mem_payloadNames, h.output]
  rcases hn with ho | ⟨hc, hs⟩
  · exact .inl ho
  · rw [hc] at hs
    exact .inr (hc.trans (h.canonical hs).symm)

theorem payloadNames_protectEntries (options : GcOptions) (access : CollectionAccess)
    (scanned : Fin n → Entry) (i : Fin n) :
    payloadNames (protectEntries options store access scanned i) = payloadNames (scanned i) := by
  unfold protectEntries advertisedEntries
  cases options.retention.evictionOrder <;> rfl

theorem orphan_notMem_payloadNames (i : Fin (scanOrphans store scanned).length)
    (he : entry ∈ scanned) : ((scanOrphans store scanned).get i).name ∉ payloadNames entry := by
  have hm := get_mem (scanOrphans store scanned) i
  generalize (scanOrphans store scanned).get i = orphan at hm
  rw [scanOrphans] at hm
  obtain ⟨⟨name, file⟩, -, hs⟩ := mem_filterMap.1 hm
  cases file with
  | other => cases hs
  | regular file =>
    simp only at hs
    split_ifs at hs with hr
    cases Option.some.inj hs
    rw [mem_payloadNames]
    intro hn
    apply hr
    refine mem_flatMap.2 ⟨entry, he, ?_⟩
    simpa using hn

theorem applyEntries_removes {selected : List (Fin n)}
    (h : .unlinkNarinfo hash ∈ applyEntries leases (selected.map entries) counts) :
    ∃ i ∈ selected, (entries i).store = hash := by
  induction selected generalizing counts with
  | nil => simp [applyEntries] at h
  | cons i selected ih =>
    rw [map_cons, applyEntries_cons] at h
    rcases mem_append.1 h with he | hr
    · refine ⟨i, mem_cons_self, ?_⟩
      cases leases <;> simpa [removeNarinfoWithRetentionAndUnlink, eq_comm,
        markAdvertisementRemovalPending, removeAdvertisementRecord] using he
    · rcases mem_append.1 hr with hu | hr
      · simp at hu
      · rcases mem_append.1 hr with hs | hl
        · split_ifs at hs <;> simp at hs
        · obtain ⟨j, hj, ht⟩ := ih hl
          exact ⟨j, mem_cons_of_mem _ hj, ht⟩

theorem unselected_kept (h : Represents store entries) {selected : List (Fin n)} {m : ℕ}
    {orphans : Fin m → Orphan} {selectedOrphans : List (Fin m)}
    (hr : ∀ i j, (orphans i).name ∉ payloadNames (entries j)) {j : Fin n} (he : j ∉ selected)
    (hf : executed <+: deletion leases entries selected orphans selectedOrphans)
    (hu : Run Step (diskOf store) executed d) :
    .unlinkNarinfo (entries j).store ∉ executed ∧
      ∀ name ∈ payloadNames (entries j), .unlinkNar name ∉ executed := by
  have hn : .unlinkNarinfo (entries j).store ∉ executed := by
    intro hm
    rcases mem_append.1 (hf.subset hm) with hlo | ho
    · obtain ⟨i, hi, hs⟩ := applyEntries_removes hlo
      exact he (h.distinct i j hs ▸ hi)
    · unfold applyOrphans at ho
      split_ifs at ho <;> simp at ho
  refine ⟨hn, fun name ha hm => ?_⟩
  -- the narinfo is still there at the moment of the unlink
  obtain ⟨before, after, rfl⟩ := append_of_mem hm
  obtain ⟨t, hb, -⟩ := run_append.1 hu
  obtain ⟨remaining, hl⟩ := hf
  rw [append_assoc, cons_append] at hl
  have hg := (deletion_unlinks h hr hl hb).1 j ha
  rw [(narinfo_kept hb fun hol => hn (mem_append_left _ hol)).2] at hg
  obtain ⟨p, hp, hd⟩ := h.described j
  rw [hd.store_eq, root_of_publication hp] at hg
  cases hg

/-- At every point where a deletion stops, and whatever a crash leaves there, each narinfo that
is left has its output and its canonical NAR. A payload is unlinked after the narinfos that
need it, at most once, and never without being there. -/
theorem deletion_keeps_survivors_whole {store : FlatStore} {scanned : List Entry}
    (hscan : scan store = .ok scanned) (options : GcOptions) (access : CollectionAccess)
    (leases : AdvertisementLeases) (selected : List (Fin scanned.length))
    (selectedOrphans : List (Fin (scanOrphans store scanned).length)) {plan executed : List Effect}
    {disk : Disk}
    (hplan : plan = deletion leases (protectEntries options store access scanned.get) selected
      (scanOrphans store scanned).get selectedOrphans)
    (hfirst : executed <+: plan) (hrun : Run Step (diskOf store) executed disk) :
    (∀ root nars, disk.root.Survives root → disk.nars.Survives nars →
      ∀ hash p, root hash = some p → p.store = hash ∧
        ∀ name, Needs store p name → (nars name).isSome) ∧
    (∀ before name after, executed = before ++ .unlinkNar name :: after →
      ∀ p ∈ publications store, name = p.representation.fileName ∨ name = p.canonicalRawName →
        .unlinkNarinfo p.store ∈ before) ∧
    (∀ name, executed.count (.unlinkNar name) ≤ 1) ∧
    ∀ name after, executed ++ .unlinkNar name :: after = plan →
      ∀ p ∈ publications store, Needs store p name → (disk.nars.live name).isSome := by
  have hr := protectEntries_represents (scan_represents hscan) options access
  have hh : ∀ i j, ((scanOrphans store scanned).get i).name ∉
      payloadNames (protectEntries options store access scanned.get j) := by
    intro i j
    rw [payloadNames_protectEntries]
    exact orphan_notMem_payloadNames i (get_mem _ _)
  have hu : ∀ done name after t, done ++ .unlinkNar name :: after = plan →
      Run Step (diskOf store) done t → _ :=
    fun done name after t hs => deletion_unlinks hr hh (hs.trans hplan)
  have kept := run_kept hr
    (fun done name after t hs ho => (hu done name after t hs ho).1) hfirst hrun
  refine ⟨fun root nars hro hnr hash p hp => ?_, fun before name after he p hp ha => ?_,
    fun name => (unlinked_once hrun name).1, fun name after hs p hp hn => ?_⟩
  · obtain ⟨hrt, hna⟩ := run_onlyUnlinks hrun
    have hy := hrt.synced_of_survives hro hp
    obtain ⟨hm, ht⟩ := root_find (kept.old hash p hy)
    refine ⟨ht, fun name hn => ?_⟩
    obtain ⟨i, hd⟩ := hr.complete p hm
    have hi : (disk.root.synced (protectEntries options store access scanned.get i).store).isSome := by
      rw [hd.store_eq, ht, hy]
      rfl
    obtain ⟨file, hf⟩ := Option.isSome_iff_exists.1 (kept.safe i hi name (hd.needs hn))
    exact Option.isSome_iff_exists.2 ⟨file, hna.survives_of_live hnr hf⟩
  · rw [he, run_append] at hrun
    obtain ⟨t, hb, hre⟩ := hrun
    obtain ⟨u, hst, -⟩ := run_cons.1 hre
    obtain ⟨remaining, hl⟩ := hfirst
    have hs : before ++ .unlinkNar name :: (after ++ remaining) = plan := by
      rw [← hl, he, append_assoc, cons_append]
    have hpr := nar_old hb (step_unlinkNar.1 hst).1
    have hn : Needs store p name := ha.imp_right fun h => ⟨h, hpr⟩
    obtain ⟨i, hd⟩ := hr.complete p hp
    by_contra hno
    have hg := (hu _ _ _ _ hs hb).1 i (hd.needs hn)
    rw [hd.store_eq, (narinfo_kept hb hno).2, root_of_publication hp] at hg
    cases hg
  · obtain ⟨i, hd⟩ := hr.complete p hp
    exact (hu _ _ _ _ hs hrun).2 ⟨i, hd.needs hn⟩

def sharingPublication (digit : UInt8) (h : validNix32 (List.replicate 32 digit) 32 = true) :
    TrustedGcPublication where
  storePath := ⟨⟨List.replicate 32 digit, h⟩, [97], valid_letter⟩
  references := []
  narinfoBytes := 10
  modified := 0
  representation := .raw ⟨⟨List.replicate 32 0, ManifestFormat.length_zeros⟩, 5⟩

def sharingStore : FlatStore where
  narinfos := [.ok (sharingPublication 48 valid_zeros), .ok (sharingPublication 49 valid_ones)]
  distinct := by decide
  nars := [(.raw ⟨List.replicate 32 0, ManifestFormat.length_zeros⟩, .regular ⟨5, 0⟩)]
  accessTime := fun _ => none

def sharingEntry (p : TrustedGcPublication) : Entry :=
  { p.toPublication with
    lastUse := 0
    narName := p.representation.fileName
    narBytes := 5
    rawNarName := p.representation.fileName
    rawNarBytes := 5
    protected_ := false }

/-- Deleting one of two publications of a NAR leaves the other one whole. -/
theorem sharing_deletion_keeps_the_other :
    scan sharingStore = .ok [sharingEntry (sharingPublication 48 valid_zeros),
        sharingEntry (sharingPublication 49 valid_ones)] ∧
      ∃ executed disk, Run Step (diskOf sharingStore) executed disk ∧
        .unlinkNarinfo (sharingPublication 48 valid_zeros).store ∈ executed ∧
        disk.root.live (sharingPublication 49 valid_ones).store = some (sharingPublication 49 valid_ones) ∧
        (disk.nars.live (sharingPublication 49 valid_ones).representation.fileName).isSome := by
  have hs : scan sharingStore = .ok [sharingEntry (sharingPublication 48 valid_zeros),
    sharingEntry (sharingPublication 49 valid_ones)] := rfl
  let options : GcOptions := ⟨⟨.publication, none⟩, none, none, 0, [], .apply⟩
  let access : CollectionAccess := .offline .absent
  let removed : StoreHash := (sharingPublication 48 valid_zeros).store
  have hp : [.notePublicationRemoved removed, .unlinkNarinfo removed, .syncRoot] =
      deletion .absent (protectEntries options sharingStore access
        [sharingEntry (sharingPublication 48 valid_zeros), sharingEntry (sharingPublication 49 valid_ones)].get)
        [0] (scanOrphans sharingStore [sharingEntry (sharingPublication 48 valid_zeros),
          sharingEntry (sharingPublication 49 valid_ones)]).get [] := rfl
  have hr : Run Step (diskOf sharingStore)
      [.notePublicationRemoved removed, .unlinkNarinfo removed, .syncRoot] _ :=
    run_cons.2 ⟨_, rfl, run_cons.2 ⟨_, rfl, run_cons.2 ⟨_, rfl, run_nil.2 rfl⟩⟩⟩
  obtain ⟨hw, -⟩ := deletion_keeps_survivors_whole hs options access .absent [0] [] hp
    (prefix_refl _) hr
  refine ⟨hs, _, _, hr, mem_cons_of_mem _ mem_cons_self, rfl, ?_⟩
  exact (hw _ _ (Directory.live_survives _) (Directory.live_survives _)
    (sharingPublication 49 valid_ones).store (sharingPublication 49 valid_ones) rfl).2 _ (.inl rfl)

end FlatDeletion
