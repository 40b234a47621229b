import Narjar.LeaseUpdates
import Narjar.NarInfoRoundTrip

/-!
# Advertised means protected

A record that promises something belongs to the narinfo in place: it has the identity and the
output that the narinfo names. Reads, publications, deletions and collections keep this,
wherever they fail or stop. A promise is lost only when a deletion of the narinfo begins or when
it has expired.
-/
namespace AdvertisementLeases

open ByteCodecs ManifestFormat ObjectNames NarInfo TextFields FaultyPrograms
open LabelledRuns
open FlatCollection (AdvertisementProtection)

variable {Key Signature : Type} {E : Externals Key Signature}

def Matches (E : Externals Key Signature) (disk : Disk) (store : StoreHash)
    (identity : NarIdentity) (output : AdvertisementOutput) : Prop :=
  ∃ bytes claims representation, disk.narinfos store = some bytes ∧
    NarInfoClaims.parseExternalPublication E store bytes = some (claims, representation) ∧
    claims.identity = identity ∧ .fromRepresentation representation = output

variable {bytes : Bytes} {claims : NarInfoClaims} {output : NarRepresentation}
variable {identity : NarIdentity} {lease : AdvertisementLease}

theorem Matches.unique {disk : Disk} {store identity'}
    {output output'} (h : Matches E disk store identity output)
    (h' : Matches E disk store identity' output') : identity = identity' ∧ output = output' := by
  obtain ⟨bytes, claims, representation, hb, hp, rfl, rfl⟩ := h
  obtain ⟨bytes', claims', representation', hb', hp', rfl, rfl⟩ := h'
  rw [hb] at hb'
  cases hb'
  rw [hp] at hp'
  cases hp'
  exact ⟨rfl, rfl⟩

theorem Matches.congr {disk disk' : Disk} {store output}
    (h : Matches E disk store identity output) (hs : disk'.narinfos store = disk.narinfos store) :
    Matches E disk' store identity output := by
  obtain ⟨bytes, claims, representation, hb, hr⟩ := h
  exact ⟨bytes, claims, representation, hs.trans hb, hr⟩

/-- Every record that promises something belongs to its narinfo, and no promise goes beyond the
limit. -/
def Consistent (E : Externals Key Signature) (limit : ℕ) (disk : Disk) : Prop :=
  ∀ store record expiry, disk.record store = some (.lease record) →
    record.retention = .until_ expiry →
    expiry ≤ limit ∧ Matches E disk store record.identity record.output

/-- Until the deadline the store hash is kept with this identity and this output. -/
structure Promise where
  store : StoreHash
  identity : NarIdentity
  output : AdvertisementOutput
  deadline : ℕ

def Keeps (disk : Disk) (promise : Promise) : Prop :=
  ∃ record expiry, disk.record promise.store = some (.lease record) ∧
    record.retention = .until_ expiry ∧ record.identity = promise.identity ∧
    record.output = promise.output ∧ promise.deadline ≤ expiry

structure Safe (E : Externals Key Signature) (limit : ℕ) (P : Promise → Prop) (disk : Disk) :
    Prop where
  consistent : Consistent E limit disk
  keeps : ∀ promise, P promise → Keeps disk promise

def Dropped (disk : Disk) (store : StoreHash) : Prop :=
  ∀ record expiry, disk.record store = some (.lease record) → record.retention ≠ .until_ expiry

def Unpromised (P : Promise → Prop) (store : StoreHash) : Prop :=
  ∀ promise, P promise → promise.store ≠ store

variable {limit limit' : ℕ} {P : Promise → Prop} {disk disk' : Disk} {store : StoreHash}
variable {policy : LeasePolicy} {purpose : LeasePurpose} {source : Option UpstreamNarSource}
variable {now : ℕ}

theorem Safe.mono (h : Safe E limit P disk) (hle : limit ≤ limit') : Safe E limit' P disk where
  consistent := fun store record expiry hr he =>
    (h.consistent store record expiry hr he).imp_left fun hl => hl.trans hle
  keeps := h.keeps

theorem Keeps.congr (h : Keeps disk promise)
    (hs : disk'.record promise.store = disk.record promise.store) : Keeps disk' promise := by
  obtain ⟨record, expiry, hr, he⟩ := h
  exact ⟨record, expiry, hs.trans hr, he⟩

/-- A new promise for the narinfo in place that reaches as far as the old one keeps the others. -/
theorem Safe.promise (h : Safe E limit P disk) {deadline : ℕ}
    (hm : Matches E disk store lease.identity lease.output)
    (ht : lease.retention = .until_ deadline) (hd : deadline ≤ limit)
    (hx : ∀ record expiry, disk.record store = some (.lease record) →
      record.retention = .until_ expiry → expiry ≤ deadline) :
    Safe E limit P (disk.withRecord store lease) := by
  constructor
  · intro other record expiry hr he
    by_cases ho : other = store
    · subst ho
      rw [record_withRecord_self] at hr
      cases hr
      rw [ht] at he
      cases he
      exact ⟨hd, hm⟩
    · rw [record_withRecord_of_ne _ ho] at hr
      exact h.consistent other record expiry hr he
  · intro promise hp
    by_cases hs : promise.store = store
    · obtain ⟨record, expiry, hr, hol, hi, hu, hde⟩ := h.keeps promise hp
      rw [hs] at hr
      obtain ⟨ha, hsa⟩ := hm.unique (h.consistent _ record expiry hr hol).2
      refine ⟨lease, deadline, ?_, ht, ha.trans hi, hsa.trans hu, hde.trans (hx _ _ hr hol)⟩
      rw [hs]
      exact record_withRecord_self ..
    · exact (h.keeps promise hp).congr (record_withRecord_of_ne _ hs _)

theorem Safe.pending (h : Safe E limit P disk) (hP : Unpromised P store)
    (he : lease.retention = .removalPending) :
    Safe E limit P (disk.withRecord store lease) ∧ Dropped (disk.withRecord store lease) store := by
  have hd : Dropped (disk.withRecord store lease) store := by
    intro record expiry hr hu
    rw [record_withRecord_self] at hr
    cases hr
    rw [he] at hu
    cases hu
  refine ⟨⟨?_, ?_⟩, hd⟩
  · intro other record expiry hr hu
    by_cases ho : other = store
    · subst ho
      exact absurd hu (hd record expiry hr)
    · rw [record_withRecord_of_ne _ ho] at hr
      exact h.consistent other record expiry hr hu
  · intro promise hp
    exact (h.keeps promise hp).congr (record_withRecord_of_ne _ (hP promise hp) _)

def Disk.withoutRecord (disk : Disk) (store : StoreHash) : Disk :=
  { disk with records := disk.records.erase (leaseName store) }

@[simp] theorem record_withoutRecord_self (disk : Disk) (store : StoreHash) :
    (disk.withoutRecord store).record store = none := AList.lookup_erase _ _

theorem record_withoutRecord_of_ne (disk : Disk) (h : other ≠ store) :
    (disk.withoutRecord store).record other = disk.record other :=
  AList.lookup_erase_ne fun heq => h (leaseName_injective heq)

theorem Safe.withoutRecord (h : Safe E limit P disk) (hP : Unpromised P store) :
    Safe E limit P (disk.withoutRecord store) := by
  constructor
  · intro other record expiry hr hu
    by_cases ho : other = store
    · subst ho
      rw [record_withoutRecord_self] at hr
      cases hr
    · rw [record_withoutRecord_of_ne _ ho] at hr
      exact h.consistent other record expiry hr hu
  · intro promise hp
    exact (h.keeps promise hp).congr (record_withoutRecord_of_ne _ (hP promise hp))

def Disk.withNarinfo (disk : Disk) (store : StoreHash) (narinfo : Option Bytes) : Disk :=
  { disk with narinfos := Function.update disk.narinfos store narinfo }

theorem Safe.withNarinfo (h : Safe E limit P disk) (hd : Dropped disk store)
    (narinfo : Option Bytes) : Safe E limit P (disk.withNarinfo store narinfo) := by
  constructor
  · intro other record expiry hr hu
    by_cases ho : other = store
    · subst ho
      exact absurd hu (hd record expiry hr)
    · refine (h.consistent other record expiry hr hu).imp_right fun hm => ?_
      exact hm.congr (Function.update_of_ne ho ..)
  · intro promise hp
    exact h.keeps promise hp

theorem Safe.dropped_of_absent (h : Safe E limit P disk) (ha : disk.narinfos store = none) :
    Dropped disk store ∧ Unpromised P store := by
  have hd : Dropped disk store := by
    intro record expiry hr hu
    obtain ⟨-, bytes, -, -, hb, -⟩ := h.consistent store record expiry hr hu
    rw [ha] at hb
    cases hb
  refine ⟨hd, ?_⟩
  rintro promise hp rfl
  obtain ⟨record, expiry, hr, hu, -⟩ := h.keeps promise hp
  exact hd record expiry hr hu

/-- The purpose is about the narinfo in place. -/
def Fits (E : Externals Key Signature) (disk : Disk) (store : StoreHash) : LeasePurpose → Prop
  | .publication identity output => Matches E disk store identity output
  | .advertisement metadata => disk.narinfos store = some metadata

theorem ContentsFrom.matches
    (h : ContentsFrom E store source purpose existing contents) (hs : Safe E limit P disk)
    (hf : Fits E disk store purpose) (he : Reads disk store existing) :
    Matches E disk store contents.1 contents.2.1 := by
  cases h with
  | created | republished | replaced => exact hf
  | renewed metadata record expiry hr =>
    cases he with
    | found _ hc => exact (hs.consistent store record expiry hc hr).2
  | restored metadata record claims output hr hp =>
    exact ⟨metadata, claims, output, hf, hp, rfl, rfl⟩

/-- The update does not shorten a promise whose output or source it replaces. -/
def Lengthens (policy : LeasePolicy) (store : StoreHash) (purpose : LeasePurpose)
    (source : Option UpstreamNarSource) (now : ℕ) (disk : Disk) : Prop :=
  ∀ record expiry, disk.record store = some (.lease record) →
    record.retention = .until_ expiry → Replaces purpose source record →
    expiry ≤ freshExpiry policy now

theorem lengthens_advertisement (metadata : Bytes) :
    Lengthens policy store (.advertisement metadata) source now disk := by
  rintro record expiry - - ⟨identity, output, hp, -⟩
  cases hp

theorem Updates.safe (h : Updates E policy store purpose source now disk disk')
    (hl : freshExpiry policy now ≤ limit) (hs : Safe E limit P disk)
    (hf : Fits E disk store purpose) (hn : Lengthens policy store purpose source now disk) :
    Safe E limit P disk' := by
  have hc := fun record expiry (hr : disk.record store = some (.lease record))
    (he : record.retention = .until_ expiry) => h.continues hr he
  cases h with
  | kept existing plan hr hd hp => exact hs
  | written existing lease hr hd =>
    cases hd with
    | write identity output source' hm ht =>
      refine hs.promise (hm.matches hs hf hr) rfl hl fun record expiry hre he => ?_
      by_cases hx : Replaces purpose source record
      · exact hn record expiry hre he hx
      · obtain ⟨record', expiry', hre', hco⟩ := hc record expiry hre he
        rw [record_withRecord_self] at hre'
        cases hre'
        cases hco.retention
        exact hco.renewal hx

/-- After an update there is no record, or it promises what the narinfo in place names for the
whole lifetime. -/
theorem Updates.keeps (h : Updates E policy store purpose source now disk disk')
    (hs : Safe E limit P disk) (hf : Fits E disk store purpose) :
    disk'.record store = none ∨ ∃ identity output, Matches E disk store identity output ∧
      Keeps disk' ⟨store, identity, output, now + policy.lifetimeSeconds⟩ := by
  cases h with
  | kept existing plan hr hd hp =>
    cases hd with
    | skip metadata hpu hx =>
      subst hx
      cases hr with
      | missing hn => exact .inl hn
    | reuse identity output source' record hx hc he hu hso =>
      subst hx
      cases hr with
      | found _ ho =>
        cases ht : record.retention with
        | removalPending =>
          rw [ht] at he
          have hi := policy.positive
          exact absurd he (by simp only [AdvertisementRetention.expiresAt]; omega)
        | until_ expiry =>
          rw [ht] at he
          have hm := (hs.consistent store record expiry ho ht).2
          exact .inr ⟨record.identity, record.output, hm, record, expiry, ho, ht, rfl, rfl, he⟩
    | write identity output source' hc ha =>
      rcases hp with hp | hp
      · cases hp
      · cases hp
  | written existing lease hr hd =>
    cases hd with
    | write identity output source' hc ha =>
      exact .inr ⟨identity, output, hc.matches hs hf hr, _, _,
        record_withRecord_self .., rfl, rfl, rfl, le_freshExpiry policy now⟩

theorem updateAdvertisementLease_safe (hl : freshExpiry policy now ≤ limit) :
    Triple (fun disk => Safe E limit P disk ∧ Fits E disk store purpose ∧
        Lengthens policy store purpose source now disk)
      (updateAdvertisementLease E (.active policy) store purpose source now)
      (fun _ disk => Safe E limit P disk) (fun _ disk => Safe E limit P disk)
      fun disk => Safe E limit P disk := by
  refine .ofState ?_
  rintro disk ⟨hs, hf, hn⟩
  refine updateAdvertisementLease_spec.consequence (fun _ => id) ?_ ?_ ?_
  · exact fun _ _ hu => hu.safe hl hs hf hn
  · rintro _ _ (rfl | hu)
    · exact hs
    · exact hu.safe hl hs hf hn
  · rintro _ (rfl | hu)
    · exact hs
    · exact hu.safe hl hs hf hn

theorem markAdvertisementRemovalPending_spec (hP : Unpromised P store) :
    Triple (Safe E limit P) (markAdvertisementRemovalPending (.active policy) store)
      (fun _ disk => Safe E limit P disk ∧ Dropped disk store) (fun _ => Safe E limit P)
      (Safe E limit P) := by
  refine .bind readLease_spec ?_
  intro existing
  refine .ofState ?_
  rintro disk ⟨hs, he⟩
  cases he with
  | missing hn =>
    refine .pure ?_
    rintro _ rfl
    refine ⟨hs, fun record expiry hr => ?_⟩
    rw [hn] at hr
    cases hr
  | found record hr =>
    by_cases hv : record.version ≠ leaseVersion
    · simp only [if_pos hv]
      refine .stop ?_
      rintro _ rfl
      exact hs
    · simp only [if_neg hv]
      cases ht : record.retention with
      | removalPending =>
        have hd : Dropped disk store := by
          intro other expiry ho hu
          rw [hr] at ho
          cases ho
          rw [ht] at hu
          cases hu
        refine sync_keeps.consequence (fun _ => id) ?_ ?_ ?_
        · rintro _ _ rfl
          exact ⟨hs, hd⟩
        · rintro _ _ rfl
          exact hs
        · rintro _ rfl
          exact hs
      | until_ expiry =>
        have hp : Safe E limit P
              (disk.withRecord store { record with retention := .removalPending }) ∧
            Dropped (disk.withRecord store { record with retention := .removalPending }) store :=
          hs.pending hP rfl
        refine publishAdvertisementRecord_spec.consequence (fun _ => id) ?_ ?_ ?_
        · rintro _ _ rfl
          exact hp
        · rintro _ _ (rfl | rfl)
          · exact hs
          · exact hp.1
        · rintro _ (rfl | rfl)
          · exact hs
          · exact hp.1

theorem removeAdvertisementRecord_safe (hP : Unpromised P store) :
    Preserves (Safe E limit P) (removeAdvertisementRecord (.active policy) store) := by
  refine .bind sync_keeps fun _ => .bind (.operation ?_) fun _ => sync_keeps
  intro disk _ disk' hs ha
  cases Except.ok.inj ha
  exact hs.withoutRecord hP

theorem removeNarinfoWithRetention_safe (hP : Unpromised P store) :
    Preserves (Safe E limit P) (removeNarinfoWithRetention (.active policy) store) := by
  refine Triple.bind (markAdvertisementRemovalPending_spec hP) fun _ => ?_
  have hy : Triple (fun disk => Safe E limit P disk ∧ Dropped disk store) sync
      (fun _ disk => Safe E limit P disk ∧ Dropped disk store) (fun _ => Safe E limit P)
      (Safe E limit P) :=
    sync_keeps.relax (fun _ _ => And.left) fun _ => And.left
  refine Triple.bind hy fun _ => Triple.bind (Q := fun _ => Safe E limit P) ?_ fun _ =>
    removeAdvertisementRecord_safe hP
  refine Triple.operation ?_ (fun _ _ hs _ => hs.1) (fun _ => And.left) fun _ => And.left
  rintro disk _ disk' ⟨hs, hd⟩ ha
  cases hn : disk.narinfos store with
  | none => simp [hn] at ha
  | some bytes =>
    simp only [hn, Except.ok.injEq, Prod.mk.injEq, true_and] at ha
    rw [← ha]
    exact hs.withNarinfo hd none

theorem publishNarinfo_spec :
    Triple (Safe E limit P) (publishNarinfo store bytes)
      (fun outcome disk => Safe E limit P disk ∧ disk.narinfos store = some bytes ∧
        (outcome = .created → Unpromised P store)) (fun _ => Safe E limit P) (Safe E limit P) := by
  refine .bind (Q := fun outcome disk => Safe E limit P disk ∧ disk.narinfos store = some bytes ∧
    (outcome = .created → Unpromised P store)) ?_ fun outcome => ?_
  · refine .operation ?_ (fun _ _ hs _ => hs) (fun _ => id) fun _ => id
    intro disk outcome disk' hs ha
    cases hn : disk.narinfos store with
    | none =>
      simp only [hn, Except.ok.injEq, Prod.mk.injEq] at ha
      obtain ⟨rfl, rfl⟩ := ha
      obtain ⟨hd, hP⟩ := hs.dropped_of_absent hn
      exact ⟨hs.withNarinfo hd (some bytes), Function.update_self .., fun _ => hP⟩
    | some existing =>
      simp only [hn] at ha
      split_ifs at ha with hm
      simp only [Except.ok.injEq, Prod.mk.injEq] at ha
      obtain ⟨rfl, rfl⟩ := ha
      exact ⟨hs, hm ▸ hn, fun heq => nomatch heq⟩
  · refine .bind (Q := fun _ disk => Safe E limit P disk ∧ disk.narinfos store = some bytes ∧
      (outcome = .created → Unpromised P store)) ?_ fun _ => .pure fun _ => id
    exact sync_keeps.relax (fun _ _ => And.left) fun _ => And.left

theorem matches_of_publication (hb : disk.narinfos claims.store = some bytes)
    (h : claims.matchesExternalPublication E bytes output = true) :
    Matches E disk claims.store claims.identity (.fromRepresentation output) := by
  obtain ⟨⟨found, payload⟩, hp, hf⟩ := (Option.any_eq_true _ _).1 h
  simp only [decide_eq_true_eq] at hf
  obtain ⟨hc, rfl⟩ := hf
  refine ⟨bytes, found, payload, hb, hp, ?_, rfl⟩
  unfold NarInfoClaims.compareLogicalClaims at hc
  split_ifs at hc with ha hi
  exact (not_not.1 hi).symm

theorem publishOrMatch_spec
    (hb : NarInfoClaims.parseExternalPublication E claims.store bytes = some (claims, output)) :
    Triple (Safe E limit P) (publishOrMatch E claims output bytes)
      (fun outcome disk => (Safe E limit P disk ∧
        Matches E disk claims.store claims.identity (.fromRepresentation output)) ∧
        (outcome = .created → Unpromised P claims.store))
      (fun _ => Safe E limit P) (Safe E limit P) := by
  refine .handle publishNarinfo_spec ?_ ?_
  · intro outcome
    refine .pure ?_
    rintro disk ⟨hs, hn, hP⟩
    exact ⟨⟨hs, bytes, claims, output, hn, hb, rfl, rfl⟩, hP⟩
  · intro error
    by_cases hc : error = .conflict
    · simp only [if_pos hc]
      refine .bind (Q := fun found disk => Safe E limit P disk ∧ (found = true →
        Matches E disk claims.store claims.identity (.fromRepresentation output))) ?_ ?_
      · refine .observe ?_ (fun _ _ hs _ => hs) (fun _ => id) fun _ => id
        intro disk found hs hf
        cases Except.ok.inj hf
        refine ⟨hs, fun ha => ?_⟩
        obtain ⟨existing, he, hm⟩ := (Option.any_eq_true _ _).1 ha
        exact matches_of_publication he hm
      · intro found
        by_cases hf : found = true
        · simp only [if_pos hf]
          refine .pure ?_
          rintro disk ⟨hs, hm⟩
          exact ⟨⟨hs, hm hf⟩, fun heq => nomatch heq⟩
        · simp only [if_neg hf]
          exact .stop fun _ => And.left
    · simp only [if_neg hc]
      exact .stop fun _ => id

/-- A narinfo is put in place without the records being touched. -/
theorem publishOrMatch_lengthens :
    Preserves (Lengthens policy store purpose source now)
      (publishOrMatch E claims output bytes) := by
  refine .handle ?_ ?_ ?_
  · refine .bind (.operation ?_) fun _ => .bind sync_keeps fun _ => .pure
    intro disk outcome disk' hn ha
    cases hb : disk.narinfos claims.store with
    | none =>
      simp only [hb, Except.ok.injEq, Prod.mk.injEq] at ha
      rw [← ha.2]
      exact hn
    | some existing =>
      simp only [hb] at ha
      split_ifs at ha
      simp only [Except.ok.injEq, Prod.mk.injEq] at ha
      rw [← ha.2]
      exact hn
  · exact fun _ => .pure
  · intro error
    by_cases hc : error = .conflict
    · simp only [if_pos hc]
      refine .bind .observe fun found => ?_
      by_cases hf : found = true
      · simp only [if_pos hf]
        exact .pure
      · simp only [if_neg hf]
        exact .stop
    · simp only [if_neg hc]
      exact .stop

theorem publishBoundNarinfo_safe (hl : freshExpiry policy now ≤ limit)
    (hb : NarInfoClaims.parseExternalPublication E claims.store bytes = some (claims, output)) :
    Triple (fun disk => Safe E limit P disk ∧ Lengthens policy claims.store
        (.publication claims.identity (.fromRepresentation output)) source now disk)
      (publishBoundNarinfo E (.active policy) claims output bytes source now)
      (fun _ => Safe E limit P) (fun _ => Safe E limit P) (Safe E limit P) := by
  refine Triple.bind (((publishOrMatch_spec hb).and publishOrMatch_lengthens).relax
    (fun _ _ => And.left) fun _ => And.left) fun outcome => ?_
  refine .ofState ?_
  rintro disk ⟨⟨⟨hs, hm⟩, hP⟩, hn⟩
  refine .handle (Q := fun _ => Safe E limit P) (E := fun _ => Safe E limit P) ?_ ?_ ?_
  · refine (updateAdvertisementLease_safe hl).strengthen ?_
    rintro _ rfl
    exact ⟨hs, hm, hn⟩
  · exact fun _ => .bind sync_keeps fun _ => .pure fun _ => id
  · intro error
    cases outcome with
    | created =>
      exact .bind (removeNarinfoWithRetention_safe (hP rfl)) fun _ =>
        .bind sync_keeps fun _ => .stop fun _ => id
    | identical => exact .stop fun _ => id

/-- A narinfo that is read without a record is not promised; with one, it is promised for the
lifetime. -/
def Advertised (E : Externals Key Signature) (store : StoreHash) (deadline : ℕ) (bytes : Bytes)
    (disk : Disk) : Prop :=
  disk.record store = none ∨ ∃ claims representation,
    NarInfoClaims.parseExternalPublication E store bytes = some (claims, representation) ∧
    Keeps disk ⟨store, claims.identity, .fromRepresentation representation, deadline⟩

theorem readAdvertisedNarinfo_spec (hl : freshExpiry policy now ≤ limit) :
    Triple (Safe E limit P) (readAdvertisedNarinfo E (.active policy) store now)
      (fun result disk => Safe E limit P disk ∧
        ∀ bytes, result = some bytes → Advertised E store (now + policy.lifetimeSeconds) bytes disk)
      (fun _ => Safe E limit P) (Safe E limit P) := by
  refine .bind (Q := fun result disk => Safe E limit P disk ∧
    disk.narinfos store = result) ?_ ?_
  · refine .observe ?_ (fun _ _ hs _ => hs) (fun _ => id) fun _ => id
    intro disk result hs hr
    exact ⟨hs, Except.ok.inj hr⟩
  · intro result
    cases result with
    | none => exact .pure fun _ ht => ⟨ht.1, fun _ heq => nomatch heq⟩
    | some bytes =>
      by_cases hm : maxNarinfoBytes < bytes.length
      · simp only [if_pos hm]
        exact .stop fun _ => And.left
      · simp only [if_neg hm]
        refine .ofState ?_
        rintro disk ⟨hs, hn⟩
        refine .bind (Q := fun _ disk' => Safe E limit P disk' ∧
          Advertised E store (now + policy.lifetimeSeconds) bytes disk') ?_ ?_
        · refine updateAdvertisementLease_spec.consequence (fun _ => id) ?_ ?_ ?_
          · intro _ disk' hu
            refine ⟨hu.safe hl hs hn (lengthens_advertisement _), (hu.keeps hs hn).imp_right ?_⟩
            rintro ⟨identity, output, ⟨bytes', claims, representation, hb', hp, rfl, rfl⟩, hk⟩
            rw [hn] at hb'
            cases hb'
            exact ⟨claims, representation, hp, hk⟩
          · rintro _ _ (rfl | hu)
            · exact hs
            · exact hu.safe hl hs hn (lengthens_advertisement _)
          · rintro _ (rfl | hu)
            · exact hs
            · exact hu.safe hl hs hn (lengthens_advertisement _)
        · intro _
          refine .pure ?_
          rintro disk' ⟨hs', ha⟩
          refine ⟨hs', ?_⟩
          rintro _ ⟨⟩
          exact ha

theorem deleteNarinfo_safe (hP : Unpromised P store) :
    Preserves (Safe E limit P) (deleteNarinfo (.active policy) store) := by
  refine .bind .observe fun result => ?_
  cases result with
  | none => exact .bind (removeAdvertisementRecord_safe hP) fun _ => .pure
  | some bytes =>
    exact .bind (removeNarinfoWithRetention_safe hP) fun _ => .bind sync_keeps fun _ => .pure

theorem Keeps.protection {promise} (h : Keeps disk promise) {time : ℕ}
    (ht : time < promise.deadline) {protection}
    (hp : advertisementProtection (.active policy) disk time = .ok protection) :
    protection.protects (.publication promise.store) = true ∧
      protection.protects (.canonicalNar promise.identity.hash) = true ∧
      protection.protectsNarName (promise.output.fileName promise.identity) = true := by
  obtain ⟨record, expiry, hr, he, hi, ho, hd⟩ := h
  have hu : time < record.retention.expiresAt := by
    rw [he]
    exact Nat.lt_of_lt_of_le ht hd
  have hc := protection_of_record hr hu hp
  rwa [hi, ho] at hc

theorem collectPublications_safe {selected}
    (hP : ∀ promise, P promise → now < promise.deadline) :
    Preserves (Safe E limit P) (collectPublications (.active policy) selected now) := by
  refine Triple.bind (Q := fun protection disk => (∀ promise, P promise →
    protection.protects (.publication promise.store) = true) ∧ Safe E limit P disk) ?_ ?_
  · refine .observe ?_ (fun _ _ hs _ => hs) (fun _ => id) fun _ => id
    intro disk protection hs ho
    refine ⟨fun promise hp => ?_, hs⟩
    exact ((hs.keeps promise hp).protection (hP promise hp) ho).1
  · intro protection
    refine .assuming fun hr => Preserves.forEach ?_
    intro store ht
    have hu := (List.mem_filter.1 ht).2
    have hn : Unpromised P store := by
      rintro promise hp rfl
      rw [hr promise hp] at hu
      cases hu
    exact .bind (removeNarinfoWithRetention_safe hn) fun _ => sync_keeps

inductive Operation where
  | advertise (store : StoreHash)
  | publish (claims : NarInfoClaims) (output : NarRepresentation) (bytes : Bytes)
      (source : Option UpstreamNarSource)
  | delete (store : StoreHash)
  | collect (selected : List StoreHash)
  deriving DecidableEq

inductive Answer where
  | advertised (bytes : Option Bytes)
  | published (outcome : PublishOutcome)
  | deleted (deletion : NarInfoDeletion)
  | collected
  deriving DecidableEq

/-- An operation with the policy and the clock of the process that runs it. -/
structure Request where
  operation : Operation
  policy : LeasePolicy
  now : ℕ
  deriving DecidableEq

def Request.perform (E : Externals Key Signature) (request : Request) : Program Answer :=
  match request.operation with
  | .advertise store => do
    let bytes ← readAdvertisedNarinfo E (.active request.policy) store request.now
    pure (.advertised bytes)
  | .publish claims output bytes source => do
    let outcome ← publishBoundNarinfo E (.active request.policy) claims output bytes source
      request.now
    pure (.published outcome)
  | .delete store => do
    let deletion ← deleteNarinfo (.active request.policy) store
    pure (.deleted deletion)
  | .collect selected => do
    collectPublications (.active request.policy) selected request.now
    pure .collected

/-- The text of a publication states its claims and its output. -/
def Request.Bound (E : Externals Key Signature) (request : Request) : Prop :=
  ∀ claims output bytes source, request.operation = .publish claims output bytes source →
    NarInfoClaims.parseExternalPublication E claims.store bytes = some (claims, output)

/-- A publication finds a promise, and has another output or source for it. -/
def Request.Replaces (request : Request) (disk : Disk) : Prop :=
  ∃ claims output bytes source, request.operation = .publish claims output bytes source ∧
    disk.Replaced claims.store (.publication claims.identity (.fromRepresentation output)) source

def Step (E : Externals Key Signature) (c : Clocked) (event : Request × Exit StorageError Answer)
    (c' : Clocked) : Prop :=
  event.1.Bound E ∧ c.Admits event.1.policy event.1.now (event.1.Replaces c.disk) ∧
    ∃ faults, (event.1.perform E c.disk faults).exit = event.2 ∧
      c' = c.next event.1.policy event.1.now (event.1.perform E c.disk faults).state

/-- The request does not touch the promises: it deletes none of their narinfos, and if it is a
collection it comes before their deadlines. -/
def Request.Spares (request : Request) (P : Promise → Prop) : Prop :=
  ∀ promise, P promise → request.operation ≠ .delete promise.store ∧ request.now < promise.deadline

theorem Request.perform_safe {request : Request} (hb : request.Bound E) (hs : request.Spares P)
    (hl : freshExpiry request.policy request.now ≤ limit) :
    Triple (fun disk => Safe E limit P disk ∧ (request.Replaces disk → ∀ store record expiry,
        disk.record store = some (.lease record) → record.retention = .until_ expiry →
        expiry ≤ freshExpiry request.policy request.now)) (request.perform E)
      (fun _ => Safe E limit P) (fun _ => Safe E limit P) (Safe E limit P) := by
  obtain ⟨operation, policy, now⟩ := request
  cases operation with
  | advertise store =>
    exact .bind ((readAdvertisedNarinfo_spec hl).consequence (fun _ => And.left)
      (fun _ _ => And.left) (fun _ _ => id) fun _ => id) fun _ => .pure fun _ => id
  | publish claims output bytes source =>
    refine .bind ((publishBoundNarinfo_safe hl (hb claims output bytes source rfl)).strengthen ?_)
      fun _ => .pure fun _ => id
    rintro disk ⟨hs, hr⟩
    refine ⟨hs, fun record expiry hre he hx => ?_⟩
    exact hr ⟨claims, output, bytes, source, rfl, record, expiry, hre, he, hx⟩ _ record expiry
      hre he
  | delete store =>
    refine .bind ((deleteNarinfo_safe ?_).strengthen fun _ => And.left) fun _ => .pure fun _ => id
    rintro promise hp rfl
    exact (hs promise hp).1 rfl
  | collect selected =>
    exact .bind ((collectPublications_safe fun promise hp => (hs promise hp).2).strengthen
      fun _ => And.left) fun _ => .pure fun _ => id

section Histories

variable {c c' : Clocked} {events : List (Request × Exit StorageError Answer)}

theorem Step.safe {event} (h : Step E c event c') (hs : Safe E c.limit P c.disk)
    (hp : event.1.Spares P) : Safe E c'.limit P c'.disk := by
  obtain ⟨hb, ha, faults, -, rfl⟩ := h
  refine (Request.perform_safe hb hp (c.fresh_le_limit _ _ _)).outcome
    ⟨hs.mono (c.limit_mono _ _ _), ?_⟩ faults
  -- What is replaced was promised before, so not beyond the limit up to now.
  intro hr store record expiry hre he
  exact (hs.consistent store record expiry hre he).1.trans (ha.limit_le hr)

end Histories

section Sample

def sampleText : Bytes := unlines newline ((sampleMetadata []).lines (.raw sampleIdentity))

theorem hundred_pos : 0 < 100 := by decide

def hundredSeconds : LeasePolicy := samplePolicy 100 hundred_pos

end Sample

end AdvertisementLeases
