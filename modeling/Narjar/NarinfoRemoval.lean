import Narjar.RetentionPromises

/-!
# Withdrawing a narinfo

A withdrawal marks the retention record as pending, unlinks the narinfo and removes the record.
The two files live in different directories, and a crash of the machine keeps any part of what
was not synced. The withdrawal syncs the root before it unlinks the record, so that no crash
leaves the narinfo without a record. A record that is still pending gets in the way of neither a
later publication nor a second withdrawal.
-/
namespace AdvertisementLeases

open ByteCodecs NarFormat ManifestFormat ObjectNames NarInfo FaultyPrograms DirectoryDurability

/-- The retention directory and the narinfos of the root, with what is not synced yet. -/
structure DurableDisk where
  records : Directory Bytes RecordFile
  root : Directory StoreHash Bytes

def readRecordFile : Option RecordFile → Except StorageError (Option AdvertisementLease)
  | none => .ok none
  | some (.lease record) => .ok (some record)
  | some (.invalid message) => .error (.invalidData message)

theorem readAdvertisementLease_eq (records : AList fun _ : Bytes => RecordFile) (name : Bytes) :
    readAdvertisementLease records name = readRecordFile (records.lookup name) := by
  unfold readAdvertisementLease readRecordFile
  rcases records.lookup name with _ | _ | _
  · rfl
  · rfl
  · rfl

namespace WithdrawalOperations

variable {σ τ : Type} {O : WithdrawalOperations σ} {P : WithdrawalOperations τ} {R : σ → τ → Prop}

/-- Each operation on one disk is followed by the same operation on the other. -/
structure Refines (O : WithdrawalOperations σ) (R : σ → τ → Prop) (P : WithdrawalOperations τ) :
    Prop where
  readLease : ∀ store, Simulates R (O.readLease store) (P.readLease store)
  linkRecord : ∀ store lease, Simulates R (O.linkRecord store lease) (P.linkRecord store lease)
  unlinkRecord : ∀ store, Simulates R (O.unlinkRecord store) (P.unlinkRecord store)
  unlinkNarinfo : ∀ store, Simulates R (O.unlinkNarinfo store) (P.unlinkNarinfo store)
  notePublicationRemoved : Simulates R O.notePublicationRemoved P.notePublicationRemoved
  syncRecords : Simulates R O.syncRecords P.syncRecords
  syncRoot : Simulates R O.syncRoot P.syncRoot

theorem Refines.markAdvertisementRemovalPending (h : O.Refines R P) (leases : Leases)
    (store : StoreHash) : Simulates R (O.markAdvertisementRemovalPending leases store)
      (P.markAdvertisementRemovalPending leases store) := by
  cases leases with
  | absent => exact .pure
  | incomplete => exact .stop
  | active policy =>
    refine .bind (h.readLease store) fun existing => ?_
    cases existing with
    | none => exact .pure
    | some record =>
      by_cases hv : record.version ≠ leaseVersion
      · simp only [if_pos hv]
        exact .stop
      · simp only [if_neg hv]
        cases record.retention with
        | removalPending => exact h.syncRecords
        | until_ expiry => exact .bind (h.linkRecord store _) fun _ => h.syncRecords

theorem Refines.removeAdvertisementRecord (h : O.Refines R P) (leases : Leases)
    (store : StoreHash) : Simulates R (O.removeAdvertisementRecord leases store)
      (P.removeAdvertisementRecord leases store) := by
  cases leases with
  | absent => exact .pure
  | incomplete => exact .stop
  | active policy =>
    exact .bind h.syncRoot fun _ => .bind (h.unlinkRecord store) fun _ => h.syncRecords

theorem Refines.removeNarinfoWithRetention (h : O.Refines R P) (leases : Leases)
    (store : StoreHash) : Simulates R (O.removeNarinfoWithRetention leases store)
      (P.removeNarinfoWithRetention leases store) :=
  .bind (h.markAdvertisementRemovalPending leases store) fun _ =>
    .bind h.notePublicationRemoved fun _ =>
      .bind (h.unlinkNarinfo store) fun _ => h.removeAdvertisementRecord leases store

end WithdrawalOperations

namespace DurableDisk

abbrev DurableProgram := Faulty DurableDisk StorageError

def changeRecord (change : Change Bytes RecordFile) : DurableProgram Unit :=
  operation .io fun disk => .ok ((), { disk with records := disk.records.record change })

def syncRecords : DurableProgram Unit :=
  operation .io fun disk => .ok ((), { disk with records := disk.records.sync })

def durableOperations : WithdrawalOperations DurableDisk where
  readLease store := observe .io fun disk => readRecordFile (disk.records.live (leaseName store))
  linkRecord store lease := changeRecord (.link (leaseName store) (.lease lease))
  unlinkRecord store := changeRecord (.unlink (leaseName store))
  unlinkNarinfo store := operation .io fun disk =>
    match disk.root.live store with
    | none => .error .io
    | some _ => .ok ((), { disk with root := disk.root.record (.unlink store) })
  notePublicationRemoved := operation .io fun disk => .ok ((), disk)
  syncRecords := syncRecords
  syncRoot := operation .io fun disk => .ok ((), { disk with root := disk.root.sync })

def markAdvertisementRemovalPending : Leases → StoreHash → DurableProgram Unit :=
  durableOperations.markAdvertisementRemovalPending

def removeAdvertisementRecord : Leases → StoreHash → DurableProgram Unit :=
  durableOperations.removeAdvertisementRecord

def removeNarinfoWithRetention : Leases → StoreHash → DurableProgram Unit :=
  durableOperations.removeNarinfoWithRetention

/-- The disk that a running process sees, or that one finds after a crash. -/
structure Shows (records : Contents Bytes RecordFile) (narinfos : Contents StoreHash Bytes)
    (disk : Disk) : Prop where
  records : ∀ name, disk.records.lookup name = records name
  narinfos : disk.narinfos = narinfos

def ShownBy (durable : DurableDisk) (disk : Disk) : Prop :=
  Shows durable.records.live durable.root.live disk

variable {leases : Leases} {store : StoreHash} {durable : DurableDisk}

theorem linkRecord_simulates : Simulates ShownBy (durableOperations.linkRecord store lease)
    (plainOperations.linkRecord store lease) := by
  refine .operation ?_
  intro durable disk h
  refine .inr ⟨_, _, _, rfl, rfl, ?_, h.narinfos⟩
  intro name
  rw [Directory.live_record, Change.apply]
  by_cases hn : name = leaseName store
  · subst hn
    rw [AList.lookup_insert]
    exact (Function.update_self (leaseName store) _ durable.records.live).symm
  · rw [AList.lookup_insert_ne hn, h.records]
    exact (Function.update_of_ne hn _ durable.records.live).symm

theorem unlinkRecord_simulates : Simulates ShownBy (durableOperations.unlinkRecord store)
    (plainOperations.unlinkRecord store) := by
  refine .operation ?_
  intro durable disk h
  refine .inr ⟨_, _, _, rfl, rfl, ?_, h.narinfos⟩
  intro name
  rw [Directory.live_record]
  by_cases hn : name = leaseName store
  · subst hn
    rw [AList.lookup_erase, Change.apply_unlink_self]
  · rw [AList.lookup_erase_ne hn, h.records, Change.apply_unlink_of_ne _ hn]

theorem unlinkNarinfo_simulates : Simulates ShownBy (durableOperations.unlinkNarinfo store)
    (plainOperations.unlinkNarinfo store) := by
  refine .operation ?_
  intro durable disk h
  rw [h.narinfos]
  cases durable.root.live store with
  | none => exact .inl ⟨.io, rfl, rfl⟩
  | some bytes =>
    refine .inr ⟨_, _, _, rfl, rfl, h.records, ?_⟩
    rw [Directory.live_record]
    rfl

theorem durableOperations_refine : durableOperations.Refines ShownBy plainOperations where
  readLease store := .observe fun durable disk h => by rw [readAdvertisementLease_eq, h.records]
  linkRecord _ _ := linkRecord_simulates
  unlinkRecord _ := unlinkRecord_simulates
  unlinkNarinfo _ := unlinkNarinfo_simulates
  notePublicationRemoved := .operation fun _ _ h => .inr ⟨_, _, _, rfl, rfl, h⟩
  syncRecords := .operation fun _ _ h => .inr ⟨_, _, _, rfl, rfl, h⟩
  syncRoot := .operation fun _ _ h => .inr ⟨_, _, _, rfl, rfl, h⟩

/-- What a running process sees of the withdrawal is the withdrawal of the plain model. -/
theorem removeNarinfoWithRetention_simulates :
    Simulates ShownBy (removeNarinfoWithRetention leases store)
      (AdvertisementLeases.removeNarinfoWithRetention leases store) :=
  durableOperations_refine.removeNarinfoWithRetention leases store

/-- A crash leaves the store with a record. -/
def RecordKept (store : StoreHash) (durable : DurableDisk) : Prop :=
  none ∉ durable.records.possible (leaseName store)

/-- A crash leaves no narinfo of the store. -/
def NarinfoGone (store : StoreHash) (durable : DurableDisk) : Prop :=
  ∀ x ∈ durable.root.possible store, x = none

/-- Whatever a crash leaves, a narinfo that is there has a record. -/
def Accompanied (store : StoreHash) (durable : DurableDisk) : Prop :=
  RecordKept store durable ∨ NarinfoGone store durable

theorem RecordKept.syncRecords (h : RecordKept store durable) :
    RecordKept store { durable with records := durable.records.sync } := by
  intro hn
  rw [Directory.mem_possible_sync] at hn
  apply h
  rw [hn]
  exact Directory.live_mem_possible ..

theorem syncRecords_keeps_record : Preserves (RecordKept store) syncRecords := by
  refine .operation ?_
  intro durable _ durable' h ha
  cases Except.ok.inj ha
  exact h.syncRecords

theorem markAdvertisementRemovalPending_keeps
    (hs : Preserves I syncRecords)
    (hc : ∀ record : AdvertisementLease, record.version = leaseVersion →
      Preserves I (changeRecord (.link (leaseName store) (.lease record)))) :
    Preserves I (markAdvertisementRemovalPending leases store) := by
  cases leases with
  | absent => exact .pure
  | incomplete => exact .stop
  | active policy =>
    refine .bind .observe fun existing => ?_
    cases existing with
    | none => exact .pure
    | some record =>
      by_cases hv : record.version ≠ leaseVersion
      · simp only [if_pos hv]
        exact .stop
      · simp only [if_neg hv]
        cases record.retention with
        | removalPending => exact hs
        | until_ expiry => exact .bind (hc _ (not_not.1 hv)) fun _ => hs

theorem linkRecord_keeps_record :
    Preserves (RecordKept store) (changeRecord (.link (leaseName store) file)) := by
  refine .operation ?_
  intro durable _ durable' h ha
  cases Except.ok.inj ha
  intro ho
  rcases Directory.mem_possible_record.1 ho with hl | ⟨-, hn⟩
  · exact h hl
  · cases hn

theorem removeAdvertisementRecord_accompanied :
    Triple (fun durable => RecordKept store durable ∧ durable.root.live store = none)
      (removeAdvertisementRecord leases store) (fun _ => Accompanied store)
      (fun _ => Accompanied store) (Accompanied store) := by
  cases leases with
  | absent => exact .pure fun _ h => .inl h.1
  | incomplete => exact .stop fun _ h => .inl h.1
  | active policy =>
    refine .bind (Q := fun _ => NarinfoGone store) ?_ fun _ => ?_
    · refine .operation ?_ ?_ (fun _ h => .inl h.1) fun _ h => .inl h.1
      · intro durable _ durable' h ha
        cases Except.ok.inj ha
        intro x hx
        rw [Directory.mem_possible_sync] at hx
        exact hx.trans h.2
      · intro durable e h ha
        cases ha
    · have hg : Preserves (NarinfoGone store) (do
          changeRecord (.unlink (leaseName store))
          syncRecords) := by
        refine .bind (.operation ?_) fun _ => .operation ?_
        · intro durable _ durable' h ha
          cases Except.ok.inj ha
          exact h
        · intro durable _ durable' h ha
          cases Except.ok.inj ha
          exact h
      exact hg.consequence (fun _ => id) (fun _ _ => .inr) (fun _ _ => .inr) fun _ => .inr

theorem removeNarinfoWithRetention_accompanied :
    Triple (RecordKept store) (removeNarinfoWithRetention leases store)
      (fun _ => Accompanied store) (fun _ => Accompanied store) (Accompanied store) := by
  refine .bind (Q := fun _ => RecordKept store) ?_ fun _ => ?_
  · exact (markAdvertisementRemovalPending_keeps syncRecords_keeps_record
      fun _ _ => linkRecord_keeps_record).relax (fun _ _ => .inl) fun _ => .inl
  refine .bind (Q := fun _ => RecordKept store) ?_ fun _ => ?_
  · refine .operation ?_ ?_ (fun _ => .inl) fun _ => .inl
    · intro durable _ durable' h ha
      cases Except.ok.inj ha
      exact h
    · intro durable e h ha
      cases ha
  refine .bind (Q := fun _ durable => RecordKept store durable ∧ durable.root.live store = none) ?_
    fun _ => removeAdvertisementRecord_accompanied
  refine .operation ?_ (fun _ _ h _ => .inl h) (fun _ => .inl) fun _ => .inl
  intro durable _ durable' h ha
  cases hn : durable.root.live store with
  | none =>
    rw [hn] at ha
    cases ha
  | some bytes =>
    rw [hn] at ha
    cases Except.ok.inj ha
    refine ⟨h, ?_⟩
    rw [Directory.live_record, Change.apply_unlink_self]

end DurableDisk

/-- There is no record, or one of the supported version. -/
def Readable (file : Option RecordFile) : Prop :=
  ∀ content, file = some content → ∃ record, content = .lease record ∧ record.version = leaseVersion

theorem readable_none : Readable none := by
  intro content h
  cases h

theorem readable_lease (h : record.version = leaseVersion) :
    Readable (some (.lease record)) := by
  intro content hc
  cases hc
  exact ⟨record, rfl, h⟩

namespace DurableDisk

variable {leases : Leases} {store : StoreHash}

def RecordReadable (store : StoreHash) (durable : DurableDisk) : Prop :=
  ∀ file ∈ durable.records.possible (leaseName store), Readable file

theorem syncRecords_keeps_readable : Preserves (RecordReadable store) syncRecords := by
  refine .operation ?_
  intro durable _ durable' h ha
  cases Except.ok.inj ha
  intro file hf
  rw [Directory.mem_possible_sync] at hf
  subst hf
  exact h _ (Directory.live_mem_possible ..)

theorem changeRecord_keeps_readable
    (hc : Readable change.result) : Preserves (RecordReadable store) (changeRecord change) := by
  refine .operation ?_
  intro durable _ durable' h ha
  cases Except.ok.inj ha
  intro file hf
  rcases Directory.mem_possible_record.1 hf with ho | ⟨-, rfl⟩
  · exact h file ho
  · exact hc

theorem removeNarinfoWithRetention_keeps_readable :
    Preserves (RecordReadable store) (removeNarinfoWithRetention leases store) := by
  have hr : ∀ durable durable' : DurableDisk, durable'.records = durable.records →
      RecordReadable store durable → RecordReadable store durable' := by
    intro durable durable' he h
    unfold RecordReadable
    rw [he]
    exact h
  refine .bind (markAdvertisementRemovalPending_keeps syncRecords_keeps_readable fun _ hv =>
    changeRecord_keeps_readable (readable_lease hv)) fun _ => .bind (.operation ?_) fun _ =>
    .bind (.operation ?_) fun _ => ?_
  · intro durable _ durable' h ha
    cases Except.ok.inj ha
    exact h
  · intro durable _ durable' h ha
    split at ha
    · cases ha
    · cases Except.ok.inj ha
      exact hr _ _ rfl h
  · cases leases with
    | absent => exact .pure
    | incomplete => exact .stop
    | active policy =>
      refine .bind (.operation ?_) fun _ => .bind (changeRecord_keeps_readable readable_none) fun _ =>
        syncRecords_keeps_readable
      intro durable _ durable' h ha
      cases Except.ok.inj ha
      exact hr _ _ rfl h

end DurableDisk

section Retry

variable {policy : LeasePolicy} {store : StoreHash} {F : StorageError → Disk → Prop}

theorem sync_quiet : Quiet P sync (fun _ => P) F := by
  refine .operation ?_ ?_
  · intro disk _ disk' h ha
    cases Except.ok.inj ha
    exact h
  · intro disk e h ha
    cases ha

theorem readLease_of_readable {disk : Disk} (h : Readable (disk.record store)) (e : StorageError) :
    readAdvertisementLease disk.records (leaseName store) ≠ .error e := by
  intro hr
  rw [readAdvertisementLease_eq] at hr
  change readRecordFile (disk.record store) = _ at hr
  cases hf : disk.record store with
  | none =>
    rw [hf] at hr
    cases hr
  | some content =>
    obtain ⟨record, rfl, -⟩ := h content hf
    rw [hf] at hr
    cases hr

theorem markAdvertisementRemovalPending_quiet {narinfo} :
    Quiet (fun disk => Readable (disk.record store) ∧ disk.narinfos store = narinfo)
      (markAdvertisementRemovalPending (.active policy) store)
      (fun _ disk => disk.narinfos store = narinfo) F := by
  refine .bind (Q := fun existing disk => disk.narinfos store = narinfo ∧
    ∀ record, existing = some record → record.version = leaseVersion) ?_ fun existing => ?_
  · refine .observe ?_ ?_
    · intro disk existing h hr
      obtain ⟨he, hn⟩ := h
      refine ⟨hn, ?_⟩
      rintro record rfl
      cases reads_of_ok hr with
      | found record hc =>
        obtain ⟨other, ho, hv⟩ := he _ hc
        cases ho
        exact hv
    · intro disk e h hr
      exact absurd hr (readLease_of_readable h.1 e)
  · cases existing with
    | none => exact .pure fun _ h => h.1
    | some record =>
      intro disk h
      have hv := h.2 record rfl
      simp only [if_neg (not_not.2 hv)]
      cases record.retention with
      | removalPending => exact sync_quiet disk h.1
      | until_ expiry =>
        refine Quiet.bind (P := fun disk => disk.narinfos store = narinfo)
          (Q := fun _ disk => disk.narinfos store = narinfo) ?_ (fun _ => sync_quiet) disk h.1
        refine .operation ?_ ?_
        · intro disk _ disk' h ha
          cases Except.ok.inj ha
          exact h
        · intro disk e h ha
          cases ha

theorem removeAdvertisementRecord_quiet :
    Quiet (fun disk => disk.narinfos store = none) (removeAdvertisementRecord (.active policy) store)
      (fun _ disk => disk.narinfos store = none ∧ disk.record store = none) F := by
  refine .bind (Q := fun _ disk => disk.narinfos store = none) sync_quiet fun _ => ?_
  refine .bind (Q := fun _ disk => disk.narinfos store = none ∧ disk.record store = none) ?_
    fun _ => sync_quiet
  refine .operation ?_ ?_
  · intro disk _ disk' h ha
    cases Except.ok.inj ha
    exact ⟨h, record_withoutRecord_self disk store⟩
  · intro disk e h ha
    cases ha

theorem deleteNarinfo_quiet :
    Quiet (fun disk => Readable (disk.record store)) (deleteNarinfo (.active policy) store)
      (fun _ disk => disk.narinfos store = none ∧ disk.record store = none) F := by
  refine .bind (Q := fun found disk => Readable (disk.record store) ∧ disk.narinfos store = found)
    ?_ fun found => ?_
  · refine .operation ?_ ?_
    · intro disk found disk' h ha
      cases Except.ok.inj ha
      exact ⟨h, rfl⟩
    · intro disk e h ha
      cases ha
  cases found with
  | none =>
    refine .bind (Q := fun _ disk => disk.narinfos store = none ∧ disk.record store = none) ?_
      fun _ => .pure fun _ => id
    exact fun disk h => removeAdvertisementRecord_quiet disk h.2
  | some bytes =>
    refine .bind (Q := fun _ disk => disk.narinfos store = none ∧ disk.record store = none) ?_
      fun _ => .bind (Q := fun _ disk => disk.narinfos store = none ∧ disk.record store = none)
        sync_quiet fun _ => .pure fun _ => id
    refine .bind markAdvertisementRemovalPending_quiet fun _ => .bind sync_quiet fun _ => ?_
    refine .bind (Q := fun _ disk => disk.narinfos store = none) ?_
      fun _ => removeAdvertisementRecord_quiet
    refine .operation ?_ ?_
    · intro disk _ disk' h ha
      rw [h] at ha
      cases Except.ok.inj ha
      exact Function.update_self ..
    · intro disk e h ha
      rw [h] at ha
      cases ha

end Retry

section Publication

variable {Key Signature : Type} {E : Externals Key Signature} {policy : LeasePolicy}
variable {store : StoreHash} {record : AdvertisementLease} {source : Option UpstreamNarSource}
variable {now : ℕ} {claims : NarInfoClaims} {output : NarRepresentation} {bytes : Bytes}

structure Pending (record : AdvertisementLease) : Prop where
  version : record.version = leaseVersion
  retention : record.retention = .removalPending

def startedLease (policy : LeasePolicy) (identity : NarIdentity) (output : AdvertisementOutput)
    (source : Option UpstreamNarSource) (now : ℕ) : AdvertisementLease :=
  ⟨leaseVersion, identity, .until_ (freshExpiry policy now), output, source⟩

theorem planUpdate_pending (h : Pending record) (identity : NarIdentity)
    (output : AdvertisementOutput) :
    planUpdate E policy store (.publication identity output) (some record) source now =
      planUpdate E policy store (.publication identity output) none source now := by
  have hc : leaseContents E store (.publication identity output) (some record) source =
      .ok (some (identity, output, source)) := by
    simp only [leaseContents, if_neg (not_not.2 h.version), h.retention]
  have hn : leaseContents E store (.publication identity output) none source =
      .ok (some (identity, output, source)) := rfl
  simp only [planUpdate, hc, hn, bind, Except.bind]
  cases hr : checkedExpiry now policy.lifetimeSeconds with
  | error e => rfl
  | ok required =>
    -- The pending record promises nothing, so it never reaches the required expiry.
    obtain ⟨-, rfl⟩ := checkedExpiry_eq_ok.1 hr
    have hp := policy.positive
    have hs : ¬ now + policy.lifetimeSeconds ≤ record.retention.expiresAt := by
      rw [h.retention]
      simp only [AdvertisementRetention.expiresAt]
      omega
    simp [reusable, hs]

variable {disk disk' : Disk} {existing : Option AdvertisementLease} {outcome : PublishOutcome}
variable {identity : NarIdentity} {purpose : LeasePurpose} {lease : AdvertisementLease}
variable {error : StorageError}

theorem planUpdate_started {plan output}
    (h : planUpdate E policy store (.publication identity output) none source now = .ok plan) :
    plan = .write (startedLease policy identity output source now) := by
  cases planUpdate_decided h with
  | skip metadata hp => cases hp
  | reuse _ _ _ record he => cases he
  | write _ _ _ hc =>
    cases hc
    rfl

theorem planUpdate_none {output} (h : freshExpiry policy now ≤ u64Max) :
    planUpdate E policy store (.publication identity output) none source now =
      .ok (.write (startedLease policy identity output source now)) := by
  have hr := checkedExpiry_eq_ok.2 ⟨(le_freshExpiry policy now).trans h, rfl⟩
  have he := checkedExpiry_eq_ok.2 ⟨h, rfl⟩
  simp only [planUpdate, leaseContents, bind, Except.bind, hr, he, Option.any_none]
  rfl

/-- The two disks differ in the pending record only. -/
def Forgets (record : AdvertisementLease) (store : StoreHash) (disk clean : Disk) : Prop :=
  disk.record store = some (.lease record) ∧ clean = disk.withoutRecord store

theorem publishNarinfo_forgets :
    Simulates (Forgets record store) (publishNarinfo store bytes) (publishNarinfo store bytes) := by
  refine .bind (.operation ?_) fun _ => .bind (.operation ?_) fun _ => .pure
  · rintro disk _ ⟨hr, rfl⟩
    have hn : (disk.withoutRecord store).narinfos store = disk.narinfos store := rfl
    rw [hn]
    cases disk.narinfos store with
    | none => exact .inr ⟨_, _, _, rfl, rfl, hr, rfl⟩
    | some existing =>
      by_cases hs : existing = bytes
      · simp only [if_pos hs]
        exact .inr ⟨_, _, _, rfl, rfl, hr, rfl⟩
      · simp only [if_neg hs]
        exact .inl ⟨_, rfl, rfl⟩
  · intro disk clean h
    exact .inr ⟨_, _, _, rfl, rfl, h⟩

theorem publishOrMatch_forgets :
    Simulates (Forgets record claims.store) (publishOrMatch E claims output bytes)
      (publishOrMatch E claims output bytes) := by
  refine .handle publishNarinfo_forgets (fun _ => .pure) fun error => ?_
  by_cases hc : error = .conflict
  · simp only [if_pos hc]
    refine .bind (.observe ?_) fun found => ?_
    · rintro disk _ ⟨-, rfl⟩
      rfl
    · by_cases hf : found = true
      · simp only [if_pos hf]
        exact .pure
      · simp only [if_neg hf]
        exact .stop
  · simp only [if_neg hc]
    exact .stop

theorem readLease_quiet (hr : readRecordFile (disk.record store) = .ok existing) :
    readLease store disk [] = ⟨.done existing, disk, []⟩ := by
  have hv := (readAdvertisementLease_eq ..).trans hr
  simp only [readLease, observe, operation, List.head?_nil, Option.getD_none, hv, Except.map]
  rfl

theorem updateAdvertisementLease_writes (hr : readRecordFile (disk.record store) = .ok existing)
    (hp : planUpdate E policy store purpose existing source now = .ok (.write lease)) :
    updateAdvertisementLease E (.active policy) store purpose source now disk [] =
      ⟨.done (), disk.withRecord store lease, []⟩ := by
  change ((readLease store disk []).andThen _) = _
  rw [readLease_quiet hr]
  simp only [Outcome.andThen, hp]
  rfl

theorem publishBoundNarinfo_writes
    (hu : publishOrMatch E claims output bytes disk [] = ⟨.done outcome, disk', []⟩)
    (hr : readRecordFile (disk'.record claims.store) = .ok existing)
    (hp : planUpdate E policy claims.store (.publication claims.identity
      (.fromRepresentation output)) existing source now = .ok (.write lease)) :
    publishBoundNarinfo E (.active policy) claims output bytes source now disk [] =
      ⟨.done outcome, disk'.withRecord claims.store lease, []⟩ := by
  have hd := updateAdvertisementLease_writes hr hp
  change ((publishOrMatch E claims output bytes disk []).andThen _) = _
  rw [hu]
  simp only [Outcome.andThen, handle, bind, attempt, hd]
  rfl

theorem updateAdvertisementLease_refused (hr : disk.record store = none)
    (hp : planUpdate E policy store purpose none source now = .error error) :
    updateAdvertisementLease E (.active policy) store purpose source now disk [] =
      ⟨.failed error, disk, []⟩ := by
  have hn : readRecordFile (disk.record store) = .ok none := by
    rw [hr]
    rfl
  change ((readLease store disk []).andThen _) = _
  rw [readLease_quiet hn]
  simp only [Outcome.andThen, hp]
  rfl

theorem publishBoundNarinfo_refused
    (hp : publishOrMatch E claims output bytes disk [] = ⟨.done outcome, disk', []⟩)
    (hr : disk'.record claims.store = none)
    (hl : planUpdate E policy claims.store (.publication claims.identity
      (.fromRepresentation output)) none source now = .error error) :
    (publishBoundNarinfo E (.active policy) claims output bytes source now disk []).exit ≠
      .done outcome' := by
  have hu := updateAdvertisementLease_refused hr hl
  intro hd
  cases outcome with
  | created =>
    have ho : Returns (fun _ => True) (do
        removeNarinfoWithRetention (.active policy) claims.store
        sync
        stop error : Program PublishOutcome) (fun _ _ => False) :=
      .bind .trivial fun _ => .bind .trivial fun _ => .stop fun _ _ => trivial
    have hs : publishBoundNarinfo E (.active policy) claims output bytes source now disk [] =
        (do
          removeNarinfoWithRetention (.active policy) claims.store
          sync
          stop error : Program PublishOutcome) disk' [] := by
      change ((publishOrMatch E claims output bytes disk []).andThen _) = _
      rw [hp]
      simp only [Outcome.andThen, handle, bind, attempt, hu]
    rw [hs] at hd
    exact ho.done trivial hd
  | identical =>
    have hf : (publishBoundNarinfo E (.active policy) claims output bytes source now disk
        []).exit = .failed error := by
      change Outcome.exit ((publishOrMatch E claims output bytes disk []).andThen _) = _
      rw [hp]
      simp only [Outcome.andThen, handle, bind, attempt, hu]
      rfl
    rw [hf] at hd
    cases hd

theorem publishOrMatch_quiet : Quiet (fun _ => True) (publishOrMatch E claims output bytes)
    (fun _ _ => True) fun _ _ => True := by
  refine .handle (Q := fun _ _ => True) (E := fun _ _ => True) ?_ (fun _ => .pure fun _ => id) ?_
  · refine .bind (Q := fun _ _ => True) ?_ fun _ => .bind (Q := fun _ _ => True) sync_quiet fun _ =>
      .pure fun _ => id
    exact .operation (fun _ _ _ _ _ => trivial) fun _ _ _ _ => trivial
  · intro error
    by_cases hc : error = .conflict
    · simp only [if_pos hc]
      refine .bind (Q := fun _ _ => True) (.observe (fun _ _ _ _ => trivial) fun _ _ _ _ => trivial)
        fun found => ?_
      by_cases hf : found = true
      · simp only [if_pos hf]
        exact .pure fun _ => id
      · simp only [if_neg hf]
        exact .stop fun _ => id
    · simp only [if_neg hc]
      exact .stop fun _ => id

/-- A publication that succeeds without the pending record succeeds with it, and then starts a
promise. -/
theorem publishBoundNarinfo_pending (he : disk.record claims.store = some (.lease record))
    (hn : Pending record)
    (h : (publishBoundNarinfo E (.active policy) claims output bytes source now
      (disk.withoutRecord claims.store) []).exit = .done outcome) :
    ∃ disk', publishBoundNarinfo E (.active policy) claims output bytes source now disk [] =
      ⟨.done outcome, disk', []⟩ ∧
      disk'.record claims.store = some (.lease (startedLease policy claims.identity
        (.fromRepresentation output) source now)) := by
  have hs : Simulates (Forgets record claims.store) (publishOrMatch E claims output bytes)
    (publishOrMatch E claims output bytes) := publishOrMatch_forgets
  obtain ⟨exit, disk', clean, rest, hd, hc, he', rfl⟩ := hs disk _ [] ⟨he, rfl⟩
  have hq : Quiet (fun _ => True) (publishOrMatch E claims output bytes) (fun _ _ => True)
    fun _ _ => True := publishOrMatch_quiet
  replace hq := hq disk trivial
  rw [hd] at hq
  obtain ⟨rfl, hx⟩ := hq
  cases exit with
  | crashed => exact hx.elim
  | failed e =>
    have hf : (publishBoundNarinfo E (.active policy) claims output bytes source now
        (disk.withoutRecord claims.store) []).exit = .failed e :=
      (bind_failed (congrArg Outcome.exit hc)).1
    rw [hf] at h
    cases h
  | done published =>
    have hr : (disk'.withoutRecord claims.store).record claims.store = none :=
      record_withoutRecord_self ..
    cases hp : planUpdate E policy claims.store
        (.publication claims.identity (.fromRepresentation output)) none source now with
    | error e => exact absurd h (publishBoundNarinfo_refused hc hr hp)
    | ok plan =>
      obtain rfl := planUpdate_started hp
      have hw := publishBoundNarinfo_writes hc (by rw [hr]; rfl) hp
      rw [hw] at h
      cases h
      have hr' : readRecordFile (disk'.record claims.store) = .ok (some record) := by
        rw [he']
        rfl
      rw [← planUpdate_pending hn] at hp
      exact ⟨_, publishBoundNarinfo_writes hd hr' hp, record_withRecord_self ..⟩

theorem publishBoundNarinfo_created (he : disk.record claims.store = some (.lease record))
    (hp : Pending record) (hn : disk.narinfos claims.store = none)
    (hc : freshExpiry policy now ≤ u64Max) :
    (publishBoundNarinfo E (.active policy) claims output bytes source now disk []).exit =
      .done .created := by
  have hu : publishOrMatch E claims output bytes disk [] =
      ⟨.done .created, disk.withNarinfo claims.store (some bytes), []⟩ := by
    simp only [publishOrMatch, publishNarinfo, handle, bind, attempt, operation, List.head?_nil,
      Option.getD_none, hn]
    rfl
  have hr : readRecordFile ((disk.withNarinfo claims.store (some bytes)).record claims.store) =
      .ok (some record) := by
    change readRecordFile (disk.record claims.store) = _
    rw [he]
    rfl
  have hl : planUpdate E policy claims.store
      (.publication claims.identity (.fromRepresentation output)) (some record) source now =
        .ok (.write (startedLease policy claims.identity (.fromRepresentation output) source now)) := by
    rw [planUpdate_pending hp]
    exact planUpdate_none hc
  rw [publishBoundNarinfo_writes hu hr hl]

end Publication

open DurableDisk in
/-- Whatever stops a withdrawal and whatever a crash then keeps of the two directories: a narinfo
that is still there has a record, and a second withdrawal completes. A record that is left
pending stops no publication of the store hash. -/
theorem withdrawal_strands_nothing {Key Signature : Type} (E : Externals Key Signature)
    (policy : LeasePolicy) (store : StoreHash) :
    (∀ leases durable faults records narinfos, RecordKept store durable →
      let after := (DurableDisk.removeNarinfoWithRetention leases store durable faults).state
      after.records.Survives records → after.root.Survives narinfos →
        narinfos store ≠ none → records (leaseName store) ≠ none) ∧
    (∀ leases durable faults records narinfos disk, RecordReadable store durable →
      let after := (DurableDisk.removeNarinfoWithRetention leases store durable faults).state
      after.records.Survives records → after.root.Survives narinfos → Shows records narinfos disk →
        ∃ deletion disk', deleteNarinfo (.active policy) store disk [] = ⟨.done deletion, disk', []⟩ ∧
          disk'.narinfos store = none ∧ disk'.record store = none) ∧
    ∀ disk record claims output bytes source now, claims.store = store →
      disk.record store = some (.lease record) → Pending record →
      (∀ outcome, (publishBoundNarinfo E (.active policy) claims output bytes source now
          (disk.withoutRecord store) []).exit = .done outcome →
        ∃ disk', publishBoundNarinfo E (.active policy) claims output bytes source now disk [] =
          ⟨.done outcome, disk', []⟩ ∧ disk'.record store = some (.lease (startedLease policy
            claims.identity (.fromRepresentation output) source now))) ∧
      (disk.narinfos store = none → freshExpiry policy now ≤ u64Max →
        (publishBoundNarinfo E (.active policy) claims output bytes source now disk []).exit =
          .done .created) := by
  refine ⟨?_, ?_, ?_⟩
  · intro leases durable faults records narinfos hk after he hn hv
    have ha : Accompanied store after := removeNarinfoWithRetention_accompanied.outcome hk faults
    rcases ha with hr | hg
    · intro ho
      apply hr
      rw [← ho]
      exact he.mem_possible _
    · exact absurd (hg _ (hn.mem_possible store)) hv
  · intro leases durable faults records narinfos disk hre after he hn hs
    have hf : RecordReadable store after :=
      removeNarinfoWithRetention_keeps_readable.outcome hre faults
    have hd : Readable (disk.record store) := by
      rw [Disk.record, hs.records]
      exact hf _ (he.mem_possible _)
    exact deleteNarinfo_quiet.returns hd
  · rintro disk record claims output bytes source now rfl hr hp
    exact ⟨fun outcome => publishBoundNarinfo_pending hr hp, publishBoundNarinfo_created hr hp⟩

section Sample

def sampleLease : AdvertisementLease :=
  startedLease hundredSeconds sampleIdentity .raw none 0

def sampleDurable : DurableDisk where
  records := ⟨Function.update (fun _ => none) (leaseName sampleRoute) (some (.lease sampleLease)), []⟩
  root := ⟨Function.update (fun _ => none) sampleRoute (some sampleText), []⟩

/-- The machine stops after the unlink of the narinfo and before the root is synced. -/
def unsyncedUnlink : DurableDisk :=
  (DurableDisk.removeNarinfoWithRetention (.active hundredSeconds) sampleRoute sampleDurable
    [.none, .none, .none, .none, .none, .crash]).state

/-- What a crash may leave then: the narinfo is back, next to its pending record. -/
def revivedDisk : Disk where
  records := (∅ : AList fun _ : Bytes => RecordFile).insert (leaseName sampleRoute)
    (.lease { sampleLease with retention := .removalPending })
  narinfos := sampleDurable.root.synced

theorem possible_sampleDurable :
    ∀ file ∈ sampleDurable.records.possible (leaseName sampleRoute), file = some (.lease sampleLease) := by
  intro file hf
  rcases Directory.mem_possible.1 hf with rfl | ⟨change, hc, -⟩
  · simp only [sampleDurable, Function.update_self]
  · cases hc

theorem revivedDisk_withdrawn :
    revivedDisk.narinfos sampleRoute ≠ none ∧
    unsyncedUnlink.records.live (leaseName sampleRoute) ≠ none ∧
    (∃ deletion disk', deleteNarinfo (.active hundredSeconds) sampleRoute revivedDisk [] =
        ⟨.done deletion, disk', []⟩ ∧ disk'.narinfos sampleRoute = none ∧
        disk'.record sampleRoute = none) ∧
    (publishBoundNarinfo sampleExternals (.active hundredSeconds) (sampleMetadata []).claims
      (.raw sampleIdentity) sampleText none 7 { revivedDisk with narinfos := fun _ => none }
      []).exit = .done .created := by
  have hl := withdrawal_strands_nothing sampleExternals hundredSeconds sampleRoute
  obtain ⟨hc, hr, hp⟩ := hl
  have ha : unsyncedUnlink.root.Survives sampleDurable.root.synced := ⟨[], List.nil_sublist _, rfl⟩
  have hv : sampleDurable.root.synced sampleRoute ≠ none := by decide +kernel
  refine ⟨hv, ?_, ?_, ?_⟩
  · refine hc _ sampleDurable _ _ _ ?_ unsyncedUnlink.records.live_survives ha hv
    intro ho
    cases possible_sampleDurable _ ho
  · refine hr _ sampleDurable _ _ _ revivedDisk ?_ unsyncedUnlink.records.live_survives ha ⟨?_, rfl⟩
    · intro file hf
      rw [possible_sampleDurable file hf]
      exact readable_lease rfl
    · intro name
      have hi : unsyncedUnlink.records.live = Function.update sampleDurable.records.synced
          (leaseName sampleRoute) (some (.lease { sampleLease with retention := .removalPending })) :=
        rfl
      rw [hi]
      by_cases hn : name = leaseName sampleRoute
      · subst hn
        rw [Function.update_self]
        exact AList.lookup_insert _
      · rw [Function.update_of_ne hn]
        refine (AList.lookup_insert_ne hn).trans ?_
        simp only [sampleDurable, Function.update_of_ne hn]
        rfl
  · exact (hp { revivedDisk with narinfos := fun _ => none } _ _ _ _ _ _ rfl
      (AList.lookup_insert _) ⟨rfl, rfl⟩).2 rfl (by decide +kernel)

end Sample

end AdvertisementLeases
