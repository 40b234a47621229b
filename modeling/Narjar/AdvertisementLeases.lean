import Mathlib.Data.List.AList
import Narjar.FaultyPrograms
import Narjar.FlatCollection
import Narjar.NarInfo

/-!
# Retention of advertised narinfos

Before a narinfo is served, the cache records until when it and its payloads are kept. The
records are files of one directory, one for each store hash. Removing a narinfo first marks its
record as pending. What the functions do to the disk are single operations, each of which may
fail or be the last one of the process. Times are seconds since the epoch. A record file is what
its bytes decode to.
-/
namespace AdvertisementLeases

open ByteCodecs NarFormat ManifestFormat ObjectNames NarInfo TextFields FaultyPrograms
open FlatCollection (AdvertisementProtection)
open CollectionCoordinator (ProtectedObject)

inductive StorageError where
  | conflict
  | narMismatch
  | invalidData (message : String)
  | io
  deriving DecidableEq, Repr

inductive UpstreamNarEncoding where
  | raw
  | compressed (encoded : EncodedIdentity)
  deriving DecidableEq

structure UpstreamNarSource where
  identity : NarIdentity
  encoding : UpstreamNarEncoding
  url : Bytes
  deriving DecidableEq

inductive AdvertisementOutput where
  | raw
  | compressed (encoded : EncodedIdentity)
  deriving DecidableEq

namespace AdvertisementOutput

def fromRepresentation : NarRepresentation → AdvertisementOutput
  | .raw _ => raw
  | .compressed encoded _ => compressed encoded

def fileName (output : AdvertisementOutput) (identity : NarIdentity) : NarFileName :=
  match output with
  | raw => .raw identity.hash
  | compressed encoded => ⟨encoded.hash, .compressed encoded.codec⟩

end AdvertisementOutput

inductive AdvertisementRetention where
  | until_ (expiry : ℕ)
  | removalPending
  deriving DecidableEq

def AdvertisementRetention.expiresAt : AdvertisementRetention → ℕ
  | until_ expiry => expiry
  | removalPending => 0

def leaseVersion : ℕ := 2

structure AdvertisementLease where
  version : ℕ
  identity : NarIdentity
  retention : AdvertisementRetention
  output : AdvertisementOutput
  source : Option UpstreamNarSource
  deriving DecidableEq

inductive RecordFile where
  | lease (record : AdvertisementLease)
  | invalid (message : String)
  deriving DecidableEq

structure LeasePolicy where
  lifetimeSeconds : ℕ
  positive : 0 < lifetimeSeconds
  deriving DecidableEq

inductive Leases where
  | absent
  | incomplete
  | active (policy : LeasePolicy)
  deriving DecidableEq

structure Disk where
  records : AList fun _ : Bytes => RecordFile
  narinfos : StoreHash → Option Bytes

def leaseSuffix : Bytes := ascii ['.', 'l', 'e', 'a', 's', 'e']

def policyName : Bytes := ascii ['p', 'o', 'l', 'i', 'c', 'y']

def leaseName (store : StoreHash) : Bytes := store.bytes ++ leaseSuffix

def leaseStore (name : Bytes) : Option StoreHash :=
  (name.dropSuffix? leaseSuffix).bind StoreHash.parse

@[simp] theorem leaseStore_leaseName (store : StoreHash) :
    leaseStore (leaseName store) = some store := by
  rw [leaseStore, leaseName, dropSuffix?_append]
  exact StoreHash.parse_bytes store

theorem leaseStore_eq_some (h : leaseStore name = some store) :
    name = leaseName store := by
  obtain ⟨front, hf, hs⟩ := Option.bind_eq_some_iff.1 h
  rw [dropSuffix?_eq_some hf, StoreHash.parse_eq_some hs]
  rfl

theorem leaseName_injective : Function.Injective leaseName := by
  intro s t h
  have hs := leaseStore_leaseName s
  rw [h, leaseStore_leaseName] at hs
  exact (Option.some.inj hs).symm

theorem leaseName_ne_policy (store : StoreHash) : leaseName store ≠ policyName := by
  intro h
  have hl := congrArg List.length h
  rw [leaseName, List.length_append, store.length_bytes] at hl
  have hp : policyName.length = 6 := rfl
  omega

def readAdvertisementLease (records : AList fun _ : Bytes => RecordFile) (name : Bytes) :
    Except StorageError (Option AdvertisementLease) :=
  match records.lookup name with
  | none => .ok none
  | some (.lease record) => .ok (some record)
  | some (.invalid message) => .error (.invalidData message)

inductive LeasePurpose where
  | publication (identity : NarIdentity) (output : AdvertisementOutput)
  | advertisement (metadata : Bytes)
  deriving DecidableEq

inductive LeaseUpdate where
  | skip
  | reuse
  | write (lease : AdvertisementLease)
  deriving DecidableEq

section Update

variable {Key Signature : Type} (E : Externals Key Signature)

def pendingMetadataIdentityAndOutput (store : StoreHash) (metadata : Bytes) :
    Except StorageError (NarIdentity × AdvertisementOutput) :=
  match NarInfoClaims.parseExternalPublication E store metadata with
  | some (claims, output) => .ok (claims.identity, .fromRepresentation output)
  | none => .error (.invalidData "invalid narinfo")

/-- What the record will say, or nothing when a narinfo without a record is read. -/
def leaseContents (store : StoreHash) (purpose : LeasePurpose)
    (existing : Option AdvertisementLease) (source : Option UpstreamNarSource) :
    Except StorageError (Option (NarIdentity × AdvertisementOutput × Option UpstreamNarSource)) :=
  match existing, purpose with
  | none, .publication identity output => .ok (some (identity, output, source))
  | none, .advertisement _ => .ok none
  | some record, purpose =>
    if record.version ≠ leaseVersion then
      .error (.invalidData "unsupported advertisement lease")
    else
      match purpose, record.retention with
      | .publication identity output, .until_ _ =>
        if identity ≠ record.identity then .error .narMismatch
        else .ok (some (identity, output, source.or record.source))
      | .publication identity output, .removalPending => .ok (some (identity, output, source))
      | .advertisement _, .until_ _ =>
        .ok (some (record.identity, record.output, record.source))
      | .advertisement metadata, .removalPending =>
        match pendingMetadataIdentityAndOutput E store metadata with
        | .error error => .error error
        | .ok (identity, output) => .ok (some (identity, output, record.source))

def headroom (lifetimeSeconds : ℕ) : ℕ := min ((lifetimeSeconds + 9) / 10) 3600

def checkedExpiry (a b : ℕ) : Except StorageError ℕ :=
  match checkedAdd a b with
  | none => .error (.invalidData "advertisement expiry overflow")
  | some expiry => .ok expiry

def reusable (record : AdvertisementLease) (requiredExpiry : ℕ) (output : AdvertisementOutput)
    (source : Option UpstreamNarSource) : Bool :=
  requiredExpiry ≤ record.retention.expiresAt && record.output = output &&
    source.all fun source => record.source = some source

def planUpdate (policy : LeasePolicy) (store : StoreHash) (purpose : LeasePurpose)
    (existing : Option AdvertisementLease) (source : Option UpstreamNarSource) (now : ℕ) :
    Except StorageError LeaseUpdate := do
  match ← leaseContents E store purpose existing source with
  | none => .ok .skip
  | some (identity, output, source) =>
    let requiredExpiry ← checkedExpiry now policy.lifetimeSeconds
    if existing.any fun record => reusable record requiredExpiry output source then .ok .reuse
    else
      let expiry ← checkedExpiry requiredExpiry (headroom policy.lifetimeSeconds)
      .ok (.write ⟨leaseVersion, identity, .until_ expiry, output, source⟩)

abbrev Program := Faulty Disk StorageError

def sync : Program Unit := operation .io fun disk => .ok ((), disk)

def readLease (store : StoreHash) : Program (Option AdvertisementLease) :=
  observe .io fun disk => readAdvertisementLease disk.records (leaseName store)

def missingPolicy : StorageError := .invalidData "advertisement policy is missing"

/-- The operations of a withdrawal on a disk. The note for the metadata index is in neither of
the two directories. -/
structure WithdrawalOperations (σ : Type) where
  readLease : StoreHash → Faulty σ StorageError (Option AdvertisementLease)
  linkRecord : StoreHash → AdvertisementLease → Faulty σ StorageError Unit
  unlinkRecord : StoreHash → Faulty σ StorageError Unit
  unlinkNarinfo : StoreHash → Faulty σ StorageError Unit
  notePublicationRemoved : Faulty σ StorageError Unit
  syncRecords : Faulty σ StorageError Unit
  syncRoot : Faulty σ StorageError Unit

namespace WithdrawalOperations

variable {σ : Type} (O : WithdrawalOperations σ)

def publishAdvertisementRecord (store : StoreHash) (lease : AdvertisementLease) :
    Faulty σ StorageError Unit := do
  O.linkRecord store lease
  O.syncRecords

def markAdvertisementRemovalPending (leases : Leases) (store : StoreHash) :
    Faulty σ StorageError Unit :=
  match leases with
  | .absent => pure ()
  | .incomplete => stop missingPolicy
  | .active _ => do
    match ← O.readLease store with
    | none => pure ()
    | some record =>
      if record.version ≠ leaseVersion then
        stop (.invalidData "unsupported advertisement lease")
      else
        match record.retention with
        | .removalPending => O.syncRecords
        | .until_ _ =>
          O.publishAdvertisementRecord store { record with retention := .removalPending }

/-- The record stays until the removal of the narinfo is durable. -/
def removeAdvertisementRecord (leases : Leases) (store : StoreHash) : Faulty σ StorageError Unit :=
  match leases with
  | .absent => pure ()
  | .incomplete => stop missingPolicy
  | .active _ => do
    O.syncRoot
    O.unlinkRecord store
    O.syncRecords

/-- The note for the metadata index comes between the mark and the removal. -/
def removeNarinfoWithRetention (leases : Leases) (store : StoreHash) :
    Faulty σ StorageError Unit := do
  O.markAdvertisementRemovalPending leases store
  O.notePublicationRemoved
  O.unlinkNarinfo store
  O.removeAdvertisementRecord leases store

end WithdrawalOperations

def plainOperations : WithdrawalOperations Disk where
  readLease := readLease
  linkRecord store lease := operation .io fun disk =>
    .ok ((), { disk with records := disk.records.insert (leaseName store) (.lease lease) })
  unlinkRecord store := operation .io fun disk =>
    .ok ((), { disk with records := disk.records.erase (leaseName store) })
  unlinkNarinfo store := operation .io fun disk =>
    match disk.narinfos store with
    | none => .error .io
    | some _ => .ok ((), { disk with narinfos := Function.update disk.narinfos store none })
  notePublicationRemoved := sync
  syncRecords := sync
  syncRoot := sync

def publishAdvertisementRecord : StoreHash → AdvertisementLease → Program Unit :=
  plainOperations.publishAdvertisementRecord

def updateAdvertisementLease (leases : Leases) (store : StoreHash) (purpose : LeasePurpose)
    (source : Option UpstreamNarSource) (now : ℕ) : Program Unit :=
  match leases with
  | .absent => pure ()
  | .incomplete => stop missingPolicy
  | .active policy => do
    let existing ← readLease store
    match planUpdate E policy store purpose existing source now with
    | .error error => stop error
    | .ok .skip => pure ()
    | .ok .reuse => sync
    | .ok (.write lease) => publishAdvertisementRecord store lease

end Update

def markAdvertisementRemovalPending : Leases → StoreHash → Program Unit :=
  plainOperations.markAdvertisementRemovalPending

def removeAdvertisementRecord : Leases → StoreHash → Program Unit :=
  plainOperations.removeAdvertisementRecord

def removeNarinfoWithRetention : Leases → StoreHash → Program Unit :=
  plainOperations.removeNarinfoWithRetention

inductive PublishOutcome where
  | created
  | identical
  deriving DecidableEq

def publishNarinfo (store : StoreHash) (bytes : Bytes) : Program PublishOutcome := do
  let outcome ← operation .io fun disk =>
    match disk.narinfos store with
    | none =>
      .ok (.created, { disk with narinfos := Function.update disk.narinfos store (some bytes) })
    | some existing => if existing = bytes then .ok (.identical, disk) else .error .conflict
  sync
  pure outcome

section Narinfos

variable {Key Signature : Type} (E : Externals Key Signature)

def existingNarinfoMatches (expected : NarInfoClaims) (output : NarRepresentation) : Program Bool :=
  observe .io fun disk =>
    .ok ((disk.narinfos expected.store).any fun bytes =>
      expected.matchesExternalPublication E bytes output)

/-- The outcome of putting the narinfo in place, where another text with the same claims and the
same output counts as identical. -/
def publishOrMatch (claims : NarInfoClaims) (output : NarRepresentation) (bytes : Bytes) :
    Program PublishOutcome :=
  handle (publishNarinfo claims.store bytes) pure fun error =>
    if error = .conflict then do
      let found ← existingNarinfoMatches E claims output
      if found = true then pure .identical else stop .conflict
    else stop error

/-- A narinfo that was just created goes again when its retention cannot be recorded. -/
def publishBoundNarinfo (leases : Leases) (claims : NarInfoClaims) (output : NarRepresentation)
    (bytes : Bytes) (source : Option UpstreamNarSource) (now : ℕ) : Program PublishOutcome := do
  let outcome ← publishOrMatch E claims output bytes
  handle
    (updateAdvertisementLease E leases claims.store
      (.publication claims.identity (.fromRepresentation output)) source now)
    (fun _ => do
      sync
      pure outcome)
    fun error =>
      match outcome with
      | .created => do
        removeNarinfoWithRetention leases claims.store
        sync
        stop error
      | .identical => stop error

def openNarinfo (store : StoreHash) : Program (Option Bytes) :=
  observe .io fun disk => .ok (disk.narinfos store)

def readAdvertisedNarinfo (leases : Leases) (store : StoreHash) (now : ℕ) :
    Program (Option Bytes) := do
  match ← openNarinfo store with
  | none => pure none
  | some bytes =>
    if maxNarinfoBytes < bytes.length then stop (.invalidData "record exceeds its size limit")
    else do
      updateAdvertisementLease E leases store (.advertisement bytes) none now
      pure (some bytes)

end Narinfos

inductive NarInfoDeletion where
  | deleted
  | absent
  deriving DecidableEq

def deleteNarinfo (leases : Leases) (store : StoreHash) : Program NarInfoDeletion := do
  match ← openNarinfo store with
  | some _ =>
    removeNarinfoWithRetention leases store
    sync
    pure .deleted
  | none =>
    removeAdvertisementRecord leases store
    pure .absent

structure Recorded where
  publications : StoreHash → Option ℕ
  nars : Finset Digest
  outputs : Finset NarFileName

def Recorded.empty : Recorded := ⟨fun _ => none, ∅, ∅⟩

def Recorded.insert (recorded : Recorded) (store : StoreHash) (lease : AdvertisementLease)
    (now : ℕ) : Recorded :=
  let expiresAt := lease.retention.expiresAt
  let publications := Function.update recorded.publications store (some expiresAt)
  if now < expiresAt then
    ⟨publications, Insert.insert lease.identity.hash recorded.nars,
      Insert.insert (lease.output.fileName lease.identity) recorded.outputs⟩
  else ⟨publications, recorded.nars, recorded.outputs⟩

def recordEntry (now : ℕ) (recorded : Recorded) (entry : Σ _ : Bytes, RecordFile) :
    Except StorageError Recorded :=
  if entry.1 = policyName then .ok recorded
  else
    match leaseStore entry.1, entry.2 with
    | none, _ => .error (.invalidData "invalid advertisement lease filename")
    | some _, .invalid message => .error (.invalidData message)
    | some store, .lease lease =>
      if lease.version ≠ leaseVersion then
        .error (.invalidData "unsupported advertisement lease")
      else .ok (recorded.insert store lease now)

def recordEntries (now : ℕ) (records : AList fun _ : Bytes => RecordFile) :
    Except StorageError Recorded :=
  records.entries.foldlM (recordEntry now) .empty

def advertisementProtection (leases : Leases) (disk : Disk) (now : ℕ) :
    Except StorageError AdvertisementProtection :=
  match leases with
  | .absent => .ok .absent
  | .incomplete => .ok .all
  | .active _ => (recordEntries now disk.records).map fun recorded =>
    .recorded recorded.publications recorded.nars recorded.outputs now

/-- The removals of a collection: it computes the protection and takes away the narinfos it
selected, none of which the protection covers. -/
def collectPublications (leases : Leases) (selected : List StoreHash) (now : ℕ) : Program Unit := do
  let protection ← observe .io fun disk => advertisementProtection leases disk now
  forEach (selected.filter fun store => !protection.protects (.publication store)) fun store => do
    removeNarinfoWithRetention leases store
    sync

/-- The record of the store is counted with its expiry, and its payloads while it is unexpired. -/
def Recorded.Counts (recorded : Recorded) (now : ℕ) (store : StoreHash)
    (lease : AdvertisementLease) : Prop :=
  recorded.publications store = some lease.retention.expiresAt ∧
    (now < lease.retention.expiresAt →
      lease.identity.hash ∈ recorded.nars ∧ lease.output.fileName lease.identity ∈ recorded.outputs)

section Protection

variable {recorded : Recorded} {lease : AdvertisementLease}

theorem Recorded.insert_counts (recorded : Recorded) (now : ℕ) (store : StoreHash)
    (lease : AdvertisementLease) : (recorded.insert store lease now).Counts now store lease := by
  unfold Recorded.insert
  by_cases hl : now < lease.retention.expiresAt
  · simp [Recorded.Counts, hl]
  · simp [Recorded.Counts, hl]

theorem Recorded.publications_insert (recorded : Recorded) (now : ℕ) (store : StoreHash)
    (lease : AdvertisementLease) : (recorded.insert store lease now).publications =
      Function.update recorded.publications store (some lease.retention.expiresAt) := by
  unfold Recorded.insert
  by_cases hl : now < lease.retention.expiresAt
  · simp only [if_pos hl]
  · simp only [if_neg hl]

theorem Recorded.subset_insert (recorded : Recorded) (now : ℕ) (store : StoreHash)
    (lease : AdvertisementLease) : recorded.nars ⊆ (recorded.insert store lease now).nars ∧
      recorded.outputs ⊆ (recorded.insert store lease now).outputs := by
  unfold Recorded.insert
  by_cases hl : now < lease.retention.expiresAt
  · simp only [if_pos hl]
    exact ⟨Finset.subset_insert _ _, Finset.subset_insert _ _⟩
  · simp only [if_neg hl]
    exact ⟨Finset.Subset.refl _, Finset.Subset.refl _⟩

theorem Recorded.Counts.insert_other (h : recorded.Counts now store lease)
    (hne : other ≠ store) (lease' : AdvertisementLease) :
    (recorded.insert other lease' now).Counts now store lease := by
  obtain ⟨hb, hp⟩ := h
  obtain ⟨ha, hu⟩ := recorded.subset_insert now other lease'
  refine ⟨?_, fun he => ?_⟩
  · rw [recorded.publications_insert, Function.update_of_ne (Ne.symm hne)]
    exact hb
  · obtain ⟨hn, ho⟩ := hp he
    exact ⟨ha hn, hu ho⟩

theorem Recorded.Counts.recordEntry (h : recorded.Counts now store lease) (hn : entry.1 ≠ leaseName store)
    (hr : recordEntry now recorded entry = .ok recorded') : recorded'.Counts now store lease := by
  unfold AdvertisementLeases.recordEntry at hr
  split_ifs at hr with hp
  · cases Except.ok.inj hr
    exact h
  · split at hr
    · cases hr
    · cases hr
    · next other lease' hs _ =>
      split_ifs at hr
      cases Except.ok.inj hr
      refine h.insert_other ?_ lease'
      rintro rfl
      exact hn (leaseStore_eq_some hs)

theorem recordEntry_lease (hr : recordEntry now recorded ⟨leaseName store, .lease lease⟩ =
    .ok recorded') : lease.version = leaseVersion ∧ recorded'.Counts now store lease := by
  rw [recordEntry, if_neg (leaseName_ne_policy store)] at hr
  simp only [leaseStore_leaseName] at hr
  split_ifs at hr with hv
  cases Except.ok.inj hr
  exact ⟨not_not.1 hv, recorded.insert_counts now store lease⟩

theorem Recorded.Counts.foldlM (h : recorded.Counts now store lease)
    {entries : List (Σ _ : Bytes, RecordFile)} (hn : leaseName store ∉ entries.keys)
    (hr : entries.foldlM (AdvertisementLeases.recordEntry now) recorded = .ok recorded') :
    recorded'.Counts now store lease := by
  induction entries generalizing recorded with
  | nil =>
    cases Except.ok.inj hr
    exact h
  | cons entry entries ih =>
    rw [List.keys_cons, List.mem_cons, not_or] at hn
    rw [List.foldlM_cons] at hr
    cases he : AdvertisementLeases.recordEntry now recorded entry with
    | error e =>
      rw [he] at hr
      cases hr
    | ok next =>
      rw [he] at hr
      exact ih (h.recordEntry (Ne.symm hn.1) he) hn.2 hr

theorem foldlM_counts {entries : List (Σ _ : Bytes, RecordFile)} (hn : entries.NodupKeys)
    (hm : ⟨leaseName store, .lease lease⟩ ∈ entries)
    (hr : entries.foldlM (recordEntry now) recorded = .ok recorded') :
    recorded'.Counts now store lease := by
  induction entries generalizing recorded with
  | nil => cases hm
  | cons entry entries ih =>
    rw [List.foldlM_cons] at hr
    rw [List.nodupKeys_cons] at hn
    cases he : recordEntry now recorded entry with
    | error e =>
      rw [he] at hr
      cases hr
    | ok next =>
      rw [he] at hr
      rcases List.mem_cons.1 hm with rfl | hl
      · exact (recordEntry_lease he).2.foldlM hn.1 hr
      · exact ih hn.2 hl hr

theorem protection_of_record {policy : LeasePolicy} {disk : Disk}
    {protection : AdvertisementProtection}
    (hr : disk.records.lookup (leaseName store) = some (.lease lease))
    (hu : now < lease.retention.expiresAt)
    (h : advertisementProtection (.active policy) disk now = .ok protection) :
    protection.protects (.publication store) = true ∧
      protection.protects (.canonicalNar lease.identity.hash) = true ∧
      protection.protectsNarName (lease.output.fileName lease.identity) = true := by
  simp only [advertisementProtection] at h
  cases he : recordEntries now disk.records with
  | error e =>
    rw [he] at h
    cases h
  | ok recorded =>
    rw [he] at h
    cases Except.ok.inj h
    have hm := AList.mem_lookup_iff.1 hr
    obtain ⟨hb, hp⟩ := foldlM_counts disk.records.nodupKeys hm he
    obtain ⟨hn, ho⟩ := hp hu
    refine ⟨?_, ?_, ?_⟩
    · simp [AdvertisementProtection.protects, hb, hu]
    · simpa [AdvertisementProtection.protects] using hn
    · simp [AdvertisementProtection.protectsNarName, ho]

end Protection

end AdvertisementLeases
