import Mathlib.Data.Finset.Image
import Mathlib.Data.Fintype.Basic
import Mathlib.Data.List.FinRange
import Mathlib.Data.List.Sort
import Narjar.CollectionCoordinator
import Narjar.DirectoryDurability
import Narjar.WorklistSearch

/-!
# Collection of a flat store

A pass over a store that keeps every payload in one file: it scans the publications, protects
what the roots and the recent advertisements reach, selects candidates under the retention
policy and deletes them. Instants of the wall clock are nanoseconds since the epoch. File sizes
and their sums are natural numbers. What a deletion does to the disk is a list of effects that
are executed in order until one of them fails.
-/
namespace FlatCollection

open ByteCodecs NarFormat ManifestFormat ObjectNames CollectionCoordinator WorklistSearch

def text (bytes : Bytes) : String := String.ofList (bytes.map fun byte => Char.ofNat byte.toNat)

/-- What the collection reads from a narinfo. The validation of a narinfo compares the store
hash of its file name with the one of its store path. -/
structure Publication where
  storePath : NixStorePath
  references : List Bytes
  narinfoBytes : ℕ
  modified : ℕ
  deriving DecidableEq

namespace Publication

def store (p : Publication) : StoreHash := p.storePath.store

def narinfoName (p : Publication) : Bytes :=
  p.store.bytes ++ ascii ['.', 'n', 'a', 'r', 'i', 'n', 'f', 'o']

end Publication

structure TrustedGcPublication extends Publication where
  representation : NarRepresentation
  deriving DecidableEq

def TrustedGcPublication.canonicalRawName (p : TrustedGcPublication) : NarFileName :=
  .raw p.representation.identity.hash

structure RegularFile where
  bytes : ℕ
  modified : ℕ
  deriving DecidableEq

inductive DirectoryEntry where
  | regular (file : RegularFile)
  | other
  deriving DecidableEq

inductive AccessKey where
  | publication (store : StoreHash)
  | payload (name : NarFileName)
  deriving DecidableEq

/-- The store as the directories list it: the narinfo files with what their validation gives,
the entries of the NAR directory whose names are NAR file names, and the access records. -/
structure FlatStore where
  narinfos : List (Except StorageError TrustedGcPublication)
  distinct : (narinfos.filterMap fun narinfo =>
    narinfo.toOption.map fun p => p.store).Nodup
  nars : List (NarFileName × DirectoryEntry)
  accessTime : AccessKey → Option ℕ

structure Entry extends Publication where
  lastUse : ℕ
  narName : NarFileName
  narBytes : ℕ
  rawNarName : NarFileName
  rawNarBytes : ℕ
  protected_ : Bool
  deriving DecidableEq

structure Orphan where
  name : NarFileName
  bytes : ℕ
  modified : ℕ
  deriving DecidableEq

def invalid (message : String) : StorageError := .other message

def scanEntry (store : FlatStore) (p : TrustedGcPublication) : Except StorageError Entry := do
  let narName := p.representation.fileName
  let nar ← match store.nars.lookup narName with
    | some (.regular file) => .ok file
    | some .other => .error (invalid "not a regular file")
    | none => .error (invalid ("missing NAR for narinfo: " ++ text p.narinfoName))
  if nar.bytes ≠ p.representation.encodedSize then
    .error (invalid ("NAR size mismatch for narinfo: " ++ text p.narinfoName))
  else
    let (rawNarName, rawNarBytes) ← match store.nars.lookup p.canonicalRawName with
      | some (.regular file) => .ok (p.canonicalRawName, file.bytes)
      | some .other => .error (invalid "not a regular file")
      | none => .ok (narName, nar.bytes)
    .ok { p.toPublication with
      lastUse := p.modified
      narName := narName
      narBytes := nar.bytes
      rawNarName := rawNarName
      rawNarBytes := rawNarBytes
      protected_ := false }

def scan (store : FlatStore) : Except StorageError (List Entry) :=
  store.narinfos.mapM fun narinfo => do scanEntry store (← narinfo)

def scanOrphans (store : FlatStore) (entries : List Entry) : List Orphan :=
  let referenced := entries.flatMap fun entry => [entry.narName, entry.rawNarName]
  store.nars.filterMap fun (name, file) =>
    match file with
    | .other => none
    | .regular file => if name ∈ referenced then none else some ⟨name, file.bytes, file.modified⟩

def payloadNames (entry : Entry) : List NarFileName :=
  entry.narName :: if entry.rawNarName ≠ entry.narName then [entry.rawNarName] else []

inductive AdvertisementProtection where
  | absent
  | all
  | recorded (publications : StoreHash → Option ℕ) (nars : Finset Digest)
      (outputs : Finset NarFileName) (now : ℕ)

namespace AdvertisementProtection

def protects : AdvertisementProtection → ProtectedObject → Bool
  | absent, _ => false
  | all, _ => true
  | recorded publications _ _ now, .publication store =>
    match publications store with
    | none => true
    | some expiry => now < expiry
  | recorded _ nars _ _, .canonicalNar hash => hash ∈ nars

def protectsNarName : AdvertisementProtection → NarFileName → Bool
  | absent, _ => false
  | all, _ => true
  | recorded _ nars outputs _, name =>
    name ∈ outputs || name.rawHash.any fun hash => hash ∈ nars

end AdvertisementProtection

def containsNarName (selection : ObjectSelection) (name : NarFileName) : Bool :=
  match selection with
  | .all => true
  | .objects members => name.rawHash.any fun hash => .canonicalNar hash ∈ members

inductive CollectionAccess where
  | offline (durable : AdvertisementProtection)
  | online (snapshot : CollectionSnapshot) (durable : AdvertisementProtection)

namespace CollectionAccess

def protects : CollectionAccess → ProtectedObject → Bool
  | offline durable, object => durable.protects object
  | online snapshot durable, object =>
    durable.protects object || decide (snapshot.protection.Contains object)

def protectsNarName : CollectionAccess → NarFileName → Bool
  | offline durable, name => durable.protectsNarName name
  | online snapshot durable, name =>
    durable.protectsNarName name || containsNarName snapshot.protection name

end CollectionAccess

def protectAdvertised (access : CollectionAccess) (entry : Entry) : Entry :=
  { entry with
    protected_ := entry.protected_ ||
      (access.protects (.publication entry.store) || access.protectsNarName entry.rawNarName) }

structure ProtectionNode where
  store : StoreHash
  storePath : Bytes
  references : List Bytes
  protected_ : Bool

structure ProtectionReport where
  protected_ : ℕ
  missingRoots : ℕ
  missingReferences : ℕ

section Protect

variable {n : ℕ} (nodes : Fin n → ProtectionNode)

/-- A path and a store hash lead to the first node that has them. -/
def keyIndex : List (Bytes × Fin n) :=
  (List.finRange n).flatMap fun i => [((nodes i).storePath, i), ((nodes i).store.bytes, i)]

def protectionGraph : KeyGraph Bytes (Fin n) where
  nodes := Finset.univ
  find := fun key => (keyIndex nodes).lookup key
  next := fun i => (nodes i).references
  next_eq_nil := fun i h => absurd (Finset.mem_univ i) h

/-- The roots and the paths of the protected nodes, the last one on top. -/
def protectionRoots (roots : List Bytes) : List Bytes :=
  (roots ++ ((List.finRange n).filter fun i => (nodes i).protected_).map
    fun i => (nodes i).storePath).reverse

def protect (roots : List Bytes) : (Fin n → Bool) × ProtectionReport :=
  let search := (protectionGraph nodes).close (protectionRoots nodes roots)
  let flags := fun i => (nodes i).protected_ || decide (i ∈ search.visited)
  (flags,
    { protected_ := ((List.finRange n).filter flags).length
      missingRoots := (search.missing.filter (· ∈ roots)).card
      missingReferences := (search.missing.filter (· ∉ roots)).card })

end Protect

def Entry.node (entry : Entry) : ProtectionNode :=
  ⟨entry.store, entry.storePath.asStr, entry.references, entry.protected_⟩

inductive EvictionOrder where
  | publication
  | lastUse
  deriving DecidableEq

structure RetentionOptions where
  evictionOrder : EvictionOrder
  maxDeletions : Option ℕ

def RetentionOptions.remainingDeletions (options : RetentionOptions) (selected : ℕ) : ℕ :=
  match options.maxDeletions with
  | none => u64Max
  | some limit => limit - selected

inductive CollectionReason where
  | maximumAge
  | sizePressure
  deriving DecidableEq

def CollectionReason.rank : CollectionReason → ℕ
  | maximumAge => 0
  | sizePressure => 1

structure RetentionPolicy where
  budget : RetentionOptions
  pressureTarget : Option ℕ
  maxAge : Option ℕ
  minAge : ℕ
  now : ℕ

namespace RetentionPolicy

def reason (policy : RetentionPolicy) (modified : ℕ) (protected_ : Bool) (remainingBytes : ℕ) :
    Option CollectionReason :=
  let age := policy.now - modified
  if protected_ ∨ age < policy.minAge then none
  else if policy.maxAge.any fun maxAge => maxAge ≤ age then some .maximumAge
  else if policy.pressureTarget.any fun target => target < remainingBytes then some .sizePressure
  else none

def evictionKey (policy : RetentionPolicy) (modified lastUse : ℕ) : CollectionReason × ℕ :=
  match policy.reason modified false 0 with
  | some .maximumAge => (.maximumAge, modified)
  | some .sizePressure | none =>
    (.sizePressure, match policy.budget.evictionOrder with
      | .publication => modified
      | .lastUse => lastUse)

end RetentionPolicy

def pressureTarget (currentBytes : ℕ) (targetBytes maxBytes : Option ℕ) : Option ℕ :=
  match targetBytes with
  | none => none
  | some target => if maxBytes.getD target < currentBytes then some target else none

inductive FlatCandidate (n m : ℕ) where
  | publication (index : Fin n)
  | orphan (index : Fin m)
  deriving DecidableEq

structure FlatSelection (n m : ℕ) where
  publications : List (Fin n)
  orphans : List (Fin m)

abbrev Counts := NarFileName → ℕ

def recordPayloadSizes (sizes : NarFileName → Option ℕ) (entry : Entry) : NarFileName → Option ℕ :=
  let orInsert (sizes : NarFileName → Option ℕ) (name : NarFileName) (bytes : ℕ) :=
    Function.update sizes name (some ((sizes name).getD bytes))
  let sizes := orInsert sizes entry.narName entry.narBytes
  if entry.rawNarName ≠ entry.narName then orInsert sizes entry.rawNarName entry.rawNarBytes
  else sizes

section Select

variable {n m : ℕ} (entries : Fin n → Entry) (orphans : Fin m → Orphan)

def payloadSizes : NarFileName → Option ℕ :=
  (List.finRange n).foldl (fun sizes i => recordPayloadSizes sizes (entries i)) fun _ => none

def referenceCounts : Counts :=
  (List.finRange n).foldl
    (fun counts i => (payloadNames (entries i)).foldl
      (fun counts name => Function.update counts name (counts name + 1)) counts)
    fun _ => 0

/-- The narinfo files and every payload once. -/
def totalBytes : ℕ :=
  ((List.finRange n).map fun i => (entries i).narinfoBytes).sum +
    (((List.finRange n).flatMap fun i => payloadNames (entries i)).dedup.map
      fun name => (payloadSizes entries name).getD 0).sum

def orphanBytes : ℕ := ((List.finRange m).map fun i => (orphans i).bytes).sum

namespace FlatCandidate

def modified : FlatCandidate n m → ℕ
  | publication i => (entries i).modified
  | orphan i => (orphans i).modified

def name : FlatCandidate n m → Bytes
  | publication i => (entries i).narinfoName
  | orphan i => (orphans i).name.asStr

def protected_ (protectsOrphan : Orphan → Bool) : FlatCandidate n m → Bool
  | publication i => (entries i).protected_
  | orphan i => protectsOrphan (orphans i)

def lastUse (orphanLastUse : Orphan → ℕ) : FlatCandidate n m → ℕ
  | publication i => (entries i).lastUse
  | orphan i => orphanLastUse (orphans i)

/-- The order of eviction: by reason, instant and name. -/
def Precedes (policy : RetentionPolicy) (orphanLastUse : Orphan → ℕ) (a b : FlatCandidate n m) :
    Prop :=
  let keyOf (c : FlatCandidate n m) := policy.evictionKey (c.modified entries orphans)
    (c.lastUse entries orphans orphanLastUse)
  (keyOf a).1.rank < (keyOf b).1.rank ∨
    (keyOf a).1.rank = (keyOf b).1.rank ∧
      ((keyOf a).2 < (keyOf b).2 ∨
        (keyOf a).2 = (keyOf b).2 ∧ a.name entries orphans ≤ b.name entries orphans)

instance (policy : RetentionPolicy) (orphanLastUse : Orphan → ℕ) :
    DecidableRel (Precedes entries orphans policy orphanLastUse) := fun _ _ =>
  inferInstanceAs (Decidable (_ ∨ _))

end FlatCandidate

/-- The bytes a deleted publication frees, and the counts it leaves. -/
def removePublicationBytes (sizes : NarFileName → Option ℕ) (entry : Entry) (counts : Counts) :
    ℕ × Counts :=
  (payloadNames entry).foldl
    (fun (bytes, counts) name =>
      let count := counts name - 1
      (saturatingAdd bytes (if count = 0 then (sizes name).getD 0 else 0),
        Function.update counts name count))
    (entry.narinfoBytes, counts)

/-- Candidates in order, as long as there is still a reason to delete them. -/
def evict (policy : RetentionPolicy) :
    List (FlatCandidate n m) → ℕ → Counts → List (FlatCandidate n m)
  | [], _, _ => []
  | candidate :: rest, remaining, counts =>
    match policy.reason (candidate.modified entries orphans) false remaining with
    | none => evict policy rest remaining counts
    | some _ =>
      let (removed, counts) := match candidate with
        | .publication i => removePublicationBytes (payloadSizes entries) (entries i) counts
        | .orphan i => ((orphans i).bytes, counts)
      candidate :: evict policy rest (remaining - removed) counts

def selectFlatCandidates (currentBytes : ℕ) (policy : RetentionPolicy)
    (protectsOrphan : Orphan → Bool) (orphanLastUse : Orphan → ℕ) : FlatSelection n m :=
  let candidates := (List.finRange n).map FlatCandidate.publication ++
    (List.finRange m).map FlatCandidate.orphan
  let eligible := candidates.filter fun candidate =>
    (policy.reason (candidate.modified entries orphans)
      (candidate.protected_ entries orphans protectsOrphan) currentBytes).isSome
  let order := eligible.insertionSort (FlatCandidate.Precedes entries orphans policy orphanLastUse)
  let chosen := (evict entries orphans policy order currentBytes (referenceCounts entries)).take
    (policy.budget.remainingDeletions 0)
  { publications := chosen.filterMap fun
      | .publication i => some i
      | .orphan _ => none
    orphans := chosen.filterMap fun
      | .publication _ => none
      | .orphan i => some i }

end Select

section Retiring

variable {n m : ℕ} (entries : Fin n → Entry) (orphans : Fin m → Orphan)

/-- Paths and store hashes with the store they stand for; the last one wins. -/
def aliases : List (Bytes × StoreHash) :=
  ((List.finRange n).flatMap fun i =>
    [((entries i).storePath.asStr, (entries i).store),
      ((entries i).store.bytes, (entries i).store)]).reverse

def dependents (store : StoreHash) : List StoreHash :=
  (List.finRange n).flatMap fun i =>
    (((entries i).references.filterMap fun reference => (aliases entries).lookup reference).filter
      (· = store)).map fun _ => (entries i).store

theorem dependents_eq_nil (store : StoreHash)
    (h : store ∉ Finset.univ.image fun i => (entries i).store) : dependents entries store = [] := by
  rw [dependents, List.flatMap_eq_nil_iff]
  intro i _
  rw [List.map_eq_nil_iff, List.filter_eq_nil_iff]
  intro target ha
  obtain ⟨reference, -, hl⟩ := List.mem_filterMap.1 ha
  rw [decide_eq_true_eq]
  intro heq
  apply h
  obtain ⟨before, after, hs, -⟩ := List.lookup_eq_some_iff.1 hl
  have hm : (reference, target) ∈ aliases entries := by
    rw [hs]
    exact List.mem_append_right _ List.mem_cons_self
  rw [aliases, List.mem_reverse, List.mem_flatMap] at hm
  obtain ⟨j, -, hj⟩ := hm
  have ht : target = (entries j).store := by
    rcases List.mem_cons.1 hj with hp | hh
    · exact (Prod.mk.inj hp).2
    · exact (Prod.mk.inj (List.mem_singleton.1 hh)).2
  exact Finset.mem_image.2 ⟨j, Finset.mem_univ j, ht.symm.trans heq⟩

def dependentsGraph : KeyGraph StoreHash StoreHash where
  nodes := Finset.univ.image fun i => (entries i).store
  find := some
  next := dependents entries
  next_eq_nil := dependents_eq_nil entries

def retiringPublications (selected : List StoreHash) : Finset ProtectedObject :=
  ((dependentsGraph entries).close selected.reverse).visited.image ProtectedObject.publication

def retiringFlatObjects (selection : FlatSelection n m) : Finset ProtectedObject :=
  let retained := ((List.finRange n).filter (· ∉ selection.publications)).flatMap
    fun i => payloadNames (entries i)
  let names := ((List.finRange n).filter (· ∈ selection.publications)).flatMap
      (fun i => payloadNames (entries i)) ++ selection.orphans.map fun i => (orphans i).name
  retiringPublications entries (selection.publications.map fun i => (entries i).store) ∪
    (((names.filter (· ∉ retained)).filterMap NarFileName.rawHash).map
      ProtectedObject.canonicalNar).toFinset

end Retiring

inductive AdvertisementLeases where
  | absent
  | incomplete
  | active
  deriving DecidableEq

inductive Effect where
  | refuse
  | markRemovalPending (store : StoreHash)
  | notePublicationRemoved (store : StoreHash)
  | unlinkNarinfo (store : StoreHash)
  | syncRoot
  | unlinkLease (store : StoreHash)
  | syncLeases
  | unlinkNar (name : NarFileName)
  | syncNars
  deriving DecidableEq

def markAdvertisementRemovalPending (leases : AdvertisementLeases) (store : StoreHash) :
    List Effect :=
  match leases with
  | .absent => []
  | .incomplete => [.refuse]
  | .active => [.markRemovalPending store]

/-- The pending lease is kept until the removal of the narinfo is durable. -/
def removeAdvertisementRecord (leases : AdvertisementLeases) (store : StoreHash) : List Effect :=
  match leases with
  | .absent => []
  | .incomplete => [.refuse]
  | .active => [.syncRoot, .unlinkLease store, .syncLeases]

def removeNarinfoWithRetentionAndUnlink (leases : AdvertisementLeases) (store : StoreHash) :
    List Effect :=
  markAdvertisementRemovalPending leases store ++
    (.notePublicationRemoved store :: .unlinkNarinfo store :: removeAdvertisementRecord leases store)

/-- Count one reference less for each payload, and list the payloads that lost their last. -/
def releasePayloads : List NarFileName → Counts → List NarFileName × Counts
  | [], counts => ([], counts)
  | name :: rest, counts =>
    let count := counts name - 1
    let (unlinked, counts) := releasePayloads rest (Function.update counts name count)
    (if count = 0 then name :: unlinked else unlinked, counts)

def applyEntries (leases : AdvertisementLeases) : List Entry → Counts → List Effect
  | [], _ => []
  | entry :: rest, counts =>
    let (unlinked, counts) := releasePayloads (payloadNames entry) counts
    removeNarinfoWithRetentionAndUnlink leases entry.store ++
      (.syncRoot :: unlinked.map Effect.unlinkNar ++
        ((if unlinked = [] then [] else [.syncNars]) ++ applyEntries leases rest counts))

def applyWithCheckpoint {n : ℕ} (leases : AdvertisementLeases) (entries : Fin n → Entry)
    (selected : List (Fin n)) : List Effect :=
  applyEntries leases (selected.map entries) (referenceCounts entries)

def applyOrphans {m : ℕ} (orphans : Fin m → Orphan) (selected : List (Fin m)) : List Effect :=
  selected.map (fun i => .unlinkNar (orphans i).name) ++ if selected = [] then [] else [.syncNars]

inductive GcMode where
  | dryRun
  | apply
  deriving DecidableEq

structure GcOptions where
  retention : RetentionOptions
  maxBytes : Option ℕ
  maxAge : Option ℕ
  minAge : ℕ
  protectedRoots : List Bytes
  mode : GcMode

def lastUseOf (store : FlatStore) (keys : List AccessKey) (modified : ℕ) : ℕ :=
  max ((keys.filterMap store.accessTime).max?.getD modified) modified

def updateFlatLastUse (store : FlatStore) (entry : Entry) : Entry :=
  { entry with
    lastUse := lastUseOf store
      (.publication entry.store :: (payloadNames entry).map AccessKey.payload) entry.modified }

def advertisedEntries {n : ℕ} (options : GcOptions) (store : FlatStore) (access : CollectionAccess)
    (scanned : Fin n → Entry) (i : Fin n) : Entry :=
  protectAdvertised access <| match options.retention.evictionOrder with
    | .publication => scanned i
    | .lastUse => updateFlatLastUse store (scanned i)

def protectEntries {n : ℕ} (options : GcOptions) (store : FlatStore) (access : CollectionAccess)
    (scanned : Fin n → Entry) : Fin n → Entry :=
  let entries := advertisedEntries options store access scanned
  let flags := (protect (fun i => (entries i).node) options.protectedRoots).1
  fun i => { entries i with protected_ := flags i }

structure FlatPlan where
  scanned : List Entry
  orphans : List Orphan
  entries : Fin scanned.length → Entry
  selection : FlatSelection scanned.length orphans.length
  retiring : Finset ProtectedObject
  effects : List Effect

/-- The pass up to the request to delete, and what it does once that is granted. -/
def runFlatGc (options : GcOptions) (targetBytes : Option ℕ) (now : ℕ) (store : FlatStore)
    (leases : AdvertisementLeases) (access : CollectionAccess) : Except StorageError FlatPlan := do
  let scanned ← scan store
  let entries := protectEntries options store access scanned.get
  let orphans := scanOrphans store scanned
  let beforeBytes := totalBytes entries + orphanBytes orphans.get
  let policy : RetentionPolicy :=
    ⟨options.retention, pressureTarget beforeBytes targetBytes options.maxBytes, options.maxAge,
      options.minAge, now⟩
  let selection := selectFlatCandidates entries orphans.get beforeBytes policy
    (fun orphan => access.protectsNarName orphan.name)
    (fun orphan => lastUseOf store [.payload orphan.name] orphan.modified)
  .ok
    { scanned, orphans, entries, selection
      retiring := match options.mode with
        | .apply => retiringFlatObjects entries orphans.get selection
        | .dryRun => ∅
      effects := match options.mode with
        | .apply => applyWithCheckpoint leases entries selection.publications ++
            applyOrphans orphans.get selection.orphans
        | .dryRun => [] }

end FlatCollection
