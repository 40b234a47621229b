import Mathlib.Data.Nat.Digits.Lemmas
import Narjar.PublicationJournal

/-!
# What is published, and under which names

Every kind of published file has a destination and a prefix of its temporary names. The scan of a
store sorts the temporary files by their names and ages, and a cleanup removes those it has found
stale. The journal names both files in records of a bounded size.
-/
namespace PublishTargets

open ByteCodecs NarFormat ManifestFormat ObjectNames TextFields FaultyPrograms PublicationJournal

/-- The records among the advertisements: the policy and the leases. -/
inductive AdvertisementName where
  | policy
  | lease (store : StoreHash)

def AdvertisementName.text : AdvertisementName → Bytes
  | policy => ascii "policy".toList
  | lease store => leaseName store

inductive PublishTarget where
  | cacheInfo
  | nar (name : NarFileName)
  | narInfo (store : StoreHash)
  | ingestionReceipt (encoded : EncodedIdentity)
  | egressReceipt (raw : NarIdentity) (codec : CompressionCodec)
  | repairEgressNar (output : EncodedIdentity)
  | repairCanonicalNar (identity : NarIdentity)
  | advertisementRecord (name : AdvertisementName)
  | advertisementRenewal (store : StoreHash)

def ingestionReceiptName (encoded : EncodedIdentity) : Bytes :=
  encodeNix32 encoded.hash ++ encoded.codec.suffix ++ ascii ".validation".toList

def egressReceiptName (raw : NarIdentity) (codec : CompressionCodec) : Bytes :=
  encodeNix32 raw.hash ++ codec.suffix ++ ascii ".receipt".toList

def PublishTarget.destination : PublishTarget → PublicationDestination
  | advertisementRenewal store =>
    ⟨.advertisement (leaseName store), .root, .renewAdvertisement store,
      ascii "advertisement".toList⟩
  | advertisementRecord name =>
    ⟨.advertisement name.text, .root, .replace, ascii "advertisement".toList⟩
  | cacheInfo => ⟨.root (ascii "nix-cache-info".toList), .root, .link, ascii "cache-info".toList⟩
  | nar name => ⟨.nar name.asStr, .nar, .link, ascii "nar".toList⟩
  | narInfo store =>
    ⟨.root (store.bytes ++ ascii ".narinfo".toList), .root, .link, ascii "narinfo".toList⟩
  | ingestionReceipt encoded =>
    ⟨.ingestionReceipt (ingestionReceiptName encoded), .root, .replace, ascii "receipt".toList⟩
  | egressReceipt raw codec =>
    ⟨.egressReceipt (egressReceiptName raw codec), .root, .replace, ascii "egress-receipt".toList⟩
  | repairEgressNar output =>
    ⟨.nar (NarFileName.mk output.hash (.compressed output.codec)).asStr, .nar, .repair output,
      ascii "nar".toList⟩
  | repairCanonicalNar identity =>
    ⟨.nar (NarFileName.raw identity.hash).asStr, .nar, .repairCanonical identity,
      ascii "nar".toList⟩

def hex16 (n : UInt64) : Bytes :=
  (List.range 16).reverse.map fun k => hexAlphabet.getD (n.toNat / 16 ^ k % 16) 0

def tempName (tempPrefix : Bytes) (process : UInt32) (sequence : UInt64) : Bytes :=
  tempPrefix ++ (45 :: (decimal process.toNat ++ 45 :: hex16 sequence)) ++ ascii ".part".toList

section Reconciliation

def tempPrefixes : List Bytes :=
  [ascii "cache-info-".toList, ascii "nar-".toList, ascii "narinfo-".toList,
    ascii "realisation-".toList, ascii "validation-".toList, ascii "egress-receipt-".toList,
    ascii "advertisement-".toList]

def isBodyByte (byte : UInt8) : Bool :=
  (97 ≤ byte && byte ≤ 122) || (48 ≤ byte && byte ≤ 57) || byte == 45

def validTempFilename (name : Bytes) : Bool :=
  match if validUtf8 name then name.dropSuffix? (ascii ".part".toList) else none with
  | none => false
  | some stem =>
    match tempPrefixes.findSome? stem.dropPrefix? with
    | none => false
    | some body => !body.isEmpty && body.all isBodyByte

inductive ReconcileClass where
  | narObject
  | narInfo
  | realisation
  | tempYoung
  | tempStale
  | invalidFilename
  | unexpectedType
  | unknownFile
  deriving DecidableEq

/-- A file as the scan sees it. Its stamp tells it from every other file and version. -/
structure File (ι : Type) where
  regular : Bool
  modified : ℕ
  identity : ι

inductive TempDirectory where
  | root
  | nar
  | realisations
  deriving DecidableEq

/-- The components of the path of the directory. -/
def TempDirectory.path : TempDirectory → List Bytes
  | root => [ascii ".tmp".toList]
  | nar => [ascii "nar".toList, ascii ".tmp".toList]
  | realisations => [ascii "realisations".toList, ascii ".tmp".toList]

abbrev Directories (ι : Type) := TempDirectory → Bytes → Option (File ι)

structure ReconcileEntry (ι : Type) where
  relativePath : List Bytes
  kind : ReconcileClass
  identity : ι

variable {ι : Type} [DecidableEq ι]

def classifyTempEntry (name : Bytes) (file : File ι) (staleBefore : ℕ) : ReconcileClass :=
  if !file.regular then .unexpectedType
  else if !validTempFilename name then .invalidFilename
  else if file.modified ≤ staleBefore then .tempStale
  else .tempYoung

/-- What the scan records of a file. -/
def scanTemp (directory : TempDirectory) (name : Bytes) (file : File ι) (staleBefore : ℕ) :
    ReconcileEntry ι :=
  ⟨directory.path ++ [name], classifyTempEntry name file staleBefore, file.identity⟩

inductive CleanupOutcome where
  | removed
  | unchanged
  deriving DecidableEq

def tempDirectory? (parent : List Bytes) : Option TempDirectory :=
  [.root, .nar, .realisations].find? fun directory : TempDirectory => directory.path = parent

def cleanupStaleTemp (entry : ReconcileEntry ι) : Faulty (Directories ι) Unit CleanupOutcome :=
  if entry.kind ≠ .tempStale then pure .unchanged
  else
    match tempDirectory? entry.relativePath.dropLast, entry.relativePath.getLast? with
    | some directory, some name => do
      observe () fun _ => .ok ()
      let file ← observe () fun s => .ok (s directory name)
      if file.map File.identity = some entry.identity then do
        operation () fun s => .ok ((), Function.update s directory
          (Function.update (s directory) name none))
        observe () fun _ => .ok ()
        pure .removed
      else pure .unchanged
    | _, _ => pure .unchanged

/-- A cleanup changes nothing, or it removes the file of an entry that was found stale in one of the
directories, and that file has the stamp of the entry. -/
def Guarded (entry : ReconcileEntry ι) (s t : Directories ι) : Prop :=
  t = s ∨ entry.kind = .tempStale ∧ ∃ directory name file,
    entry.relativePath = directory.path ++ [name] ∧ s directory name = some file ∧
      file.identity = entry.identity ∧
      t = Function.update s directory (Function.update (s directory) name none)

theorem cleanup_guarded (entry : ReconcileEntry ι) (s : Directories ι) (faults : List Fault) :
    Guarded entry s (cleanupStaleTemp entry s faults).state := by
  refine Triple.outcome (P := (· = s)) ?_ rfl faults
  have hs : ∀ t : Directories ι, t = s → Guarded entry s t := fun t => .inl
  unfold cleanupStaleTemp
  split_ifs with hk
  · exact .pure hs
  split
  · rename_i directory name hd hn
    have hp : entry.relativePath = directory.path ++ [name] := by
      have hf := List.find?_some hd
      rw [decide_eq_true_eq] at hf
      rw [hf, List.dropLast_append_getLast? name hn]
    refine .bind (Q := fun _ t => t = s) (.observe (fun _ _ h _ => h) (fun t e h _ => hs t h)
      (fun t h => hs t h) fun t h => hs t h) fun _ => ?_
    refine .bind (Q := fun file t => t = s ∧ file = s directory name) (.observe ?_
      (fun t e h _ => hs t h) (fun t h => hs t h) fun t h => hs t h) fun file => ?_
    · rintro t file rfl hf
      cases hf
      exact ⟨rfl, rfl⟩
    split_ifs with hi
    · have hr : ∀ t, t = s ∧ file = s directory name → Guarded entry s
          (Function.update t directory (Function.update (t directory) name none)) := by
        rintro t ⟨rfl, rfl⟩
        obtain ⟨file, hf, he⟩ := Option.map_eq_some_iff.1 hi
        exact .inr ⟨not_not.1 hk, directory, name, file, hp, hf, he, rfl⟩
      refine .bind (Q := fun _ => Guarded entry s) (.operation ?_ (fun t e h _ => hs t h.1)
        (fun t h => hs t h.1) fun t h => hs t h.1) fun _ => ?_
      · intro t _ u h hu
        cases hu
        exact hr t h
      · exact .bind Preserves.observe fun _ => .pure fun _ => id
    · exact .pure fun t h => hs t h.1
  · exact .pure hs

theorem body_all (process : UInt32) (sequence : UInt64) :
    (decimal process.toNat ++ 45 :: hex16 sequence).all isBodyByte = true := by
  have hh : ∀ i < 16, isBodyByte (hexAlphabet.getD i 0) = true := by decide
  rw [List.all_append, List.all_cons, Bool.and_eq_true, Bool.and_eq_true, List.all_eq_true,
    List.all_eq_true]
  refine ⟨fun byte hb => ?_, rfl, fun byte hb => ?_⟩
  · obtain ⟨hl, hu⟩ := decimal_digit hb
    simp [isBodyByte, hl, hu]
  · obtain ⟨k, -, rfl⟩ := List.mem_map.1 hb
    exact hh _ (Nat.mod_lt _ (by decide))

theorem lt_of_isBodyByte (h : isBodyByte byte = true) : byte < 0x80 := by
  simp only [isBodyByte, Bool.or_eq_true, Bool.and_eq_true, decide_eq_true_eq, beq_iff_eq,
    UInt8.le_iff_toNat_le, ← UInt8.toNat_inj, UInt8.lt_iff_toNat_lt] at h ⊢
  simp only [UInt8.reduceToNat] at h ⊢
  omega

theorem findSome_body (target : PublishTarget) (body : Bytes) :
    tempPrefixes.findSome? (target.destination.tempPrefix ++ 45 :: body).dropPrefix? =
      match target with
      | .ingestionReceipt _ => none
      | _ => some body := by
  cases target <;> cases body <;> rfl

theorem stem_all (target : PublishTarget) (process : UInt32) (sequence : UInt64) :
    (target.destination.tempPrefix ++ 45 :: (decimal process.toNat ++ 45 :: hex16 sequence)).all
      isBodyByte = true := by
  rw [List.all_append, List.all_cons, body_all]
  cases target <;> rfl

theorem validTempFilename_tempName (target : PublishTarget) (process : UInt32) (sequence : UInt64) :
    validTempFilename (tempName target.destination.tempPrefix process sequence) =
      match target with
      | .ingestionReceipt _ => false
      | _ => true := by
  have hu : validUtf8 (tempName target.destination.tempPrefix process sequence) = true := by
    refine validUtf8_ascii fun byte hb => ?_
    rcases List.mem_append.1 hb with hb | hb
    · exact lt_of_isBodyByte (List.all_eq_true.1 (stem_all target process sequence) byte hb)
    · have hp : (ascii ".part".toList).all (· < 0x80) = true := by decide
      exact of_decide_eq_true (List.all_eq_true.1 hp byte hb)
  have hb := body_all process sequence
  rw [validTempFilename, if_pos hu, tempName, dropSuffix?_append]
  simp only [findSome_body]
  cases target with
  | ingestionReceipt => rfl
  | _ => simp [hb]

def TempDirectory.of : TemporaryDirectory → TempDirectory
  | .root => root
  | .nar => nar

/-- A temporary file of the target is found young or stale by its age, and a stale one that is
still there is removed. -/
def Recognised (ι : Type) [DecidableEq ι] (target : PublishTarget) (process : UInt32)
    (sequence : UInt64) : Prop :=
  let name := tempName target.destination.tempPrefix process sequence
  let directory := TempDirectory.of target.destination.temporaryDirectory
  ∀ (file : File ι) (staleBefore : ℕ), file.regular = true →
    classifyTempEntry name file staleBefore =
      (if file.modified ≤ staleBefore then .tempStale else .tempYoung) ∧
    ∀ s : Directories ι, s directory name = some file → file.modified ≤ staleBefore →
      (cleanupStaleTemp (scanTemp directory name file staleBefore) s []).exit = .done .removed ∧
      (cleanupStaleTemp (scanTemp directory name file staleBefore) s []).state directory name = none

theorem tempDirectory?_path (directory : TempDirectory) :
    tempDirectory? directory.path = some directory := by
  cases directory <;> decide

theorem cleanup_removes (entry : ReconcileEntry ι) {s : Directories ι} {directory : TempDirectory}
    {name : Bytes} (hk : entry.kind = .tempStale) (hp : entry.relativePath = directory.path ++ [name])
    (hs : (s directory name).map File.identity = some entry.identity) :
    cleanupStaleTemp entry s [] = ⟨.done .removed,
      Function.update s directory (Function.update (s directory) name none), []⟩ := by
  unfold cleanupStaleTemp
  rw [if_neg (not_not.2 hk), hp, List.dropLast_concat, List.getLast?_concat, tempDirectory?_path]
  change (if (s directory name).map File.identity = some entry.identity then _ else _ :
    Faulty (Directories ι) Unit CleanupOutcome) s [] = _
  rw [if_pos hs]
  rfl

/-- The temporary files of every target but the receipts of ingestions are recognised, and a
cleanup removes nothing but what was found stale and is unchanged. -/
theorem temporaries_recognised_iff [Inhabited ι] (target : PublishTarget) (process : UInt32)
    (sequence : UInt64) :
    (Recognised ι target process sequence ∧ ∀ (entry : ReconcileEntry ι) s faults,
      Guarded entry s (cleanupStaleTemp entry s faults).state) ↔
    ∀ encoded, target ≠ .ingestionReceipt encoded := by
  have hv := validTempFilename_tempName target process sequence
  constructor
  · rintro ⟨h, -⟩ encoded rfl
    have hc := (h ⟨true, 0, default⟩ 0 rfl).1
    rw [classifyTempEntry, hv] at hc
    cases hc
  · intro ht
    have hv : validTempFilename (tempName target.destination.tempPrefix process sequence) = true := by
      rw [hv]
      cases target with
      | ingestionReceipt encoded => exact absurd rfl (ht encoded)
      | _ => rfl
    refine ⟨fun file staleBefore hr => ?_, cleanup_guarded⟩
    have hc : classifyTempEntry (tempName target.destination.tempPrefix process sequence) file
        staleBefore = if file.modified ≤ staleBefore then .tempStale else .tempYoung := by
      rw [classifyTempEntry, hr, hv]
      rfl
    refine ⟨hc, fun s hs hm => ?_⟩
    rw [if_pos hm] at hc
    rw [cleanup_removes (scanTemp _ _ file staleBefore) hc rfl (by rw [hs]; rfl)]
    exact ⟨rfl, by simp⟩

def sampleReceipt : PublishTarget := .ingestionReceipt ⟨.xz, .ofNat 0, 0⟩

/-- The temporary file of a receipt is taken for a file of another kind, and a cleanup leaves it. -/
theorem receipt_not_recognised :
    let name := tempName sampleReceipt.destination.tempPrefix 1 0
    let entry := scanTemp .root name (⟨true, 0, ()⟩ : File Unit) 1
    name = ascii "receipt-1-0000000000000000.part".toList ∧ entry.kind = .invalidFilename ∧
      (cleanupStaleTemp entry (fun _ _ => some ⟨true, 0, ()⟩) []).exit = .done .unchanged := by
  decide +kernel

end Reconciliation

section Records

def relativePath : StorePath → Bytes
  | .root name => name
  | .nar name => ascii "nar/".toList ++ name
  | .ingestionReceipt name => ascii ".narjar-ingress/".toList ++ name
  | .egressReceipt name => ascii ".narjar-egress/".toList ++ name
  | .advertisement name => ascii ".narjar-advertisements/".toList ++ name

end Records

end PublishTargets
