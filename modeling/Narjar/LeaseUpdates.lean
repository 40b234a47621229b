import Narjar.AdvertisementLeases
import Narjar.LabelledRuns

/-!
# Updates of a retention record

What an update decides, what it does to the record, and what a sequence of updates does to a
promise. An update that changes neither the output nor the source never shortens a promise. A
record with another output or source is written anew from the time of the update, so that a
lifetime that shrank in between shortens the promise, and the former output is no longer kept.
-/
namespace AdvertisementLeases

open ByteCodecs NarFormat ManifestFormat ObjectNames NarInfo FaultyPrograms LabelledRuns
open FlatCollection (AdvertisementProtection)

variable {Key Signature : Type} {E : Externals Key Signature}
variable {policy : LeasePolicy} {store : StoreHash} {purpose : LeasePurpose}
variable {existing : Option AdvertisementLease} {source : Option UpstreamNarSource} {now : ℕ}

def freshExpiry (policy : LeasePolicy) (now : ℕ) : ℕ :=
  now + policy.lifetimeSeconds + headroom policy.lifetimeSeconds

theorem headroom_mono (h : a ≤ b) : headroom a ≤ headroom b := by
  unfold headroom
  have hd : (a + 9) / 10 ≤ (b + 9) / 10 := Nat.div_le_div_right (Nat.add_le_add_right h 9)
  omega

theorem le_freshExpiry (policy : LeasePolicy) (now : ℕ) :
    now + policy.lifetimeSeconds ≤ freshExpiry policy now := Nat.le_add_right _ _

theorem checkedExpiry_eq_ok : checkedExpiry a b = .ok c ↔ a + b ≤ u64Max ∧ c = a + b := by
  unfold checkedExpiry
  rw [← checkedAdd_eq_some]
  cases checkedAdd a b with
  | none => simp
  | some value =>
    simp only [Except.ok.injEq, Option.some.injEq]

inductive ContentsFrom (E : Externals Key Signature) (store : StoreHash)
    (source : Option UpstreamNarSource) : LeasePurpose → Option AdvertisementLease →
    NarIdentity × AdvertisementOutput × Option UpstreamNarSource → Prop
  | created (identity : NarIdentity) (output : AdvertisementOutput) :
    ContentsFrom E store source (.publication identity output) none (identity, output, source)
  | republished (output : AdvertisementOutput) (record : AdvertisementLease) (expiry : ℕ)
    (h : record.retention = .until_ expiry) :
    ContentsFrom E store source (.publication record.identity output) (some record)
      (record.identity, output, source.or record.source)
  | replaced (identity : NarIdentity) (output : AdvertisementOutput) (record : AdvertisementLease)
    (h : record.retention = .removalPending) :
    ContentsFrom E store source (.publication identity output) (some record)
      (identity, output, source)
  | renewed (metadata : Bytes) (record : AdvertisementLease) (expiry : ℕ)
    (h : record.retention = .until_ expiry) :
    ContentsFrom E store source (.advertisement metadata) (some record)
      (record.identity, record.output, record.source)
  | restored (metadata : Bytes) (record : AdvertisementLease) (claims : NarInfoClaims)
    (output : NarRepresentation) (h : record.retention = .removalPending)
    (hparse : NarInfoClaims.parseExternalPublication E store metadata = some (claims, output)) :
    ContentsFrom E store source (.advertisement metadata) (some record)
      (claims.identity, .fromRepresentation output, record.source)

theorem leaseContents_cases
    (h : leaseContents E store purpose existing source = .ok contents) :
    (contents = none ∧ existing = none ∧ ∃ metadata, purpose = .advertisement metadata) ∨
      ∃ value, contents = some value ∧ ContentsFrom E store source purpose existing value := by
  unfold leaseContents at h
  cases existing with
  | none =>
    cases purpose with
    | publication identity output =>
      cases Except.ok.inj h
      exact .inr ⟨_, rfl, .created identity output⟩
    | advertisement metadata =>
      cases Except.ok.inj h
      exact .inl ⟨rfl, rfl, metadata, rfl⟩
  | some record =>
    right
    simp only at h
    split_ifs at h
    cases hr : record.retention with
    | until_ expiry =>
      cases purpose with
      | publication identity output =>
        simp only [hr] at h
        split_ifs at h with hi
        cases Except.ok.inj h
        obtain rfl := not_not.1 hi
        exact ⟨_, rfl, .republished output record expiry hr⟩
      | advertisement metadata =>
        simp only [hr] at h
        cases Except.ok.inj h
        exact ⟨_, rfl, .renewed metadata record expiry hr⟩
    | removalPending =>
      cases purpose with
      | publication identity output =>
        simp only [hr] at h
        cases Except.ok.inj h
        exact ⟨_, rfl, .replaced identity output record hr⟩
      | advertisement metadata =>
        simp only [hr, pendingMetadataIdentityAndOutput] at h
        cases hp : NarInfoClaims.parseExternalPublication E store metadata with
        | none =>
          rw [hp] at h
          cases h
        | some value =>
          obtain ⟨claims, output⟩ := value
          rw [hp] at h
          cases Except.ok.inj h
          exact ⟨_, rfl, .restored metadata record claims output hr hp⟩

inductive Decided (E : Externals Key Signature) (policy : LeasePolicy) (store : StoreHash)
    (purpose : LeasePurpose) (existing : Option AdvertisementLease)
    (source : Option UpstreamNarSource) (now : ℕ) : LeaseUpdate → Prop
  | skip (metadata : Bytes) (hpurpose : purpose = .advertisement metadata)
    (hexisting : existing = none) : Decided E policy store purpose existing source now .skip
  | reuse (identity : NarIdentity) (output : AdvertisementOutput)
    (source' : Option UpstreamNarSource) (record : AdvertisementLease)
    (hexisting : existing = some record)
    (hcontents : ContentsFrom E store source purpose existing (identity, output, source'))
    (hexpiry : now + policy.lifetimeSeconds ≤ record.retention.expiresAt)
    (houtput : record.output = output)
    (hsource : ∀ value, source' = some value → record.source = some value) :
    Decided E policy store purpose existing source now .reuse
  | write (identity : NarIdentity) (output : AdvertisementOutput)
    (source' : Option UpstreamNarSource)
    (hcontents : ContentsFrom E store source purpose existing (identity, output, source'))
    (hstale : ∀ record, existing = some record →
      reusable record (now + policy.lifetimeSeconds) output source' = false) :
    Decided E policy store purpose existing source now
      (.write ⟨leaseVersion, identity, .until_ (freshExpiry policy now), output, source'⟩)

theorem planUpdate_decided
    (h : planUpdate E policy store purpose existing source now = .ok plan) :
    Decided E policy store purpose existing source now plan := by
  unfold planUpdate at h
  cases hc : leaseContents E store purpose existing source with
  | error e =>
    rw [hc] at h
    cases h
  | ok contents =>
    rw [hc] at h
    rcases leaseContents_cases hc with ⟨rfl, he, metadata, hp⟩ | ⟨value, rfl, hf⟩
    · cases Except.ok.inj h
      exact .skip metadata hp he
    · obtain ⟨identity, output, source'⟩ := value
      simp only [bind, Except.bind] at h
      cases hq : checkedExpiry now policy.lifetimeSeconds with
      | error e =>
        rw [hq] at h
        cases h
      | ok required =>
        obtain ⟨-, rfl⟩ := checkedExpiry_eq_ok.1 hq
        rw [hq] at h
        simp only at h
        split_ifs at h with hu
        · cases Except.ok.inj h
          obtain ⟨record, he, hr⟩ := (Option.any_eq_true _ _).1 hu
          simp only [reusable, Bool.and_eq_true, decide_eq_true_eq] at hr
          refine .reuse identity output source' record he hf hr.1.1 hr.1.2 ?_
          intro value hv
          have ha := hr.2
          rw [hv] at ha
          simpa using ha
        · cases hx : checkedExpiry (now + policy.lifetimeSeconds)
              (headroom policy.lifetimeSeconds) with
          | error e =>
            rw [hx] at h
            cases h
          | ok expiry =>
            obtain ⟨-, rfl⟩ := checkedExpiry_eq_ok.1 hx
            rw [hx] at h
            cases Except.ok.inj h
            refine .write identity output source' hf ?_
            rintro record rfl
            simpa using hu

def Disk.withRecord (disk : Disk) (store : StoreHash) (lease : AdvertisementLease) : Disk :=
  { disk with records := disk.records.insert (leaseName store) (.lease lease) }

def Disk.record (disk : Disk) (store : StoreHash) : Option RecordFile :=
  disk.records.lookup (leaseName store)

@[simp] theorem record_withRecord_self (disk : Disk) (store : StoreHash)
    (lease : AdvertisementLease) : (disk.withRecord store lease).record store = some (.lease lease) :=
  AList.lookup_insert _

theorem record_withRecord_of_ne (disk : Disk) (h : other ≠ store)
    (lease : AdvertisementLease) : (disk.withRecord store lease).record other = disk.record other :=
  AList.lookup_insert_ne fun heq => h (leaseName_injective heq)

inductive Reads (disk : Disk) (store : StoreHash) : Option AdvertisementLease → Prop
  | missing (h : disk.record store = none) : Reads disk store none
  | found (record : AdvertisementLease) (h : disk.record store = some (.lease record)) :
    Reads disk store (some record)

theorem reads_of_ok
    (h : readAdvertisementLease disk.records (leaseName store) = .ok existing) :
    Reads disk store existing := by
  unfold readAdvertisementLease at h
  split at h
  · next hn =>
    cases Except.ok.inj h
    exact .missing hn
  · next record hr =>
    cases Except.ok.inj h
    exact .found record hr
  · cases h

theorem Reads.eq_of_record (h : Reads disk store existing)
    (hr : disk.record store = some (.lease record)) : existing = some record := by
  cases h with
  | missing hn =>
    rw [hn] at hr
    cases hr
  | found other ho =>
    rw [ho] at hr
    cases hr
    rfl

/-- An update decides from the record it reads and leaves the disk as it is or with the record
that it decided to write. -/
inductive Updates (E : Externals Key Signature) (policy : LeasePolicy) (store : StoreHash)
    (purpose : LeasePurpose) (source : Option UpstreamNarSource) (now : ℕ) (disk : Disk) :
    Disk → Prop
  | kept (existing : Option AdvertisementLease) (plan : LeaseUpdate)
    (hreads : Reads disk store existing)
    (hdecided : Decided E policy store purpose existing source now plan)
    (hplan : plan = .skip ∨ plan = .reuse) : Updates E policy store purpose source now disk disk
  | written (existing : Option AdvertisementLease) (lease : AdvertisementLease)
    (hreads : Reads disk store existing)
    (hdecided : Decided E policy store purpose existing source now (.write lease)) :
    Updates E policy store purpose source now disk (disk.withRecord store lease)

theorem sync_keeps : Preserves I sync := by
  refine .operation ?_
  intro disk _ disk' hd ha
  cases Except.ok.inj ha
  exact hd

theorem readLease_spec :
    Triple I (readLease store) (fun existing disk => I disk ∧ Reads disk store existing)
      (fun _ => I) I := .observe (fun _ _ hd hr => ⟨hd, reads_of_ok hr⟩) (fun _ _ hd _ => hd)
    (fun _ => id) fun _ => id

theorem publishAdvertisementRecord_spec :
    Triple (· = disk) (publishAdvertisementRecord store lease)
      (fun _ disk' => disk' = disk.withRecord store lease)
      (fun _ disk' => disk' = disk ∨ disk' = disk.withRecord store lease)
      fun disk' => disk' = disk ∨ disk' = disk.withRecord store lease := by
  refine .bind (Q := fun _ disk' => disk' = disk.withRecord store lease) ?_ fun _ => ?_
  · refine .operation ?_ ?_ ?_ ?_
    · rintro _ _ _ rfl ha
      cases Except.ok.inj ha
      rfl
    · rintro _ _ rfl ha
      cases ha
    · rintro _ rfl
      exact .inl rfl
    · rintro _ rfl
      exact .inl rfl
  · exact sync_keeps.relax (fun _ _ => .inr) fun _ => .inr

/-- An update that returns has done what it decided; one that fails has done that or nothing. -/
theorem updateAdvertisementLease_spec :
    Triple (· = disk) (updateAdvertisementLease E (.active policy) store purpose source now)
      (fun _ disk' => Updates E policy store purpose source now disk disk')
      (fun _ disk' => disk' = disk ∨ Updates E policy store purpose source now disk disk')
      fun disk' => disk' = disk ∨ Updates E policy store purpose source now disk disk' := by
  refine .bind (Q := fun existing disk' => disk' = disk ∧ Reads disk' store existing) ?_ ?_
  · exact readLease_spec.relax (fun _ _ => .inl) fun _ => .inl
  · intro existing
    refine .ofState ?_
    rintro _ ⟨rfl, hr⟩
    cases hp : planUpdate E policy store purpose existing source now with
    | error e => exact .stop fun _ => .inl
    | ok plan =>
      have hd := planUpdate_decided hp
      cases plan with
      | skip =>
        refine .pure ?_
        rintro _ rfl
        exact .kept existing .skip hr hd (.inl rfl)
      | reuse =>
        refine sync_keeps.consequence (fun _ => id) ?_ (fun _ _ => .inl) fun _ => .inl
        rintro _ _ rfl
        exact .kept existing .reuse hr hd (.inr rfl)
      | write lease =>
        have hw := Updates.written existing lease hr hd
        refine publishAdvertisementRecord_spec.consequence (fun _ => id) ?_ ?_ ?_
        · rintro _ _ rfl
          exact hw
        · rintro _ _ (rfl | rfl)
          · exact .inl rfl
          · exact .inr hw
        · rintro _ (rfl | rfl)
          · exact .inl rfl
          · exact .inr hw

section Promise

variable {disk disk' : Disk} {record : AdvertisementLease} {expiry : ℕ}

/-- A publication with another output or another source than the record has. -/
def Replaces (purpose : LeasePurpose) (source : Option UpstreamNarSource)
    (record : AdvertisementLease) : Prop :=
  ∃ identity output, purpose = .publication identity output ∧
    (output ≠ record.output ∨ ∃ value, source = some value ∧ record.source ≠ some value)

structure Continues (policy : LeasePolicy) (purpose : LeasePurpose)
    (source : Option UpstreamNarSource) (now : ℕ) (record : AdvertisementLease) (expiry : ℕ)
    (record' : AdvertisementLease) (expiry' : ℕ) : Prop where
  retention : record'.retention = .until_ expiry'
  identity : record'.identity = record.identity
  output : record'.output = record.output ∨
    purpose = .publication record.identity record'.output
  /-- The promise is the old one, or a new one from the time of the update. -/
  promise : expiry' = expiry ∨ expiry' = freshExpiry policy now
  /-- Without another output or source the new promise reaches further than the old one. -/
  renewal : ¬Replaces purpose source record → expiry ≤ expiry'

/-- The output and the source are those of the record, so only its expiry was too early. -/
theorem stale_expiry (h : reusable record required output source = false)
    (ho : record.output = output)
    (hs : ∀ value, source = some value → record.source = some value) :
    record.retention.expiresAt < required := by
  have ha : (source.all fun value => decide (record.source = some value)) = true := by
    cases source with
    | none => rfl
    | some value => exact decide_eq_true (hs value rfl)
  rw [reusable, ha, decide_eq_true ho, Bool.and_true, Bool.and_true, decide_eq_false_iff_not,
    Nat.not_le] at h
  exact h

theorem Updates.continues (h : Updates E policy store purpose source now disk disk')
    (hc : disk.record store = some (.lease record))
    (hr : record.retention = .until_ expiry) :
    ∃ record' expiry', disk'.record store = some (.lease record') ∧
      Continues policy purpose source now record expiry record' expiry' := by
  cases h with
  | kept existing plan he hd hn =>
    exact ⟨record, expiry, hc, hr, rfl, .inl rfl, .inl rfl, fun _ => Nat.le_refl _⟩
  | written existing lease he hd =>
    obtain rfl := he.eq_of_record hc
    cases hd with
    | write identity output source' ho ht =>
      have hf : record.output = output → (∀ value, source' = some value →
          record.source = some value) → expiry ≤ freshExpiry policy now := by
        intro hou hso
        have hl := stale_expiry (ht record rfl) hou hso
        rw [hr] at hl
        exact Nat.le_trans (Nat.le_of_lt hl) (le_freshExpiry policy now)
      refine ⟨_, freshExpiry policy now, record_withRecord_self .., ?_⟩
      cases ho with
      | republished output record old hol =>
        refine ⟨rfl, rfl, .inr rfl, .inr rfl, fun hn => ?_⟩
        have hno : ∀ value, source = some value → record.source = some value := by
          intro value hv
          by_contra hne
          exact hn ⟨_, output, rfl, .inr ⟨value, hv, hne⟩⟩
        refine hf ?_ fun value hv => ?_
        · by_contra hne
          exact hn ⟨_, output, rfl, .inl (Ne.symm hne)⟩
        · cases source with
          | none => exact hv
          | some given => exact hno value hv
      | replaced identity output record hp =>
        rw [hr] at hp
        cases hp
      | renewed metadata record old hol =>
        exact ⟨rfl, rfl, .inl rfl, .inr rfl, fun _ => hf rfl fun _ hv => hv⟩
      | restored metadata record claims output hp ha =>
        rw [hr] at hp
        cases hp

end Promise

/-- A disk with the latest time and the longest lifetime of the updates so far. -/
structure Clocked where
  disk : Disk
  clock : ℕ
  longest : ℕ

/-- The update finds a promise, and another output or source for it than its own. -/
def Disk.Replaced (disk : Disk) (store : StoreHash) (purpose : LeasePurpose)
    (source : Option UpstreamNarSource) : Prop :=
  ∃ record expiry, disk.record store = some (.lease record) ∧
    record.retention = .until_ expiry ∧ Replaces purpose source record

namespace Clocked

variable {c : Clocked} {replaces : Prop}

/-- No promise made so far goes beyond this. -/
def limit (c : Clocked) : ℕ := c.clock + c.longest + headroom c.longest

/-- Who replaces a promise comes no earlier than the others and with no shorter lifetime. -/
def Admits (c : Clocked) (policy : LeasePolicy) (now : ℕ) (replaces : Prop) : Prop :=
  replaces → c.clock ≤ now ∧ c.longest ≤ policy.lifetimeSeconds

def next (c : Clocked) (policy : LeasePolicy) (now : ℕ) (disk : Disk) : Clocked :=
  ⟨disk, max c.clock now, max c.longest policy.lifetimeSeconds⟩

theorem Admits.limit_le (h : c.Admits policy now replaces) (hr : replaces) :
    c.limit ≤ freshExpiry policy now := by
  obtain ⟨ht, hl⟩ := h hr
  have hh := headroom_mono hl
  unfold limit freshExpiry
  omega

theorem limit_mono (c : Clocked) (policy : LeasePolicy) (now : ℕ) (disk : Disk) :
    c.limit ≤ (c.next policy now disk).limit := by
  have hh := headroom_mono (le_max_left c.longest policy.lifetimeSeconds)
  simp only [limit, next]
  omega

theorem fresh_le_limit (c : Clocked) (policy : LeasePolicy) (now : ℕ) (disk : Disk) :
    freshExpiry policy now ≤ (c.next policy now disk).limit := by
  have hh := headroom_mono (le_max_right c.longest policy.lifetimeSeconds)
  simp only [limit, next, freshExpiry]
  omega

end Clocked

section Sequences

variable {middle final : Clocked} {after : List Update}

end Sequences

section Sample

def samplePolicy (lifetime : ℕ) (h : 0 < lifetime) : LeasePolicy := ⟨lifetime, h⟩

def sampleOutput : AdvertisementOutput :=
  .compressed ⟨.xz, ⟨List.replicate 32 7, rfl⟩, 5⟩

def sampleNar : NarIdentity := ⟨⟨List.replicate 32 0, length_zeros⟩, 1⟩

def sampleStore : StoreHash := ⟨List.replicate 32 48, valid_zeros⟩

def silentExternals : Externals Unit Unit where
  decodeBase64 _ := none
  signatureFromSlice _ := none
  verifyStrict _ _ _ := false
  parseUri _ := none

def samplePublication (lifetime : ℕ) (h : 0 < lifetime) (output : AdvertisementOutput)
    (disk : Disk) : Outcome Disk StorageError Unit :=
  updateAdvertisementLease silentExternals (.active (samplePolicy lifetime h)) sampleStore
    (.publication sampleNar output) none 0 disk []

end Sample

end AdvertisementLeases
