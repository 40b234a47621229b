import Narjar.PublicationSteps

/-!
# Committing a publication

The functions of a publication from the first journal record to the last, each with what it
relies on and what it leaves. Together they keep the invariant at every operation.
-/
namespace PublicationJournal

open ByteCodecs ManifestFormat FaultyPrograms CrashDisk

namespace Setting

variable {S : Setting} {d d' : StoreDisk} {n : RecordName} {t : TemporaryPath}
variable {transaction : PublicationTransaction} {temp : TemporaryFile}

/-- The invariant, with no temporary file of the publication left. -/
abbrev Clear (S : Setting) (d : StoreDisk) : Prop := S.Safe d ∧ S.NoTemp d

/-- The invariant, with no other temporary file of the publication than this one. -/
abbrev Loose (S : Setting) (t : TemporaryPath) (d : StoreDisk) : Prop :=
  S.Safe d ∧ S.OnlyTemp t d

/-- The invariant holds wherever the program fails or crashes. -/
abbrev Safely {α : Type} (S : Setting) (P : StoreDisk → Prop) (x : Action α)
    (Q : α → Storage → Prop) : Prop := Triple (S.On P) x Q (fun _ => S.On S.Safe) (S.On S.Safe)

section Removal

theorem complete_spec : S.Safely S.Clear transaction.complete fun _ => S.On S.Safe := by
  refine .bind (Q := fun _ => S.On S.Safe) ?_ fun _ =>
    syncDirectory_spec (fun d hd => hd.syncDirectory _) (fun _ => id) fun _ => id
  exact unlinkAt_spec (fun d hd => hd.1.unlink_record hd.2 _)
    (fun hp => absurd hp S.path.directory_ne_transactions.symm) (fun d hd => hd.1) fun d hd => hd.1

theorem cancel_spec : S.Safely S.Clear transaction.cancel fun _ => S.On S.Safe :=
  .bind (Q := fun _ => S.On S.Safe) (.attempt complete_spec) fun _ => .pure fun _ => id

theorem OnlyTemp.noTemp_syncDirectory (h : S.OnlyTemp t d)
    (he : d.entry t.directory t.name = none) : S.NoTemp (d.syncDirectory t.directory) := by
  intro u i hi
  by_contra hn
  have hu := h u i (Disk.may_syncDirectory_subset hi) (by omega)
  subst hu
  rw [Disk.mem_may_syncDirectory_self, he] at hi
  cases hi

theorem removeTemp_spec :
    S.Leads (S.Loose temp.path) (removeTemp temp) (fun _ => S.Clear) (S.Loose temp.path) := by
  refine .bind (Q := fun _ => S.On fun d => (S.Loose temp.path d) ∧
    d.entry temp.path.directory temp.path.name = none) ?_ fun _ => ?_
  · refine unlinkAt_spec (fun d hd => ?_)
      (fun hp => absurd hp (S.path.directory_ne_temporary _).symm) (fun _ => id) fun d hd => hd.1
    refine ⟨⟨hd.1.unlink_temporary _, hd.2.unlink _ _⟩, ?_⟩
    rw [Disk.entry_unlink, if_pos ⟨rfl, rfl⟩]
  · exact syncDirectory_spec
      (fun d hd => ⟨hd.1.1.syncDirectory _, hd.1.2.noTemp_syncDirectory hd.2⟩)
      (fun d hd => hd.1) fun d hd => hd.1.1

theorem abandon_spec :
    S.Safely (S.Loose temp.path) (abandon temp transaction) fun _ => S.On S.Safe := by
  refine .handle removeTemp_spec (fun _ => cancel_spec) fun _ => ?_
  refine .bind (Q := fun _ => S.On S.Safe) (.attempt ?_) fun _ => .pure fun _ => id
  exact removeTemp_spec.consequence (fun _ => id) (fun _ s hs => ⟨hs.1, hs.2.1⟩)
    (fun _ s hs => ⟨hs.1, hs.2.1⟩) fun _ => id

end Removal

section Staging

variable {contents : Bytes}

theorem allocateTransaction_spec (ha : parseTransaction S.codec contents = .ok ⟨t, .staging⟩)
    (tries : ℕ) :
    Triple (S.On S.Clear) (allocateTransaction t contents tries)
      (fun transaction s => transaction.path = t ∧
        S.On (fun d => S.Safe d ∧ S.NoTemp d ∧ Covers S.codec transaction.name t d) s)
      (fun _ => S.On S.Clear) (S.On S.Safe) := by
  -- One attempt per name; a name that is taken leaves everything as it was.
  induction tries with
  | zero => exact .stop fun _ => id
  | succ tries ih =>
    refine .bind (Q := fun _ => S.On S.Clear) (.update fun _ => id)
      fun sequence => ?_
    refine .bind (Q := fun _ => S.On S.Clear) (.update fun _ => id)
      fun process => ?_
    refine .handle (publishTransactionRecord_spec ha (fun d d' hj => hj.noTemp)
      (fun d _ p hp => nomatch hp) fun d hd => .inl hd) (fun _ => ?_) fun error => ?_
    · refine .bind (inspect_spec (fun d hd => ⟨hd.1, hd.2.1⟩) fun d hd => hd.1) fun _ => ?_
      exact .pure fun s hs => ⟨rfl, hs⟩
    · split
      · exact ih
      · exact .stop fun _ => id

theorem beginTransaction_spec (ht : t.Generated) :
    Triple (S.On S.Clear) (beginTransaction S.codec t)
      (fun transaction s => transaction.path = t ∧
        S.On (fun d => S.Safe d ∧ S.NoTemp d ∧ Covers S.codec transaction.name t d) s)
      (fun _ => S.On S.Clear) (S.On S.Safe) := by
  refine .bind (Q := fun contents s => parseTransaction S.codec contents = .ok ⟨t, .staging⟩ ∧
    S.On S.Clear s) ?_ fun contents => .assuming fun hp => allocateTransaction_spec hp 128
  exact .ofExcept (fun contents s hc hs => ⟨parse_serialize ht hc, hs⟩) fun _ s _ hs => hs

/-- The temporary file of a publication, which nothing else refers to. -/
structure Held (S : Setting) (temp : TemporaryFile) (d : StoreDisk) : Prop where
  only : S.OnlyTemp temp.path d
  entry : d.entry temp.path.directory temp.path.name = some temp.file
  new : S.before.nextFile ≤ temp.file
  unshared : ∀ n, some temp.file ∉ d.may .transactions (.record n)
  unpublished : ∀ p : StorePath, some temp.file ∉ d.may p.directory p.name

theorem Held.journal (h : S.Held temp d) (hj : Journal n contents d d') :
    S.Held temp d' where
  only := hj.onlyTemp h.only
  entry := by
    rw [hj.entry_eq temp.path.directory_ne_transactions]
    exact h.entry
  new := h.new
  unshared := by
    intro m hm
    rcases hj.entries _ _ hm with ho | ⟨k, hd⟩ | ⟨-, i, hi, hn, -⟩
    · exact h.unshared m ho
    · cases hd
    · have hlt := d.entry_lt h.entry
      cases Option.some.inj hi
      omega
  unpublished := by
    intro p hp
    rw [hj.may_eq p.directory_ne_transactions] at hp
    exact h.unpublished p hp

theorem held_create (ha : S.Safe d) (he : S.NoTemp d) :
    S.Held ⟨t, d.nextFile⟩ (d.create t.directory t.name []) where
  only := by
    intro u i hi hw
    rcases Disk.mem_may_create.1 hi with ho | ⟨hd, hn, -⟩
    · have hlt := he u i ho
      omega
    · exact TemporaryPath.eq_of_location hd hn.symm
  entry := by rw [Disk.entry_create, if_pos ⟨rfl, rfl⟩]
  new := ha.nextFile_le
  unshared := by
    intro m hm
    have ho := (mem_may_create_of_ne fun hs => t.directory_ne_transactions hs.1.symm).1 hm
    have hlt := d.linked _ _ _ ho
    exact absurd hlt (lt_irrefl _)
  unpublished := by
    intro p hp
    have ho := (mem_may_create_of_ne fun hs => p.directory_ne_temporary t hs.1).1 hp
    have hlt := d.linked _ _ _ ho
    exact absurd hlt (lt_irrefl _)

/-- The temporary file exists, is covered by its record and belongs to the publication. -/
def Staged (S : Setting) (temp : TemporaryFile) (n : RecordName) (d : StoreDisk) : Prop :=
  S.Safe d ∧ Covers S.codec n temp.path d ∧ S.Held temp d

theorem createTemporary_spec :
    S.Leads (fun d => S.Safe d ∧ S.NoTemp d ∧ Covers S.codec transaction.name t d)
      (createNewAt t.directory t.name) (fun file => S.Staged ⟨t, file⟩ transaction.name)
      S.Clear := by
  refine onDisk_spec ?_ (fun d hd => ⟨hd.1, hd.2.1⟩) fun d hd => hd.1
  rintro d i d' ⟨hs, hn, hc⟩ ha
  split at ha
  · cases ha
  · cases Except.ok.inj ha
    refine ⟨⟨hs.create_temporary hc, ?_, held_create hs hn⟩, fun hu => ?_⟩
    · exact Covers.create hc fun hm => t.directory_ne_transactions hm.1.symm
    · exact durable_of_directory_eq hu
        (Disk.directories_create_of_ne (S.path.directory_ne_temporary t))

theorem generated_temporaryPath :
    (temporaryPath target (.temporary tempPrefix process k)).Generated := by
  refine ⟨tempPrefix, process, k, ?_⟩
  unfold temporaryPath
  split <;> rfl

theorem beginJournaledTemporary_spec :
    S.Safely S.Clear (beginJournaledTemporary S.codec target) fun result s =>
      (result.2.path = result.1.path ∧ result.1.path.Generated) ∧
        S.On (S.Staged result.1 result.2.name) s := by
  refine .bind (Q := fun _ => S.On S.Clear)
    (.ofExcept (fun _ s _ hs => hs) fun _ s _ hs => ⟨hs.1, hs.2.1⟩) fun _ => ?_
  refine .bind (Q := fun name s => (temporaryPath target name).Generated ∧ S.On S.Clear s) ?_
    fun name => .assuming fun hg => ?_
  · exact .bind (Q := fun _ => S.On S.Clear) (.update fun _ => id) fun _ =>
      .bind (Q := fun _ => S.On S.Clear) (.update fun _ => id) fun _ =>
        .pure fun _ hs => ⟨generated_temporaryPath, hs⟩
  refine .bind ((beginTransaction_spec hg).relax (fun _ s hs => ⟨hs.1, hs.2.1⟩) fun _ => id) fun transaction => .assuming fun hp => ?_
  refine .handle (E := fun _ => S.On S.Clear) (Q := fun file =>
    S.On (S.Staged ⟨temporaryPath target name, file⟩ transaction.name)) ?_ (fun file => ?_) fun e =>
      .bind cancel_spec fun _ => .stop fun _ => id
  · refine .bind (inspect_spec (fun d hd => ⟨hd.1, hd.2.1⟩) fun d hd => hd.1) fun _ => ?_
    refine .bind (inspect_spec (fun d hd => ⟨hd.1, hd.2.1⟩) fun d hd => hd.1) fun _ => ?_
    exact createTemporary_spec
  · refine .handle (inspect_spec (fun _ => id) fun d hd => hd.1)
      (fun _ => .pure fun s hs => ⟨⟨hp, hg⟩, hs⟩) fun e => ?_
    refine .bind (abandon_spec.strengthen ?_) fun _ => .stop fun _ => id
    exact fun s hs => ⟨hs.1, hs.2.1, hs.2.2.2.only⟩

theorem Staged.replaceFile (h : S.Staged temp n d) :
    S.Staged temp n (d.replaceFile temp.file file) := by
  obtain ⟨hs, hc, hh⟩ := h
  exact ⟨hs.replaceFile hh.new hh.unshared hh.unpublished,
    Covers.replaceFile hc (hh.unshared n), hh.only, hh.entry, hh.new, hh.unshared, hh.unpublished⟩

def Complete (S : Setting) (temp : TemporaryFile) (n : RecordName) (d : StoreDisk) : Prop :=
  S.Safe d ∧ Covers S.codec n temp.path d ∧
    (S.Held temp d ∧ d.files temp.file = ⟨S.source, true⟩)

theorem Held.complete_journal (h : S.Held temp d ∧ d.files temp.file = ⟨S.source, true⟩)
    (hj : Journal n contents d d') : S.Held temp d' ∧ d'.files temp.file = ⟨S.source, true⟩ :=
  ⟨h.1.journal hj, (hj.files_eq _ (d.entry_lt h.1.entry)).trans h.2⟩

theorem stage_spec (hr : Tells transaction n temp.path) :
    S.Safely (S.Staged temp n) (stage S.codec temp transaction S.source) fun next s =>
      Tells next n temp.path ∧ S.On (S.Complete temp n) s := by
  have hu : ∀ d, S.Staged temp n d → S.Loose temp.path d := fun d hd => ⟨hd.1, hd.2.2.only⟩
  have hw : S.Leads (S.Staged temp n) (writeAll temp.file S.source)
      (fun _ d => S.Staged temp n d ∧ (d.files temp.file).contents = S.source)
      (S.Loose temp.path) :=
    replaceFile_spec (fun _ => rfl)
      (fun d hd => ⟨hd.replaceFile, by rw [Disk.files_replaceFile_self]⟩) hu fun d hd => hd.1
  have hy : S.Leads (fun d => S.Staged temp n d ∧ (d.files temp.file).contents = S.source)
      (syncFile temp.file) (fun _ d => S.Staged temp n d ∧ d.files temp.file = ⟨S.source, true⟩)
      (S.Loose temp.path) :=
    replaceFile_spec (fun _ => rfl)
      (fun d hd => ⟨hd.1.replaceFile, by rw [Disk.files_replaceFile_self, hd.2]⟩)
      (fun d hd => hu d hd.1) fun d hd => hd.1.1
  refine .handle (E := fun _ => S.On (S.Loose temp.path)) ?_
    (fun _ => .pure fun _ => id) fun e => .bind abandon_spec fun _ => .stop fun _ => id
  refine .bind (Triple.consequence (transition_spec hr
    (fun _ d d' hj (hh : S.Held temp d) => hh.journal hj)
    fun d _ p hp => nomatch hp) (fun _ => id) (fun _ _ => id)
    (fun _ s hs => ⟨hs.1, hu _ hs.2⟩) fun _ => id) fun next => .assuming fun hn => ?_
  refine .bind (inspect_spec hu fun d hd => hd.1) fun _ => ?_
  refine .bind hw fun _ => ?_
  refine .bind (inspect_spec (fun d hd => hu d hd.1) fun d hd => hd.1.1) fun _ => ?_
  refine .bind hy fun _ => ?_
  refine .bind (inspect_spec (fun d hd => hu d hd.1) fun d hd => hd.1.1) fun _ => ?_
  refine Triple.consequence (transition_spec hn
    (fun _ d d' hj hh => Held.complete_journal hh hj)
    fun d _ p hp => nomatch hp) (fun s hs => ?_) (fun _ _ => id) (fun _ s hs => ?_) fun _ => id
  · exact ⟨hs.1, hs.2.1.1, hs.2.1.2.1, hs.2.1.2.2, hs.2.2⟩
  · exact ⟨hs.1, hs.2.1, hs.2.2.2.1.only⟩

end Staging

section Placement

/-- The temporary file has been placed, or found to be there already. -/
structure Placed (S : Setting) (temp : TemporaryFile) (result : DestinationPublicationAttempt)
    (d : StoreDisk) : Prop where
  only : S.OnlyTemp temp.path d
  present : d.entry S.path.directory S.path.name ≠ none
  moved : result.temporaryLocation = .destination →
    d.entry temp.path.directory temp.path.name = none
  -- A link that is not durable yet may be rolled back.
  fresh : result ≠ .existing → result.temporaryLocation = .staging →
    none ∈ d.may S.path.directory S.path.name ∧
      (S.destination.publication = .link → S.before.entry S.path.directory S.path.name = none)

variable {i : ℕ} {place : Place} {name : Name} {result : DestinationPublicationAttempt}
variable {codec : RecordCodec}

theorem Placed.journal (h : S.Placed temp result d)
    (hj : Journal n contents d d') : S.Placed temp result d' where
  only := hj.onlyTemp h.only
  present := by
    rw [hj.entry_eq S.path.directory_ne_transactions]
    exact h.present
  moved := by
    rw [hj.entry_eq temp.path.directory_ne_transactions]
    exact h.moved
  fresh := by
    rw [hj.may_eq S.path.directory_ne_transactions]
    exact h.fresh

def Committed (S : Setting) (temp : TemporaryFile) (n : RecordName)
    (result : DestinationPublicationAttempt) (d : StoreDisk) : Prop :=
  S.Safe d ∧ Covers S.codec n temp.path d ∧ S.Placed temp result d

theorem Complete.unplaced (h : S.Complete temp n d) : S.Loose temp.path d :=
  ⟨h.1, h.2.2.1.only⟩

theorem Covers.link (h : Covers codec n t d) (hp : place ≠ .transactions) :
    Covers codec n t (d.link place name i hi) := by
  have ho : ∀ x, x ∈ (d.link place name i hi).may .transactions (.record n) →
      x ∈ d.may .transactions (.record n) := by
    intro x hx
    exact (Disk.mem_may_link.1 hx).resolve_right fun hs => hp hs.1.symm
  exact ⟨fun hn => h.1 (ho _ hn), fun j hj => h.2 j (ho _ hj)⟩

theorem Covers.unlink (h : Covers codec n t d) (hp : place ≠ .transactions) :
    Covers codec n t (d.unlink place name) := by
  refine ⟨fun hn => ?_, fun j hj => h.2 j (some_mem_may_unlink hj)⟩
  rcases Disk.mem_may_unlink.1 hn with ho | ⟨hs, -⟩
  · exact h.1 ho
  · exact hp hs.symm

theorem OnlyTemp.link_destination (h : S.OnlyTemp t d) :
    S.OnlyTemp t (d.link S.path.directory S.path.name i hi) := by
  intro u j hj
  refine h u j ((Disk.mem_may_link.1 hj).resolve_right fun hs => ?_)
  exact S.path.directory_ne_temporary u hs.1.symm

theorem durable_link (h : Durable p d) :
    Durable p (d.link place name i hi) := by
  intro hn
  exact h ((Disk.mem_may_link.1 hn).resolve_right fun hs => nomatch hs.2.2)

theorem hardLink_spec :
    S.Leads (S.Complete temp n)
      (hardLinkAt temp.path.directory temp.path.name S.path.directory S.path.name)
      (fun _ => S.Committed temp n (.created .staging)) (S.Complete temp n) := by
  refine onDisk_spec ?_ (fun _ => id) fun d hd => hd.1
  rintro d a d' ⟨hs, hc, hh, hf⟩ ha
  split at ha
  · cases ha
  · next i hi =>
    cases Option.some.inj (hh.entry.symm.trans hi)
    split at ha
    · cases ha
    · next hv =>
      cases Except.ok.inj ha
      refine ⟨⟨hs.link_destination (d.entry_lt hi) hf fun _ => hv,
        Covers.link hc S.path.directory_ne_transactions, hh.only.link_destination,
        ?_, (fun hm => nomatch hm), fun _ _ => ⟨?_, fun hn => ?_⟩⟩, durable_link⟩
      · rw [Disk.entry_link, if_pos ⟨rfl, rfl⟩]
        exact Option.some_ne_none _
      · exact Disk.mem_may_link.2 (.inl (hv ▸ d.entry_mem_may _ _))
      · -- What stood there before would still stand there.
        cases hb : S.before.entry S.path.directory S.path.name with
        | none => rfl
        | some j =>
          have hl := (hs.kept hn j hb).1
          rw [hv] at hl
          cases hl

theorem renameTemporary_spec (hp : S.destination.publication ≠ .link)
    (hr : result.temporaryLocation = .destination) :
    S.Leads (S.Complete temp n) (renameTemporary S.path temp result) (S.Committed temp n)
      (S.Loose temp.path) := by
  refine .bind (Q := fun _ => S.On (S.Committed temp n result)) ?_ fun _ => .pure fun _ => id
  refine onDisk_spec ?_ (fun d hd => hd.unplaced) fun d hd => hd.1
  rintro d a d' ⟨he, hc, hh, hf⟩ ha
  split at ha
  · cases ha
  · next i hi =>
    cases Option.some.inj (hh.entry.symm.trans hi)
    cases Except.ok.inj ha
    have hn := he.link_destination (d.entry_lt hi) hf fun hl => absurd hl hp
    refine ⟨⟨hn.unlink_temporary _, ?_, ?_, ?_, fun _ => ?_, fun _ hs => ?_⟩, ?_⟩
    · exact Covers.unlink (Covers.link hc S.path.directory_ne_transactions)
        temp.path.directory_ne_transactions
    · exact hh.only.link_destination.unlink _ _
    · rw [Disk.entry_unlink, if_neg fun hm => S.path.directory_ne_temporary _ hm.1,
        Disk.entry_link, if_pos ⟨rfl, rfl⟩]
      exact Option.some_ne_none _
    · rw [Disk.entry_unlink, if_pos ⟨rfl, rfl⟩]
    · rw [hr] at hs
      cases hs
    · intro hu
      exact durable_of_directory_eq (durable_link hu)
        (Disk.directories_unlink_of_ne (S.path.directory_ne_temporary _))

theorem Complete.existing (h : S.Complete temp n d)
    (he : d.entry S.path.directory S.path.name = some i) : S.Committed temp n .existing d := by
  refine ⟨h.1, h.2.1, h.2.2.1.only, ?_, (fun hm => nomatch hm), fun hne => absurd rfl hne⟩
  rw [he]
  exact Option.some_ne_none i

theorem linkTemporary_spec :
    S.Leads (S.Complete temp n) (linkTemporary S.path temp) (S.Committed temp n)
      (S.Loose temp.path) := by
  refine .handle hardLink_spec (fun _ => .pure fun _ => id) fun e => ?_
  split
  · refine .bind (Q := fun _ => S.On (S.Committed temp n .existing)) ?_ fun identical => ?_
    · refine .bind (Q := fun _ => S.On (S.Complete temp n)) (openRegularAt_spec
        (fun d _ hd _ => hd) (fun d hd => hd.unplaced) fun d hd => hd.1) fun _ => ?_
      refine .bind (openRegularAt_spec (fun d _ hd he => hd.existing he)
        (fun d hd => hd.unplaced) fun d hd => hd.1) fun _ => ?_
      refine .bind (readToEnd_spec (fun d hd => ⟨hd.1, hd.2.2.only⟩) fun d hd => hd.1) fun _ => ?_
      refine .bind (readToEnd_spec (fun d hd => ⟨hd.1, hd.2.2.only⟩) fun d hd => hd.1) fun _ => ?_
      exact .pure fun _ => id
    · split
      · exact .pure fun _ => id
      · exact .stop fun s hs => ⟨hs.1, hs.2.1, hs.2.2.2.only⟩
  · exact .stop fun s hs => ⟨hs.1, hs.2.unplaced⟩

theorem repairDestination_spec
    (hp : S.destination.publication ≠ .link) :
    S.Leads (S.Complete temp n) (repairDestination S.path temp fileMatches) (S.Committed temp n)
      (S.Loose temp.path) := by
  refine .handle (E := fun _ => S.On (S.Complete temp n))
    (Q := fun _ => S.On fun d => S.Complete temp n d ∧ S.Committed temp n .existing d)
    (openRegularAt_spec (fun d _ hd he => ⟨hd, hd.existing he⟩) (fun _ => id)
      fun d hd => hd.1) (fun file => ?_) fun e => ?_
  · refine .bind (readToEnd_spec (fun d hd => hd.1.unplaced) fun d hd => hd.1.1) fun contents => ?_
    split
    · exact .pure fun s hs => ⟨hs.1, hs.2.2⟩
    · exact (renameTemporary_spec hp rfl).strengthen fun s hs => ⟨hs.1, hs.2.1⟩
  · split
    · exact renameTemporary_spec hp rfl
    · exact .stop fun s hs => ⟨hs.1, hs.2.unplaced⟩

theorem placeTemporary_spec (sha256 : Bytes → Digest) :
    S.Leads (S.Complete temp n) (placeTemporary sha256 S.destination temp) (S.Committed temp n)
      (S.Loose temp.path) := by
  rw [placeTemporary]
  cases hp : S.destination.publication with
  | link => exact linkTemporary_spec
  | replace => exact renameTemporary_spec (by rw [hp]; exact fun h => nomatch h) rfl
  | repair output => exact repairDestination_spec (by rw [hp]; exact fun h => nomatch h)
  | repairCanonical identity =>
    exact repairDestination_spec (by rw [hp]; exact fun h => nomatch h)
  | renewAdvertisement store =>
    exact renameTemporary_spec (by rw [hp]; exact fun h => nomatch h) rfl

end Placement

section Commit

variable {result : DestinationPublicationAttempt}

/-- What is left to do once the destination is durable. -/
structure Settled (S : Setting) (temp : TemporaryFile) (location : TemporaryLocation)
    (d : StoreDisk) : Prop where
  only : S.OnlyTemp temp.path d
  durable : Durable S.path d
  gone : location = .destination → S.NoTemp d

theorem Settled.journal
    (h : S.Settled temp location d) (hj : Journal n contents d d') :
    S.Settled temp location d' :=
  ⟨hj.onlyTemp h.only, (hj.durable_iff _).2 h.durable, fun hl => hj.noTemp (h.gone hl)⟩

theorem Covers.syncDirectory {codec} (h : Covers codec n t d) (place : Place) :
    Covers codec n t (d.syncDirectory place) :=
  ⟨fun hn => h.1 (Disk.may_syncDirectory_subset hn),
    fun i hi => h.2 i (Disk.may_syncDirectory_subset hi)⟩

theorem Placed.syncTemporary (h : S.Placed temp result d)
    (hr : result.temporaryLocation = .destination) :
    S.Placed temp result (d.syncDirectory temp.path.directory) where
  only := h.only.syncDirectory _
  present := by
    rw [Disk.entry_syncDirectory]
    exact h.present
  moved := by
    rw [Disk.entry_syncDirectory]
    exact h.moved
  fresh := by
    intro _ hs
    rw [hr] at hs
    cases hs

theorem synchronizeSourceDirectory_spec :
    S.Leads (S.Committed temp n result) (synchronizeSourceDirectory temp result.temporaryLocation)
      (fun _ d => S.Safe d ∧ Covers S.codec n temp.path d ∧
        (S.Placed temp result d ∧ (result.temporaryLocation = .destination → S.NoTemp d)))
      (fun d => S.Safe d ∧ S.Placed temp result d) := by
  cases hr : result.temporaryLocation with
  | staging =>
    exact .pure fun s hs => ⟨hs.1, hs.2.1, hs.2.2.1, hs.2.2.2, fun hm => nomatch hm⟩
  | destination =>
    refine syncDirectory_spec (fun d hd => ?_) (fun d hd => ⟨hd.1, hd.2.2⟩) fun d hd => hd.1
    exact ⟨hd.1.syncDirectory _, Covers.syncDirectory hd.2.1 _, hd.2.2.syncTemporary hr,
      fun _ => hd.2.2.only.noTemp_syncDirectory (hd.2.2.moved hr)⟩

theorem recordLinkedDestination_spec (hr : Tells transaction n temp.path)
    (hX : ∀ contents d d', Journal n contents d d' → X d → X d') :
    Triple (S.On (S.Covered n temp.path X))
      (recordLinkedDestination S.codec S.path transaction result)
      (fun next s => Tells next n temp.path ∧ S.On (S.Covered n temp.path X) s)
      (fun _ => S.On (S.Covered n temp.path X)) (S.On S.Safe) := by
  cases result with
  | existing => exact .pure fun s hs => ⟨hr, hs⟩
  | created | repaired => exact transition_spec hr hX fun d _ p hp => nomatch hp

theorem barrier_spec (hr : Tells transaction n temp.path) :
    Triple (S.On (S.Committed temp n result)) (barrier S.codec S.path temp result transaction)
      (fun next s => Tells next n temp.path ∧
        S.On (S.Covered n temp.path (S.Settled temp result.temporaryLocation)) s)
      (fun _ => S.On fun d => S.Safe d ∧ S.Placed temp result d) (S.On S.Safe) := by
  refine .bind synchronizeSourceDirectory_spec fun _ => ?_
  refine .bind (Triple.consequence (recordLinkedDestination_spec hr
    fun _ d d' hj hd => ⟨hd.1.journal hj,
      fun hl => hj.noTemp (hd.2 hl)⟩) (fun _ => id) (fun _ _ => id)
    (fun _ s hs => ⟨hs.1, hs.2.1, hs.2.2.2.1⟩) fun _ => id) fun next => .assuming fun he => ?_
  refine .bind (inspect_spec (fun d hd => ⟨hd.1, hd.2.2.1⟩) fun d hd => hd.1) fun _ => ?_
  refine .bind (syncDirectory_spec (fun d hd => ?_) (fun d hd => ⟨hd.1, hd.2.2.1⟩)
    fun d hd => hd.1) fun _ => .pure fun s hs => ⟨he, hs⟩
  refine ⟨hd.1.syncDirectory _, Covers.syncDirectory hd.2.1 _, hd.2.2.1.only.syncDirectory _, ?_,
    fun hl => (hd.2.2.2 hl).syncDirectory _⟩
  intro hn
  rw [Disk.mem_may_syncDirectory_self] at hn
  exact hd.2.2.1.present hn.symm

theorem rollbackNewLink_spec :
    Triple (S.On fun d => S.Safe d ∧ S.Placed temp result d) (rollbackNewLink S.path result)
      (fun progress s => (progress.temporaryLocation = .destination →
        progress = .uncertain .destination) ∧ S.On (S.Loose temp.path) s)
      (fun _ => S.On (S.Loose temp.path)) (S.On S.Safe) := by
  cases result with
  | existing => exact .pure fun s hs => ⟨(fun hl => nomatch hl), hs.1, hs.2.1, hs.2.2.only⟩
  | created location | repaired location =>
    cases location with
    | destination => exact .pure fun s hs => ⟨fun _ => rfl, hs.1, hs.2.1, hs.2.2.only⟩
    | staging =>
      refine .bind (Q := fun _ => S.On (S.Loose temp.path)) (unlinkAt_spec (fun d hd => ?_)
        (fun _ d hd => (hd.2.fresh (fun h => nomatch h) rfl).1) (fun d hd => ⟨hd.1, hd.2.only⟩)
        fun d hd => hd.1) fun _ => ?_
      · obtain ⟨hn, hb⟩ := hd.2.fresh (fun h => nomatch h) rfl
        exact ⟨hd.1.unlink_destination hn hb, hd.2.only.unlink _ _⟩
      · refine .bind (Q := fun _ => S.On (S.Loose temp.path))
          (syncDirectory_spec (fun d hd => ⟨hd.1.syncDirectory _, hd.2.syncDirectory _⟩)
            (fun _ => id) fun d hd => hd.1) fun _ => ?_
        exact .pure fun s hs => ⟨(fun hl => nomatch hl), hs⟩

/-- What the cleanup after a commit relies on. The record goes only when no temporary file of
the publication is left. -/
structure Concluded (S : Setting) (temp : TemporaryFile) (commit : Commit) (d : StoreDisk) :
    Prop where
  safe : S.Safe d
  only : S.OnlyTemp temp.path d
  gone : commit.2.temporaryLocation = .destination →
    S.NoTemp d ∨ ∃ error location, commit = (.error error, .uncertain location)

variable {commit : Commit} {F : StorageError → Storage → Prop}

theorem concluded_durable (hs : S.Safe d) (h : S.Settled temp result.temporaryLocation d)
    (hc : commit.2 = result.progress.markDurable) : S.Concluded temp commit d := by
  refine ⟨hs, h.only, fun hl => .inl (h.gone ?_)⟩
  rw [hc] at hl
  cases result with
  | existing | created | repaired => exact hl

theorem finalizeDestination_spec (he : Tells transaction n temp.path) :
    Triple (S.On (S.Committed temp n result))
      (finalizeDestination S.codec S.path temp transaction result)
      (fun commit => S.On (S.Concluded temp commit)) F (S.On S.Safe) := by
  refine .handle (barrier_spec he) (fun next => .assuming fun hn => ?_) fun error => ?_
  · refine .handle (E := fun _ => S.On (S.Covered n temp.path (S.Settled temp result.temporaryLocation)))
      (Q := fun _ => S.On (S.Covered n temp.path (S.Settled temp result.temporaryLocation))) ?_
      (fun _ => .pure fun s hs => ⟨hs.1, concluded_durable hs.2.1 hs.2.2.2 rfl⟩)
      fun error => .pure fun s hs => ⟨hs.1, concluded_durable hs.2.1 hs.2.2.2 rfl⟩
    refine .bind (transition_spec hn (fun _ d d' hj hd => hd.journal hj) ?_)
      fun _ => .assuming fun _ => inspect_spec (fun _ => id) fun d hd => hd.1
    intro d hd p hp
    cases hp
    exact hd.durable
  · refine .handle rollbackNewLink_spec (fun progress => .assuming fun hr => ?_) fun _ => ?_
    · refine .pure fun s hs => ⟨hs.1, hs.2.1, hs.2.2, fun hl => .inr ?_⟩
      exact ⟨error, .destination, by rw [hr hl]⟩
    · refine .pure fun s hs => ⟨hs.1, hs.2.1, hs.2.2, fun hl => .inr ?_⟩
      cases result with
      | existing => cases hl
      | created location | repaired location => exact ⟨error, location, rfl⟩

theorem publishTemporary_spec (sha256 : Bytes → Digest)
    (hr : Tells transaction n temp.path) : Triple (S.On (S.Complete temp n))
      (publishTemporary S.codec sha256 S.destination temp transaction)
      (fun commit => S.On (S.Concluded temp commit)) F (S.On S.Safe) := by
  refine .handle (E := fun _ => S.On (S.Loose temp.path))
    (Q := fun result => S.On (S.Committed temp n result)) ?_
    (fun result => finalizeDestination_spec hr) fun error => ?_
  · refine .bind (inspect_spec (fun d hd => hd.unplaced) fun d hd => hd.1) fun _ => ?_
    refine .bind (inspect_spec (fun d hd => hd.unplaced) fun d hd => hd.1) fun _ => ?_
    refine .bind (inspect_spec (fun d hd => hd.unplaced) fun d hd => hd.1) fun _ => ?_
    exact placeTemporary_spec sha256
  · exact .pure fun s hs => ⟨hs.1, hs.2.1, hs.2.2, fun hl => nomatch hl⟩

theorem removeTemporary_spec :
    S.Safely (S.Concluded temp commit) (removeTemporary temp commit.2.temporaryLocation)
      fun _ => S.On fun d => S.Safe d ∧
        (S.NoTemp d ∨ ∃ error location, commit = (.error error, .uncertain location)) := by
  cases hl : commit.2.temporaryLocation with
  | staging =>
    exact removeTemp_spec.consequence (fun s hs => ⟨hs.1, hs.2.safe, hs.2.only⟩)
      (fun _ s hs => ⟨hs.1, hs.2.1, .inl hs.2.2⟩) (fun _ s hs => ⟨hs.1, hs.2.1⟩) fun _ => id
  | destination => exact .pure fun s hs => ⟨hs.1, hs.2.safe, hs.2.gone hl⟩

theorem completion_spec (hc : ∀ error location, commit ≠ (.error error, .uncertain location)) :
    S.Safely (S.Concluded temp commit)
      (do
        removeTemporary temp commit.2.temporaryLocation
        transaction.complete)
      fun _ => S.On S.Safe := by
  refine .bind removeTemporary_spec fun _ => complete_spec.strengthen fun s hs => ?_
  refine ⟨hs.1, hs.2.1, hs.2.2.resolve_right ?_⟩
  rintro ⟨error, location, ho⟩
  exact hc error location ho

theorem finish_spec (commit : Commit) :
    S.Safely (S.Concluded temp commit) (finish temp transaction commit) fun _ => S.On S.Safe := by
  rw [finish.eq_def]
  split
  · next error location =>
    refine .bind (Q := fun _ => S.On S.Safe) (.attempt ?_) fun _ => .stop fun _ => id
    exact removeTemporary_spec.consequence (fun _ => id) (fun _ s hs => ⟨hs.1, hs.2.1⟩)
      (fun _ _ => id) fun _ => id
  · next result progress hc =>
    refine .bind (Q := fun _ => S.On S.Safe) (.attempt (completion_spec ?_)) fun completion => ?_
    · intro error location ho
      cases ho
      exact hc error location rfl rfl
    · cases result with
      | error error => exact .stop fun _ => id
      | ok outcome =>
        cases completion with
        | ok _ => exact .pure fun _ => id
        | error error => exact .stop fun _ => id

theorem commitTemporaryWithActivity_spec (sha256 : Bytes → Digest)
    (hr : Tells transaction n temp.path) : S.Safely (S.Complete temp n)
      (commitTemporaryWithActivity S.codec sha256 S.destination temp transaction)
      fun _ => S.On S.Safe := .bind (publishTemporary_spec sha256 hr) finish_spec

theorem publicationActivity_spec {A : StoreDisk → Prop} {destination}
    (ha : ∀ d, A d → S.Safe d) : S.Safely A (publicationActivity destination) fun _ => S.On A := by
  rw [publicationActivity]
  split
  · exact .bind (Q := fun _ => S.On A)
      (.ofExcept (fun _ s _ hs => hs) fun _ s _ hs => ⟨hs.1, ha _ hs.2⟩) fun _ => inspect_spec ha ha
  all_goals exact inspect_spec ha ha

theorem commitTemporary_spec (sha256 : Bytes → Digest)
    (hr : Tells transaction n temp.path) : S.Safely (S.Complete temp n)
      (commitTemporary S.codec sha256 S.destination temp transaction) fun _ => S.On S.Safe :=
  .bind (publicationActivity_spec fun _ hd => hd.1) fun _ =>
    commitTemporaryWithActivity_spec sha256 hr

/-- However a publication ends, and wherever it crashes, the invariant holds. -/
theorem publish_spec (sha256 : Bytes → Digest) (activity : PublicationActivity)
    (target : PublicationDestination) :
    S.Safely S.Clear (publish S.codec sha256 activity target S.destination S.source)
      fun _ => S.On S.Safe := by
  refine .bind (Q := fun _ => S.On S.Clear) ?_ fun _ => ?_
  · cases activity with
    | operation => exact publicationActivity_spec fun _ hd => hd.1
    | collection | commit => exact .pure fun _ => id
  refine .bind beginJournaledTemporary_spec fun held => .assuming fun hp => ?_
  refine .bind (stage_spec ⟨rfl, hp⟩) fun next => .assuming fun hn => ?_
  cases activity with
  | operation | collection => exact commitTemporaryWithActivity_spec sha256 hn
  | commit => exact commitTemporary_spec sha256 hn

end Commit

end Setting

end PublicationJournal
