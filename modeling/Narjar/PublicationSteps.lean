import Narjar.PublicationSafety

/-!
# The steps of a publication

What each function of a publication knows before and after it, with the invariant wherever it
fails or crashes.
-/
namespace PublicationJournal

open ByteCodecs FaultyPrograms CrashDisk

namespace Setting

variable {S : Setting} {d d' d₁ : StoreDisk} {n : RecordName} {t : TemporaryPath} {k : ℕ}
variable {contents : Bytes} {record : TransactionRecord}

section Operations

variable {α : Type} {A E : StoreDisk → Prop} {B : α → StoreDisk → Prop} {U : StoreDisk → Prop}

/-- `B` when the program returns, `E` when it fails, and the invariant when it crashes. -/
abbrev Leads (S : Setting) (A : StoreDisk → Prop) (x : Action α) (B : α → StoreDisk → Prop)
    (E : StoreDisk → Prop) : Prop :=
  Triple (S.On A) x (fun a => S.On (B a)) (fun _ => S.On E) (S.On S.Safe)

theorem onDisk_spec
    (hok : ∀ d a d', A d → act d = .ok (a, d') → B a d' ∧ (Durable S.path d → Durable S.path d'))
    (hf : ∀ d, A d → E d) (he : ∀ d, A d → S.Safe d) :
    S.Leads A (onDisk act) B E := by
  refine .operation ?_ ?_ ?_ ?_
  · intro s a t hs ha
    cases hr : act s.disk with
    | error e =>
      rw [hr] at ha
      cases ha
    | ok r =>
      rw [hr] at ha
      cases Except.ok.inj ha
      obtain ⟨hB, hk⟩ := hok s.disk r.1 r.2 hs.2 hr
      refine ⟨?_, hB⟩
      intro d hd hu
      rcases List.mem_cons.1 hd with rfl | ho
      · exact hk hu
      · exact hk (hs.1 d ho hu)
  · intro s e hs _
    exact ⟨hs.1, hf s.disk hs.2⟩
  · intro s hs
    exact ⟨hs.1, hf s.disk hs.2⟩
  · intro s hs
    exact ⟨hs.1, he s.disk hs.2⟩

theorem inspect_spec (hf : ∀ d, A d → E d) (hs : ∀ d, A d → S.Safe d) :
    S.Leads A inspect (fun _ => A) E := by
  refine onDisk_spec ?_ hf hs
  intro d a d' hd ha
  cases Except.ok.inj ha
  exact ⟨hd, id⟩

variable {place : Place} {name : Name}

theorem syncDirectory_spec (hok : ∀ d, A d → U (d.syncDirectory place)) (hf : ∀ d, A d → E d)
    (hs : ∀ d, A d → S.Safe d) :
    S.Leads A (syncDirectory place) (fun _ => U) E := by
  refine onDisk_spec ?_ hf hs
  intro d a d' hd ha
  cases Except.ok.inj ha
  exact ⟨hok d hd, fun hu => durable_of_subset hu Disk.may_syncDirectory_subset⟩

theorem unlinkAt_spec (hok : ∀ d, A d → U (d.unlink place name))
    (hp : place = S.path.directory → ∀ d, A d → none ∈ d.may S.path.directory S.path.name)
    (hf : ∀ d, A d → E d) (he : ∀ d, A d → S.Safe d) :
    S.Leads A (unlinkAt place name) (fun _ => U) E := by
  refine onDisk_spec ?_ hf he
  intro d a d' hd ha
  split at ha
  · cases ha
  · cases Except.ok.inj ha
    refine ⟨hok d hd, fun hu => ?_⟩
    by_cases hs : place = S.path.directory
    · exact absurd (hp hs d hd) hu
    · exact durable_of_directory_eq hu (Disk.directories_unlink_of_ne (Ne.symm hs))

theorem openRegularAt_spec (hok : ∀ d i, A d → d.entry place name = some i → U d)
    (hf : ∀ d, A d → E d) (hs : ∀ d, A d → S.Safe d) :
    S.Leads A (openRegularAt place name) (fun _ => U) E := by
  refine onDisk_spec ?_ hf hs
  intro d a d' hd ha
  cases he : d.entry place name with
  | none =>
    simp only [he] at ha
    cases ha
  | some i =>
    have hU := hok d i hd he
    simp only [he] at ha
    cases Except.ok.inj ha
    exact ⟨hU, id⟩

theorem replaceFile_spec {file : StoreDisk → File Bytes}
    {act : StoreDisk → Except StorageError (Unit × StoreDisk)}
    (ha : ∀ d, act d = .ok ((), d.replaceFile i (file d)))
    (hok : ∀ d, A d → U (d.replaceFile i (file d))) (hf : ∀ d, A d → E d)
    (hs : ∀ d, A d → S.Safe d) : S.Leads A (onDisk act) (fun _ => U) E := by
  refine onDisk_spec ?_ hf hs
  intro d a d' hd hr
  rw [ha d] at hr
  cases Except.ok.inj hr
  exact ⟨hok d hd, id⟩

theorem readToEnd_spec (hf : ∀ d, A d → E d) (hs : ∀ d, A d → S.Safe d) :
    S.Leads A (readToEnd file) (fun _ => A) E := by
  refine onDisk_spec ?_ hf hs
  intro d a d' hd ha
  cases Except.ok.inj ha
  exact ⟨hd, id⟩

end Operations

/-- The disk while a record is written: only drafts and the record itself are touched, and the
record is only given files with the new contents. -/
structure Journal (n : RecordName) (contents : Bytes) (d₁ d : StoreDisk) : Prop where
  outside : ∀ place, place ≠ .transactions → d.directories place = d₁.directories place
  nextFile_le : d₁.nextFile ≤ d.nextFile
  files_eq : ∀ i < d₁.nextFile, d.files i = d₁.files i
  entries : ∀ name x, x ∈ d.may .transactions name → x ∈ d₁.may .transactions name ∨
    (∃ k, name = .draft n k) ∨
      (name = .record n ∧ ∃ i, x = some i ∧ d₁.nextFile ≤ i ∧ d.files i = ⟨contents, true⟩)

namespace Journal

theorem refl (d : StoreDisk) : Journal n contents d d :=
  ⟨fun _ _ => rfl, le_rfl, fun _ _ => rfl, fun _ _ => .inl⟩

variable {i : ℕ} {codec : RecordCodec} {place : Place}

variable (h : Journal n contents d₁ d)
include h

theorem may_eq (hp : place ≠ .transactions) (name : Name) :
    d.may place name = d₁.may place name := by
  rw [Disk.may, Disk.may, h.outside place hp]

theorem entry_eq (hp : place ≠ .transactions) (name : Name) :
    d.entry place name = d₁.entry place name := by
  rw [Disk.entry, Disk.entry, h.outside place hp]

theorem durable_iff (p : StorePath) : Durable p d ↔ Durable p d₁ := by
  rw [Durable, Durable, h.may_eq p.directory_ne_transactions]

theorem durable_of_durable (h' : Journal n contents d₁ d') (hp : Durable p d) : Durable p d' := (h'.durable_iff p).2 ((h.durable_iff p).1 hp)

theorem create : Journal n contents d₁ (d.create .transactions (.draft n k) []) where
  outside := fun place hp =>
    (Disk.directories_create_of_ne hp).trans (h.outside place hp)
  nextFile_le := h.nextFile_le.trans (Nat.le_succ _)
  files_eq := by
    intro i hi
    rw [Disk.files_create_of_lt (hi.trans_le h.nextFile_le)]
    exact h.files_eq i hi
  entries := by
    intro name x hx
    rcases Disk.mem_may_create.1 hx with ho | ⟨-, rfl, -⟩
    · refine (h.entries name x ho).imp id (Or.imp id ?_)
      rintro ⟨hn, i, rfl, he, hf⟩
      refine ⟨hn, i, rfl, he, ?_⟩
      rwa [Disk.files_create_of_lt (d.linked _ _ _ ho)]
    · exact .inr (.inl ⟨k, rfl⟩)

theorem replaceFile (hn : d₁.nextFile ≤ i) (hu : ∀ m, some i ∉ d.may .transactions (.record m)) :
    Journal n contents d₁ (d.replaceFile i file) where
  outside := h.outside
  nextFile_le := h.nextFile_le
  files_eq := by
    intro j hj
    rw [Disk.files_replaceFile_of_ne (by omega)]
    exact h.files_eq j hj
  entries := by
    intro name x hx
    refine (h.entries name x hx).imp id (Or.imp id ?_)
    rintro ⟨rfl, j, rfl, hj, hf⟩
    refine ⟨rfl, j, rfl, hj, ?_⟩
    rwa [Disk.files_replaceFile_of_ne]
    rintro rfl
    exact hu _ hx

theorem unlinkDraft : Journal n contents d₁ (d.unlink .transactions (.draft n k)) where
  outside := fun place hp =>
    (Disk.directories_unlink_of_ne hp).trans (h.outside place hp)
  nextFile_le := h.nextFile_le
  files_eq := h.files_eq
  entries := by
    intro name x hx
    rcases Disk.mem_may_unlink.1 hx with ho | ⟨-, rfl, -⟩
    · exact h.entries name x ho
    · exact .inr (.inl ⟨k, rfl⟩)

theorem linkRecord (hn : d₁.nextFile ≤ i) (hf : d.files i = ⟨contents, true⟩) :
    Journal n contents d₁ (d.link .transactions (.record n) i hi) where
  outside := fun place hp =>
    (Disk.directories_link_of_ne hp).trans (h.outside place hp)
  nextFile_le := h.nextFile_le
  files_eq := h.files_eq
  entries := by
    intro name x hx
    rcases Disk.mem_may_link.1 hx with ho | ⟨-, rfl, rfl⟩
    · exact h.entries name x ho
    · exact .inr (.inr ⟨rfl, i, rfl, hn, hf⟩)

theorem syncDirectory : Journal n contents d₁ (d.syncDirectory .transactions) where
  outside := fun place hp =>
    (Disk.directories_syncDirectory_of_ne hp).trans (h.outside place hp)
  nextFile_le := h.nextFile_le
  files_eq := h.files_eq
  entries := fun name x hx => h.entries name x (Disk.may_syncDirectory_subset hx)

theorem noTemp (hn : S.NoTemp d₁) : S.NoTemp d := by
  intro t i hi
  rw [h.may_eq t.directory_ne_transactions] at hi
  exact hn t i hi

theorem onlyTemp (ho : S.OnlyTemp t d₁) : S.OnlyTemp t d := by
  intro u i hi
  rw [h.may_eq u.directory_ne_transactions] at hi
  exact ho u i hi

theorem reads (hi : i < d₁.nextFile) (hr : Reads codec d₁ i record) : Reads codec d i record := by
  rwa [Reads, h.files_eq i hi]

theorem covers (hp : parseTransaction codec contents = .ok record)
    (hc : Covers codec n record.temporary d₁) : Covers codec n record.temporary d := by
  refine ⟨fun hn => ?_, fun i hi => ?_⟩
  · rcases h.entries _ _ hn with ho | ⟨k, hd⟩ | ⟨-, i, hi, -⟩
    · exact hc.1 ho
    · cases hd
    · cases hi
  · rcases h.entries _ _ hi with ho | ⟨k, hd⟩ | ⟨-, j, hj, -, hf⟩
    · obtain ⟨state, hs⟩ := hc.2 i ho
      exact ⟨state, h.reads (d₁.linked _ _ _ ho) hs⟩
    · cases hd
    · cases Option.some.inj hj
      refine ⟨record.state, ?_, ?_⟩
      · rw [hf]
      · rw [hf]
        exact hp

theorem covers_of_ne (hne : m ≠ n) (hc : Covers codec m t d₁) : Covers codec m t d := by
  have ho : ∀ x, x ∈ d.may .transactions (.record m) → x ∈ d₁.may .transactions (.record m) := by
    intro x hx
    rcases h.entries _ _ hx with ho | ⟨k, hd⟩ | ⟨hn, -⟩
    · exact ho
    · cases hd
    · cases hn
      exact absurd rfl hne
  refine ⟨fun he => hc.1 (ho _ he), fun i hi => ?_⟩
  obtain ⟨state, hs⟩ := hc.2 i (ho _ hi)
  exact ⟨state, h.reads (d₁.linked _ _ _ (ho _ hi)) hs⟩

end Journal

variable {codec : RecordCodec} {X : StoreDisk → Prop} {state : PublicationState}

theorem covers_unique (h : Covers codec n t d) (h' : Covers codec n u d) : t = u := by
  have hl := d.entry_mem_may .transactions (.record n)
  cases he : d.entry .transactions (.record n) with
  | none =>
    rw [he] at hl
    exact absurd hl h.1
  | some i =>
    rw [he] at hl
    obtain ⟨state, -, hp⟩ := h.2 i hl
    obtain ⟨state', -, hp'⟩ := h'.2 i hl
    have hs := Except.ok.inj (hp.symm.trans hp')
    exact congrArg TransactionRecord.temporary hs

/-- Writing a record keeps the invariant, if the record is true of the disk it is written on. -/
theorem Safe.journal (h : S.Safe d₁) (ho : Journal n contents d₁ d)
    (ha : parseTransaction S.codec contents = .ok record)
    (hu : ∀ p, record.state = .published p → Durable p d₁)
    (hc : S.NoTemp d₁ ∨ Covers S.codec n record.temporary d₁) : S.Safe d where
  recoverable := by
    intro name i hi
    rcases ho.entries name _ hi with hl | ⟨k, rfl⟩ | ⟨rfl, j, hj, -, hf⟩
    · refine (h.recoverable name i hl).imp id ?_
      rintro ⟨m, other, he, hr, ht⟩
      refine ⟨m, other, he, ho.reads (d₁.linked _ _ _ hl) hr, fun p hp => ?_⟩
      exact (ho.durable_iff p).2 (ht p hp)
    · exact .inl ⟨n, k, rfl⟩
    · cases Option.some.inj hj
      refine .inr ⟨n, record, rfl, ⟨by rw [hf], by rw [hf]; exact ha⟩, fun p hp => ?_⟩
      exact (ho.durable_iff p).2 (hu p hp)
  nextFile_le := h.nextFile_le.trans ho.nextFile_le
  files_eq := by
    intro i hi
    rw [ho.files_eq i (hi.trans_le h.nextFile_le)]
    exact h.files_eq i hi
  published := by
    intro p x hx
    rw [ho.may_eq p.directory_ne_transactions] at hx
    refine (h.published p x hx).imp id ?_
    rintro ⟨hp, i, rfl, hf⟩
    refine ⟨hp, i, rfl, ?_⟩
    rw [ho.files_eq i (d₁.linked _ _ _ hx)]
    exact hf
  covered := by
    intro u i hi hw
    rw [ho.may_eq u.directory_ne_transactions] at hi
    obtain ⟨m, hm⟩ := h.covered u i hi hw
    by_cases hmn : m = n
    · subst hmn
      rcases hc with hno | hc
      · have hlt := hno u i hi
        omega
      · rw [covers_unique hm hc]
        exact ⟨m, ho.covers ha hc⟩
    · exact ⟨m, ho.covers_of_ne hmn hm⟩
  kept := by
    intro hn i hi
    rw [ho.entry_eq S.path.directory_ne_transactions,
      ho.may_eq S.path.directory_ne_transactions]
    exact h.kept hn i hi

section Records

/-- What must hold on the disk to write a record on it. -/
structure Writable (S : Setting) (n : RecordName) (contents : Bytes) (record : TransactionRecord)
    (d₁ : StoreDisk) : Prop where
  safe : S.Safe d₁
  parses : parseTransaction S.codec contents = .ok record
  published : ∀ p, record.state = .published p → Durable p d₁
  covers : S.NoTemp d₁ ∨ Covers S.codec n record.temporary d₁

theorem Writable.journal (h : S.Writable n contents record d₁)
    (hj : Journal n contents d₁ d) : S.Safe d := h.safe.journal hj h.parses h.published h.covers

/-- A draft under its name, which no record refers to yet. -/
structure Drafted (n : RecordName) (k : ℕ) (contents : Bytes) (d₁ : StoreDisk) (i : ℕ)
    (d : StoreDisk) : Prop where
  journal : Journal n contents d₁ d
  entry : d.entry .transactions (.draft n k) = some i
  new : d₁.nextFile ≤ i
  unshared : ∀ m, some i ∉ d.may .transactions (.record m)

variable {i : ℕ} {installation : TransactionInstall}

theorem Drafted.replaceFile (h : Drafted n k contents d₁ i d) :
    Drafted n k contents d₁ i (d.replaceFile i file) :=
  ⟨h.journal.replaceFile h.new h.unshared, h.entry, h.new, h.unshared⟩

variable (hwritable : S.Writable n contents record d₁)
include hwritable

theorem createDraft_spec :
    S.Leads (Journal n contents d₁) (createNewAt .transactions (.draft n k))
      (Drafted n k contents d₁) (Journal n contents d₁) := by
  refine onDisk_spec ?_ (fun _ => id) fun _ => hwritable.journal
  intro d i d' hd ha
  split at ha
  · cases ha
  · cases Except.ok.inj ha
    refine ⟨⟨hd.create, ?_, hd.nextFile_le, fun m hm => ?_⟩, hd.durable_of_durable hd.create⟩
    · rw [Disk.entry_create, if_pos ⟨rfl, rfl⟩]
    · rcases Disk.mem_may_create.1 hm with ho | ⟨-, hn, -⟩
      · have hlt := d.linked _ _ _ ho
        omega
      · cases hn

theorem writeTransactionDraft_spec :
    S.Leads (Journal n contents d₁) (writeTransactionDraft (.draft n k) contents)
      (fun _ d => ∃ i, Drafted n k contents d₁ i d ∧ d.files i = ⟨contents, true⟩)
      (Journal n contents d₁) := by
  refine .bind (createDraft_spec hwritable) fun i => ?_
  refine .bind (inspect_spec (fun d hd => hd.journal) fun d hd => hwritable.journal hd.journal)
    fun _ => ?_
  have hw : S.Leads (Drafted n k contents d₁ i) (writeAll i contents)
      (fun _ d => Drafted n k contents d₁ i d ∧ (d.files i).contents = contents)
      (Journal n contents d₁) :=
    replaceFile_spec (fun _ => rfl)
      (fun d hd => ⟨hd.replaceFile, by rw [Disk.files_replaceFile_self]⟩) (fun d hd => hd.journal)
      fun d hd => hwritable.journal hd.journal
  refine .bind hw fun _ => replaceFile_spec (fun _ => rfl) ?_ (fun d hd => hd.1.journal)
    fun d hd => hwritable.journal hd.1.journal
  exact fun d hd => ⟨i, hd.1.replaceFile, by rw [Disk.files_replaceFile_self, hd.2]⟩

/-- The record refers to the new contents, if not yet durably. -/
structure Installed (n : RecordName) (contents : Bytes) (d₁ d : StoreDisk) : Prop where
  journal : Journal n contents d₁ d
  entry : ∃ i, d.entry .transactions (.record n) = some i ∧ d.files i = ⟨contents, true⟩

omit hwritable in
theorem Drafted.linkRecord (h : Drafted n k contents d₁ i d) (hf : d.files i = ⟨contents, true⟩)
    (hi : i < d.nextFile) : Installed n contents d₁ (d.link .transactions (.record n) i hi) := by
  refine ⟨h.journal.linkRecord h.new hf, i, ?_, hf⟩
  rw [Disk.entry_link, if_pos ⟨rfl, rfl⟩]

omit hwritable in
theorem Installed.unlinkDraft (h : Installed n contents d₁ d) :
    Installed n contents d₁ (d.unlink .transactions (.draft n k)) := by
  obtain ⟨i, he, hf⟩ := h.entry
  refine ⟨h.journal.unlinkDraft, i, ?_, hf⟩
  rw [Disk.entry_unlink, if_neg fun hs => nomatch hs.2]
  exact he

theorem installRecord_spec :
    S.Leads (fun d => ∃ i, Drafted n k contents d₁ i d ∧ d.files i = ⟨contents, true⟩)
      (installRecord (.draft n k) (.record n) installation) (fun _ => Installed n contents d₁)
      (Journal n contents d₁) := by
  have hr : ∀ d, (∃ i, Drafted n k contents d₁ i d ∧ d.files i = ⟨contents, true⟩) →
      Journal n contents d₁ d := fun d ⟨_, hd, _⟩ => hd.journal
  cases installation with
  | create =>
    refine .bind (Q := fun _ => S.On (Installed n contents d₁)) ?_ fun _ => ?_
    · refine onDisk_spec ?_ hr fun d hd => hwritable.journal (hr d hd)
      rintro d a d' ⟨i, hd, hf⟩ ha
      split at ha
      · cases ha
      · next j hj =>
        cases Option.some.inj (hd.entry.symm.trans hj)
        split at ha
        · cases ha
        · cases Except.ok.inj ha
          have hi := hd.linkRecord hf (d.entry_lt hj)
          exact ⟨hi, hd.journal.durable_of_durable hi.journal⟩
    · exact unlinkAt_spec (fun d hd => hd.unlinkDraft)
        (fun hp => absurd hp S.path.directory_ne_transactions.symm)
        (fun d hd => hd.journal) fun d hd => hwritable.journal hd.journal
  | replace =>
    refine onDisk_spec ?_ hr fun d hd => hwritable.journal (hr d hd)
    rintro d a d' ⟨i, hd, hf⟩ ha
    split at ha
    · cases ha
    · next j hj =>
      cases Option.some.inj (hd.entry.symm.trans hj)
      cases Except.ok.inj ha
      have hi := (hd.linkRecord hf (d.entry_lt hj)).unlinkDraft (k := k)
      exact ⟨hi, hd.journal.durable_of_durable hi.journal⟩

theorem Installed.covers (h : Installed n contents d₁ d) :
    Covers S.codec n record.temporary (d.syncDirectory .transactions) := by
  obtain ⟨i, he, hf⟩ := h.entry
  refine ⟨fun hn => ?_, fun j hj => ?_⟩
  · rw [Disk.mem_may_syncDirectory_self, he] at hn
    cases hn
  · rw [Disk.mem_may_syncDirectory_self, he] at hj
    cases Option.some.inj hj
    refine ⟨record.state, ?_, ?_⟩
    · rw [Disk.files_syncDirectory, hf]
    · rw [Disk.files_syncDirectory, hf]
      exact hwritable.parses

theorem publishTransactionRecord_journal :
    S.Leads (Journal n contents d₁) (publishTransactionRecord n contents installation)
      (fun _ d => Journal n contents d₁ d ∧ Covers S.codec n record.temporary d)
      (Journal n contents d₁) := by
  refine .bind (Q := fun _ => S.On (Journal n contents d₁)) (.update fun s hs => hs) fun k => ?_
  refine .handle (E := fun _ => S.On (Journal n contents d₁))
    (Q := fun _ => S.On fun d => Journal n contents d₁ d ∧ Covers S.codec n record.temporary d)
    ?_ (fun _ => .pure fun s hs => hs) fun error => ?_
  · refine .bind (writeTransactionDraft_spec hwritable) fun _ => ?_
    refine .bind (installRecord_spec hwritable) fun _ => ?_
    exact syncDirectory_spec (fun d hd => ⟨hd.journal.syncDirectory, hd.covers hwritable⟩)
      (fun d hd => hd.journal) fun d hd => hwritable.journal hd.journal
  · refine .bind (Q := fun _ => S.On (Journal n contents d₁)) (.attempt ?_) fun _ =>
      .stop fun s hs => hs
    exact unlinkAt_spec (fun d hd => hd.unlinkDraft)
      (fun hp => absurd hp S.path.directory_ne_transactions.symm) (fun _ => id)
      fun _ => hwritable.journal

end Records

theorem publishTransactionRecord_spec
    (hp : parseTransaction S.codec contents = .ok record)
    (hX : ∀ d d', Journal n contents d d' → X d → X d')
    (hu : ∀ d, X d → ∀ p, record.state = .published p → Durable p d)
    (hc : ∀ d, X d → S.NoTemp d ∨ Covers S.codec n record.temporary d) :
    S.Leads (fun d => S.Safe d ∧ X d) (publishTransactionRecord n contents installation)
      (fun _ d => S.Safe d ∧ X d ∧ Covers S.codec n record.temporary d)
      (fun d => S.Safe d ∧ X d) := by
  refine .ofState fun s hs => ?_
  have hwritable : S.Writable n contents record s.disk := ⟨hs.2.1, hp, hu _ hs.2.2, hc _ hs.2.2⟩
  refine (publishTransactionRecord_journal hwritable).consequence ?_ ?_ ?_ fun _ => id
  · rintro _ rfl
    exact ⟨hs.1, Journal.refl _⟩
  · intro _ r hr
    exact ⟨hr.1, hwritable.journal hr.2.1, hX _ _ hr.2.1 hs.2.2, hr.2.2⟩
  · intro _ r hr
    exact ⟨hr.1, hwritable.journal hr.2, hX _ _ hr.2 hs.2.2⟩

theorem parse_serialize (ht : t.Generated) (h : serializeTransaction codec t state = .ok contents) :
    parseTransaction codec contents = .ok ⟨t, state⟩ := by
  simp only [serializeTransaction] at h
  split at h
  · cases h
  · next hs =>
    cases Except.ok.inj h
    rw [parseTransaction, if_neg hs, codec.decode_encode _ ht]

/-- The invariant, a record for the temporary file, and what else is known. -/
abbrev Covered (S : Setting) (n : RecordName) (t : TemporaryPath) (X : StoreDisk → Prop)
    (d : StoreDisk) : Prop := S.Safe d ∧ Covers S.codec n t d ∧ X d

/-- The transaction with this record for this temporary file. -/
abbrev Tells (transaction : PublicationTransaction) (n : RecordName) (t : TemporaryPath) : Prop :=
  transaction.name = n ∧ transaction.path = t ∧ t.Generated

theorem transition_spec (hr : Tells transaction n t)
    (hX : ∀ contents d d', Journal n contents d d' → X d → X d')
    (hu : ∀ d, X d → ∀ p, state = .published p → Durable p d) :
    Triple (S.On (S.Covered n t X)) (transaction.transition S.codec state)
      (fun next s => Tells next n t ∧ S.On (S.Covered n t X) s)
      (fun _ => S.On (S.Covered n t X)) (S.On S.Safe) := by
  obtain ⟨rfl, rfl, ht⟩ := hr
  rw [PublicationTransaction.transition]
  split
  · refine .bind (Q := fun contents s =>
      parseTransaction S.codec contents = .ok ⟨transaction.path, state⟩ ∧
        S.On (S.Covered transaction.name transaction.path X) s)
      (.ofExcept (fun _ s hc hs => ⟨parse_serialize ht hc, hs⟩) fun _ s _ hs => hs)
      fun contents => .assuming fun hp => ?_
    refine .bind (publishTransactionRecord_spec
      (X := fun d => Covers S.codec transaction.name transaction.path d ∧ X d) hp
      (fun d d' hj hd => ⟨hj.covers hp hd.1, hX _ d d' hj hd.2⟩)
      (fun d hd => hu d hd.2) fun d hd => .inr hd.1) fun _ => ?_
    exact .pure fun s hs => ⟨⟨rfl, rfl, ht⟩, hs.1, hs.2.1, hs.2.2.1⟩
  · exact .stop fun s hs => hs

end Setting

end PublicationJournal
