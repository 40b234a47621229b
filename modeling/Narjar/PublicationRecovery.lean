import Narjar.PublicationCommit
import Narjar.SelfDelimiting

/-!
# Recovery after a crash

Recovery empties a journal whose entries are all recoverable, removes the temporary files the
records name and touches nothing else. Applied to what a publication may leave on the disk,
this makes publications consistent across crashes.
-/
namespace PublicationJournal

open ByteCodecs ManifestFormat FaultyPrograms CrashDisk

/-- One name was unlinked, and perhaps its directory synced. -/
structure Removed (place : Place) (name : Name) (d d' : StoreDisk) : Prop where
  outside : ∀ other, other ≠ place → d'.directories other = d.directories other
  files_eq : d'.files = d.files
  gone : d'.entry place name = none
  others : ∀ name', name' ≠ name → d'.entry place name' = d.entry place name'

namespace Removed

variable {place : Place} {name : Name} {d d' : StoreDisk}

theorem unlink : Removed place name d (d.unlink place name) where
  outside := fun _ ho => Disk.directories_unlink_of_ne ho
  files_eq := rfl
  gone := by rw [Disk.entry_unlink, if_pos ⟨rfl, rfl⟩]
  others := by
    intro name' hn
    rw [Disk.entry_unlink, if_neg fun hs => hn hs.2]

theorem refl (h : d.entry place name = none) : Removed place name d d :=
  ⟨fun _ _ => rfl, rfl, h, fun _ _ => rfl⟩

theorem syncDirectory (h : Removed place name d d') :
    Removed place name d (d'.syncDirectory place) where
  outside := fun other ho =>
    (Disk.directories_syncDirectory_of_ne ho).trans (h.outside other ho)
  files_eq := h.files_eq
  gone := by
    rw [Disk.entry_syncDirectory]
    exact h.gone
  others := by
    intro name' hn
    rw [Disk.entry_syncDirectory]
    exact h.others name' hn

theorem entry_of_ne (h : Removed place name d d') (ho : other ≠ place)
    (name' : Name) : d'.entry other name' = d.entry other name' := by
  rw [Disk.entry, Disk.entry, h.outside other ho]

end Removed

section Operations

variable {α : Type} {d : StoreDisk} {F : StorageError → Storage → Prop}

variable {A : StoreDisk → Prop} {place : Place} {name : Name}

theorem onDisk_quiet {B : α → StoreDisk → Prop} {E : StorageError → StoreDisk → Prop}
    {act : StoreDisk → Except StorageError (α × StoreDisk)}
    (hok : ∀ d a d', A d → act d = .ok (a, d') → B a d')
    (he : ∀ d e, A d → act d = .error e → E e d) :
    Quiet (fun s => A s.disk) (onDisk act) (fun a s => B a s.disk) fun e s => E e s.disk := by
  refine .operation ?_ ?_
  · intro s a t hs ha
    cases hr : act s.disk with
    | error e =>
      rw [hr] at ha
      cases ha
    | ok r =>
      rw [hr] at ha
      cases Except.ok.inj ha
      exact hok s.disk r.1 r.2 hs hr
  · intro s e hs ha
    cases hr : act s.disk with
    | error e' =>
      rw [hr] at ha
      cases Except.error.inj ha
      exact he s.disk _ hs hr
    | ok r =>
      rw [hr] at ha
      cases ha

theorem inspect_quiet : Quiet (fun s => A s.disk) inspect (fun _ s => A s.disk) F := by
  refine (onDisk_quiet (A := A) (B := fun _ => A) (E := fun _ _ => False) ?_ ?_).consequence
    (fun _ => id) (fun _ _ => id) fun _ _ => False.elim
  · intro d a d' hd ha
    cases Except.ok.inj ha
    exact hd
  · intro d e _ ha
    cases ha

theorem syncDirectory_quiet {B : StoreDisk → Prop} (hok : ∀ d, A d → B (d.syncDirectory place)) :
    Quiet (fun s => A s.disk) (syncDirectory place) (fun _ s => B s.disk) F := by
  refine (onDisk_quiet (A := A) (B := fun _ => B) (E := fun _ _ => False) ?_ ?_).consequence
    (fun _ => id) (fun _ _ => id) fun _ _ => False.elim
  · intro d a d' hd ha
    cases Except.ok.inj ha
    exact hok d hd
  · intro d e _ ha
    cases ha

theorem openRegularAt_quiet :
    Quiet (fun s => A s.disk) (openRegularAt place name)
      (fun i s => A s.disk ∧ s.disk.entry place name = some i)
      fun e s => e = .io .notFound ∧ A s.disk ∧ s.disk.entry place name = none := by
  refine onDisk_quiet (B := fun i d => A d ∧ d.entry place name = some i)
    (E := fun e d => e = .io .notFound ∧ A d ∧ d.entry place name = none) ?_ ?_
  · intro d i d' hd ha
    cases he : d.entry place name with
    | none =>
      simp only [he] at ha
      cases ha
    | some j =>
      simp only [he] at ha
      obtain ⟨rfl, rfl⟩ := Prod.mk.inj (Except.ok.inj ha)
      exact ⟨hd, he⟩
  · intro d e hd ha
    cases he : d.entry place name with
    | none =>
      simp only [he] at ha
      exact ⟨(Except.error.inj ha).symm, hd, rfl⟩
    | some j =>
      simp only [he] at ha
      cases ha

theorem unlinkAt_quiet :
    Quiet (fun s => s.disk = d) (unlinkAt place name) (fun _ s => Removed place name d s.disk)
      fun e s => e = .io .notFound ∧ s.disk = d ∧ d.entry place name = none := by
  refine onDisk_quiet (A := fun d' => d' = d) (B := fun _ => Removed place name d)
    (E := fun e d' => e = .io .notFound ∧ d' = d ∧ d.entry place name = none) ?_ ?_
  · rintro d' _ _ rfl ha
    split at ha
    · cases ha
    · cases Except.ok.inj ha
      exact .unlink
  · rintro d' e rfl ha
    split at ha
    · next he => exact ⟨(Except.error.inj ha).symm, rfl, he⟩
    · cases ha

end Operations

section Records

variable {codec : RecordCodec} {d : StoreDisk} {F : StorageError → Storage → Prop}

theorem verifyDestination_quiet :
    Quiet (fun s => s.disk = d) (verifyDestination p) (fun _ s => s.disk = d)
      fun e s => e = .io .notFound ∧ s.disk = d ∧ d.entry p.directory p.name = none := by
  refine .bind (inspect_quiet (A := fun d' => d' = d)) fun _ => ?_
  refine .bind (Q := fun _ s => s.disk = d) ?_ fun _ => .pure fun _ => id
  refine (openRegularAt_quiet (A := fun d' => d' = d)).consequence (fun _ => id)
    (fun _ s hs => hs.1) fun e s hs => ?_
  obtain ⟨he, rfl, hn⟩ := hs
  exact ⟨he, rfl, hn⟩

theorem verifyState_quiet
    (hp : ∀ p, state = .published p → d.entry p.directory p.name ≠ none) :
    Quiet (fun s => s.disk = d) (verifyState state) (fun _ s => s.disk = d) F := by
  cases state with
  | staging | streaming | validated => exact .pure fun _ => id
  | linked p =>
    refine .handle verifyDestination_quiet (fun _ => .pure fun _ => id) fun e => ?_
    split
    · exact .pure fun s hs => hs.2.1
    · next hne => exact .stop fun s hs => absurd hs.1 hne
  | published p =>
    refine verifyDestination_quiet.consequence (fun _ => id) (fun _ _ => id) fun e s hs => ?_
    exact absurd hs.2.2 (hp p rfl)

theorem removeTemporaryPath_quiet {t} :
    Quiet (fun s => s.disk = d) (removeTemporaryPath t)
      (fun _ s => Removed t.directory t.name d s.disk) F := by
  refine .bind (inspect_quiet (A := fun d' => d' = d)) fun _ => ?_
  refine .handle unlinkAt_quiet (fun _ => syncDirectory_quiet fun _ hd => hd.syncDirectory)
    fun e => ?_
  split
  · refine .pure fun s hs => ?_
    obtain ⟨-, rfl, he⟩ := hs
    exact .refl he
  · next hne => exact .stop fun s hs => absurd hs.1 hne

variable {i : ℕ} {record : TransactionRecord}

theorem readBoundedBytes_quiet {limit : ℕ} (hs : (d.files i).contents.length ≤ limit) :
    Quiet (fun s => s.disk = d) (readBoundedBytes i limit)
      (fun bytes s => bytes = (d.files i).contents ∧ s.disk = d) F := by
  refine (onDisk_quiet (A := fun d' => d' = d)
    (B := fun bytes d' => bytes = (d.files i).contents ∧ d' = d) (E := fun _ _ => False)
    ?_ ?_).consequence (fun _ => id) (fun _ _ => id) fun _ _ => False.elim
  · rintro d' bytes _ rfl ha
    rw [if_neg (by omega)] at ha
    obtain ⟨rfl, rfl⟩ := Prod.mk.inj (Except.ok.inj ha)
    exact ⟨rfl, rfl⟩
  · rintro d' e rfl ha
    rw [if_neg (by omega)] at ha
    cases ha

theorem parse_length (h : parseTransaction codec contents = .ok record) :
    contents.length ≤ maxTransactionBytes := by
  by_contra hl
  rw [parseTransaction, if_pos (by omega)] at h
  cases h

theorem recoverNamedTransaction_quiet
    (he : d.entry .transactions (.record n) = some i) (ha : Reads codec d i record)
    (hp : ∀ p, record.state = .published p → d.entry p.directory p.name ≠ none) :
    Quiet (fun s => s.disk = d) (recoverNamedTransaction codec n)
      (fun _ s => ∃ d', Removed record.temporary.directory record.temporary.name d d' ∧
        Removed .transactions (.record n) d' s.disk) F := by
  have ho : Quiet (fun s => s.disk = d) (openRegularAt .transactions (.record n))
      (fun j s => j = i ∧ s.disk = d) F := by
    refine (openRegularAt_quiet (A := fun d' => d' = d)).consequence (fun _ => id) ?_ ?_
    · rintro j s ⟨rfl, hj⟩
      exact ⟨Option.some.inj (hj.symm.trans he), rfl⟩
    · rintro e s ⟨-, rfl, hn⟩
      rw [he] at hn
      cases hn
  refine .bind ho fun j => ?_
  refine .bind (Q := fun bytes s => bytes = (d.files i).contents ∧ s.disk = d) (.assuming ?_)
    fun bytes => ?_
  · rintro rfl
    exact readBoundedBytes_quiet (parse_length ha.2)
  refine .bind (Q := fun parsed s => parsed = record ∧ s.disk = d) (.assuming ?_) fun parsed => ?_
  · rintro rfl
    rw [ha.2]
    exact .pure fun s hs => ⟨rfl, hs⟩
  refine .bind (Q := fun _ s =>
    Removed record.temporary.directory record.temporary.name d s.disk) (.assuming ?_) fun _ => ?_
  · rintro rfl
    exact .bind (verifyState_quiet hp) fun _ => removeTemporaryPath_quiet
  · intro s hs
    refine Quiet.consequence (unlinkAt_quiet (d := s.disk)) (fun _ => id)
      (fun _ r hr => ⟨s.disk, hs, hr⟩) (fun e r hr => ?_) s rfl
    -- The record is still there: only a temporary file has been unlinked.
    have hk := hs.entry_of_ne record.temporary.directory_ne_transactions.symm (.record n)
    rw [hr.2.2, he] at hk
    cases hk

end Records

section Journal

variable {codec : RecordCodec} {d d' d₁ : StoreDisk} {F : StorageError → Storage → Prop}

/-- The disk during recovery, when some entries have been handled. -/
structure Recovering (codec : RecordCodec) (d₁ : StoreDisk) (handled : List TransactionEntry)
    (d : StoreDisk) : Prop where
  store : ∀ p : StorePath, d.directories p.directory = d₁.directories p.directory
  files_eq : d.files = d₁.files
  gone : ∀ entry ∈ handled, d.entry .transactions entry.name = none
  others : ∀ name, (∀ entry ∈ handled, entry.name ≠ name) →
    d.entry .transactions name = d₁.entry .transactions name
  temporaries : ∀ t : TemporaryPath, d.entry t.directory t.name = none ∨
    d.entry t.directory t.name = d₁.entry t.directory t.name
  removed : ∀ n, .record n ∈ handled → ∀ i record, d₁.entry .transactions (.record n) = some i →
    Reads codec d₁ i record →
      d.entry record.temporary.directory record.temporary.name = none

namespace Recovering

variable {handled : List TransactionEntry} {entry : TransactionEntry}

theorem start (d : StoreDisk) : Recovering codec d [] d where
  store := fun _ => rfl
  files_eq := rfl
  gone := fun _ h => nomatch h
  others := fun _ _ => rfl
  temporaries := fun _ => .inr rfl
  removed := fun _ h => nomatch h

theorem syncDirectory (h : Recovering codec d₁ handled d) :
    Recovering codec d₁ handled (d.syncDirectory .transactions) where
  store := fun p =>
    (Disk.directories_syncDirectory_of_ne p.directory_ne_transactions).trans (h.store p)
  files_eq := h.files_eq
  gone := by simpa only [Disk.entry_syncDirectory] using h.gone
  others := by simpa only [Disk.entry_syncDirectory] using h.others
  temporaries := by simpa only [Disk.entry_syncDirectory] using h.temporaries
  removed := by simpa only [Disk.entry_syncDirectory] using h.removed

theorem removeTemporary (h : Recovering codec d₁ handled d) {t : TemporaryPath}
    (hr : Removed t.directory t.name d d') :
    Recovering codec d₁ handled d' ∧ d'.entry t.directory t.name = none := by
  have he : ∀ u : TemporaryPath, d'.entry u.directory u.name = none ∨
      d'.entry u.directory u.name = d.entry u.directory u.name := by
    intro u
    by_cases hd : u.directory = t.directory
    · by_cases ha : u.name = t.name
      · rw [hd, ha]
        exact .inl hr.gone
      · rw [hd]
        exact .inr (hr.others _ ha)
    · exact .inr (hr.entry_of_ne hd _)
  have hj := hr.entry_of_ne t.directory_ne_transactions.symm
  refine ⟨⟨fun p => ?_, hr.files_eq.trans h.files_eq, ?_, ?_, fun u => ?_, ?_⟩, hr.gone⟩
  · exact (hr.outside _ (p.directory_ne_temporary t)).trans (h.store p)
  · simpa only [hj] using h.gone
  · simpa only [hj] using h.others
  · rcases he u with ho | hs
    · exact .inl ho
    · rw [hs]
      exact h.temporaries u
  · intro n hn i record hi hre
    rcases he record.temporary with ho | hs
    · exact ho
    · rw [hs]
      exact h.removed n hn i record hi hre

theorem removeEntry (h : Recovering codec d₁ handled d) (hr : Removed .transactions entry.name d d')
    (hm : ∀ n, entry = .record n → ∀ i record,
      d₁.entry .transactions (.record n) = some i → Reads codec d₁ i record →
        d.entry record.temporary.directory record.temporary.name = none) :
    Recovering codec d₁ (handled ++ [entry]) d' := by
  have hu : ∀ t : TemporaryPath, d'.entry t.directory t.name = d.entry t.directory t.name :=
    fun t => hr.entry_of_ne t.directory_ne_transactions _
  refine ⟨fun p => ?_, hr.files_eq.trans h.files_eq, fun other ht => ?_,
    fun name ha => ?_, fun t => ?_, fun n hn i record hi hd => ?_⟩
  · exact (hr.outside _ p.directory_ne_transactions).trans (h.store p)
  · by_cases hs : other.name = entry.name
    · rw [hs]
      exact hr.gone
    · rw [hr.others _ hs]
      rcases List.mem_append.1 ht with ho | he
      · exact h.gone other ho
      · rw [List.mem_singleton.1 he] at hs
        exact absurd rfl hs
  · rw [hr.others name (ha entry (by simp)).symm]
    exact h.others name fun other ht => ha other (List.mem_append_left _ ht)
  · rw [hu]
    exact h.temporaries t
  · rw [hu]
    rcases List.mem_append.1 hn with ho | he
    · exact h.removed n ho i record hi hd
    · exact hm n (List.mem_singleton.1 he).symm i record hi hd

end Recovering

theorem Reads.unique (h : Reads codec d i record)
    (h' : Reads codec d i record') : record = record' := Except.ok.inj (h.2.symm.trans h'.2)

variable {names : List Name} {entry : TransactionEntry}

theorem clearEntry_quiet {handled : List TransactionEntry} (hre : Recoverable codec d₁)
    (hf : ∀ other ∈ handled, other.name ≠ entry.name)
    (hl : d₁.entry .transactions entry.name ≠ none) :
    Quiet (fun s => Recovering codec d₁ handled s.disk) (clearEntry codec entry)
      (fun _ s => Recovering codec d₁ (handled ++ [entry]) s.disk) F := by
  intro s hs
  have hth : s.disk.entry .transactions entry.name ≠ none := by
    rwa [hs.others _ hf]
  cases entry with
  | draft n k =>
    refine Quiet.consequence (unlinkAt_quiet (d := s.disk)) (fun _ => id) (fun _ r hr => ?_)
      (fun e r hr => absurd hr.2.2 hth) s rfl
    exact hs.removeEntry hr fun n hn => nomatch hn
  | record n =>
    obtain ⟨i, hi⟩ := Option.ne_none_iff_exists'.1 hl
    have ha := hi ▸ d₁.entry_mem_may _ _
    rcases hre _ i ha with ⟨m, k, hd⟩ | ⟨m, record, hna, he, hu⟩
    · cases hd
    cases hna
    have ht := (hs.others _ hf).trans hi
    have he' : Reads codec s.disk i record := by rwa [Reads, hs.files_eq]
    refine Quiet.consequence (recoverNamedTransaction_quiet ht he' fun p hp ho => ?_)
      (fun _ => id) (fun _ r hr => ?_) (fun e r => id) s rfl
    · rw [Disk.entry, hs.store p] at ho
      exact hu p hp (ho ▸ d₁.entry_mem_may p.directory p.name)
    · obtain ⟨d', hte, hc⟩ := hr
      obtain ⟨hd', hg⟩ := hs.removeTemporary hte
      refine hd'.removeEntry hc fun m hm j other hj hh => ?_
      cases hm
      cases Option.some.inj (hj.symm.trans hi)
      rw [hh.unique he]
      exact hg

structure Lists (names : List Name) (d : StoreDisk) : Prop where
  nodup : names.Nodup
  mem_iff : ∀ name, name ∈ names ↔ d.entry .transactions name ≠ none

theorem parse_names (h : ∀ name ∈ names, ∃ entry, TransactionEntry.parse name = .ok entry) :
    ∃ entries, names.mapM TransactionEntry.parse = .ok entries ∧
      entries.map TransactionEntry.name = names := by
  induction names with
  | nil => exact ⟨[], rfl, rfl⟩
  | cons name names ih =>
    obtain ⟨entry, he⟩ := h name List.mem_cons_self
    obtain ⟨entries, hn, hm⟩ := ih fun other ho => h other (List.mem_cons_of_mem _ ho)
    have ha : entry.name = name := by
      cases name with
      | record | draft => exact Except.ok.inj he ▸ rfl
      | temporary | file => cases he
    refine ⟨entry :: entries, ?_, ?_⟩
    · rw [List.mapM_cons, he, hn]
      rfl
    · rw [List.map_cons, ha, hm]

theorem Recoverable.parse (h : Recoverable codec d)
    (he : d.entry .transactions name ≠ none) :
    ∃ entry, TransactionEntry.parse name = .ok entry := by
  obtain ⟨i, hi⟩ := Option.ne_none_iff_exists'.1 he
  rcases h name i (hi ▸ d.entry_mem_may _ _) with ⟨n, k, rfl⟩ | ⟨n, record, rfl, -⟩
  · exact ⟨.draft n k, rfl⟩
  · exact ⟨.record n, rfl⟩

theorem validateEntry_quiet (he : d.entry .transactions entry.name ≠ none) :
    Quiet (fun s => s.disk = d) (validateEntry entry) (fun _ s => s.disk = d) F := by
  refine .bind (inspect_quiet (A := fun d' => d' = d)) fun _ => ?_
  cases entry with
  | draft n k => exact .pure fun _ => id
  | record n =>
    refine .bind (Q := fun _ s => s.disk = d) ?_ fun _ => .pure fun _ => id
    refine (openRegularAt_quiet (A := fun d' => d' = d)).consequence (fun _ => id)
      (fun _ s hs => hs.1) fun e s hs => ?_
    obtain ⟨-, rfl, hn⟩ := hs
    exact absurd hn he

theorem transactionEntries_quiet (hn : Lists names d)
    (hp : ∀ name, d.entry .transactions name ≠ none →
      ∃ entry, TransactionEntry.parse name = .ok entry) :
    Quiet (fun s => s.disk = d) (transactionEntries names)
      (fun entries s => (entries.map TransactionEntry.name = names ∧
        ∀ entry ∈ entries, d.entry .transactions entry.name ≠ none) ∧ s.disk = d) F := by
  obtain ⟨entries, he, hm⟩ := parse_names fun name ha => hp name ((hn.mem_iff name).1 ha)
  have hl : ∀ entry ∈ entries, d.entry .transactions entry.name ≠ none := by
    intro entry ht
    rw [← hn.mem_iff, ← hm]
    exact List.mem_map_of_mem ht
  rw [transactionEntries, he]
  refine .bind (Q := fun listed s => listed = entries ∧ s.disk = d)
    (.pure fun s hs => ⟨rfl, hs⟩) fun listed => .assuming fun hq => ?_
  subst hq
  refine .bind (Q := fun _ s => s.disk = d) ?_ fun _ => .pure fun s hs => ⟨⟨hm, hl⟩, hs⟩
  refine Quiet.forEach (K := fun _ (s : Storage) => s.disk = d) ?_
  intro done entry rest hi
  exact validateEntry_quiet (hl entry (by rw [hi]; simp))

theorem clearTransactions_quiet (hr : Recoverable codec d) (hn : Lists names d) :
    Quiet (fun s => s.disk = d) (clearTransactions codec names)
      (fun _ s => ∃ entries, entries.map TransactionEntry.name = names ∧
        Recovering codec d entries s.disk) F := by
  refine .bind (transactionEntries_quiet hn fun _ => hr.parse) fun listed =>
    .assuming fun hi => ?_
  obtain ⟨hm, hl⟩ := hi
  refine .bind (Q := fun _ s => Recovering codec d listed s.disk) ?_ fun _ =>
    syncDirectory_quiet (A := Recovering codec d listed)
      (B := fun d' => ∃ entries, entries.map TransactionEntry.name = names ∧
        Recovering codec d entries d') fun d' hd' => ⟨listed, hm, hd'.syncDirectory⟩
  refine Quiet.consequence (Quiet.forEach (K := fun handled (s : Storage) => Recovering codec d handled s.disk)
    ?_) (fun s hs => hs ▸ .start _) (fun _ _ => id) fun _ _ => id
  intro done entry rest hp
  refine clearEntry_quiet hr (fun other ht ha => ?_)
    (hl entry (by rw [hp]; simp))
  -- A listing has no name twice.
  have ho := hn.nodup
  rw [← hm, hp, List.map_append, List.map_cons] at ho
  exact (List.nodup_append.1 ho).2.2 _ (List.mem_map_of_mem ht) _ List.mem_cons_self ha

end Journal

section Restart

variable {codec : RecordCodec} {d d' : StoreDisk}

/-- What recovery may find: the disk as it was left by the process, or what a crash left of it. -/
def Restart (d d' : StoreDisk) : Prop := d' = d ∨ Disk.CrashOf d d'

theorem Restart.may_subset (h : Restart d d') (place : Place) (name : Name) :
    d'.may place name ⊆ d.may place name := by
  rcases h with rfl | hc
  · exact subset_rfl
  · exact hc.may_subset

theorem Restart.entry_mem_may (h : Restart d d') (place : Place) (name : Name) :
    d'.entry place name ∈ d.may place name := h.may_subset place name (d'.entry_mem_may place name)

variable {i : ℕ}

theorem Restart.files_eq (h : Restart d d') (hi : (d.files i).synced = true) :
    d'.files i = d.files i := by
  rcases h with rfl | hc
  · rfl
  · exact hc.files i hi

theorem Restart.reads (h : Restart d d') (hr : Reads codec d i record) :
    Reads codec d' i record := by
  rwa [Reads, h.files_eq hr.1]

theorem Recoverable.restart (h : Recoverable codec d) (hr : Restart d d') :
    Recoverable codec d' := by
  intro name i hi
  refine (h name i (hr.may_subset _ _ hi)).imp id ?_
  rintro ⟨n, record, hn, he, hu⟩
  refine ⟨n, record, hn, hr.reads he, fun p hp => ?_⟩
  exact Setting.durable_of_subset (hu p hp) (hr.may_subset _ _)

/-- The path holds what a restart before the publication could have left there. -/
def AsBefore (before d : StoreDisk) (p : StorePath) : Prop :=
  ∃ d', Restart before d' ∧ d.entry p.directory p.name = d'.entry p.directory p.name ∧
    ∀ i, d.entry p.directory p.name = some i → d.files i = d'.files i

theorem asBefore_of_mem
    (hm : d.entry p.directory p.name ∈ before.may p.directory p.name)
    (hl : ∀ i < before.nextFile, (before.files i).synced = true → d.files i = before.files i) :
    AsBefore before d p := by
  classical
  obtain ⟨d', hc, he, hd'⟩ := Disk.exists_crash hm
    (fun i => if (before.files i).synced = true then before.files i else d.files i)
    fun i hi => if_pos hi
  refine ⟨d', .inr hc, he.symm, fun i hi => ?_⟩
  rw [hi] at hm
  have hf := congrFun hd' i
  by_cases hs : (before.files i).synced = true
  · rw [hf, if_pos hs]
    exact hl i (before.linked _ _ _ hm) hs
  · rw [hf, if_neg hs]

structure Consistent (S : Setting) (d : StoreDisk) : Prop where
  no_record : ∀ name, d.entry .transactions name = none
  no_temporary : ∀ (t : TemporaryPath) i, d.entry t.directory t.name = some i →
    i < S.before.nextFile
  destination : AsBefore S.before d S.path ∨
    ∃ i, d.entry S.path.directory S.path.name = some i ∧ (d.files i).contents = S.source
  elsewhere : ∀ p, p ≠ S.path → AsBefore S.before d p
  existing : S.destination.publication = .link →
    S.before.entry S.path.directory S.path.name ≠ none → AsBefore S.before d S.path

variable {S : Setting} {left restarted : StoreDisk} {entries : List TransactionEntry}
  {names : List Name}

theorem consistent_of_recovering (hs : S.Safe left) (hr : Restart left restarted)
    (hna : Lists names restarted) (ht : entries.map TransactionEntry.name = names)
    (h : Recovering S.codec restarted entries d) : Consistent S d := by
  have hst : ∀ p : StorePath,
      d.entry p.directory p.name ∈ left.may p.directory p.name := by
    intro p
    rw [Disk.entry, h.store p]
    exact hr.entry_mem_may p.directory p.name
  have hl : ∀ i, (left.files i).synced = true → d.files i = left.files i := by
    intro i hi
    rw [h.files_eq]
    exact hr.files_eq hi
  have hb : ∀ i < S.before.nextFile, (S.before.files i).synced = true →
      d.files i = S.before.files i := by
    intro i hi hy
    have hk := hs.files_eq i hi
    rw [hl i (by rwa [hk]), hk]
  refine ⟨fun name => ?_, fun t i hi => ?_, ?_, fun p hp => ?_, fun hln hpr => ?_⟩
  · by_cases hn : name ∈ names
    · rw [← ht] at hn
      obtain ⟨entry, he, rfl⟩ := List.mem_map.1 hn
      exact h.gone entry he
    · rw [h.others name fun entry he ha => hn ?_]
      · by_contra hh
        exact hn ((hna.mem_iff name).2 hh)
      · rw [← ht, ← ha]
        exact List.mem_map_of_mem he
  · -- A temporary file of the publication is named by a record, which recovery has handled.
    by_contra hw
    have hh : restarted.entry t.directory t.name = some i := by
      rcases h.temporaries t with hno | ha
      · rw [hi] at hno
        cases hno
      · rw [← ha, hi]
    have hm := hr.entry_mem_may t.directory t.name
    rw [hh] at hm
    obtain ⟨n, hpr, hv⟩ := hs.covered t i hm (by omega)
    have hc := hr.entry_mem_may .transactions (.record n)
    cases he : restarted.entry .transactions (.record n) with
    | none =>
      rw [he] at hc
      exact hpr hc
    | some j =>
      rw [he] at hc
      obtain ⟨state, hd⟩ := hv j hc
      have hli : Name.record n ∈ names := by
        rw [hna.mem_iff, he]
        exact Option.some_ne_none j
      rw [← ht] at hli
      obtain ⟨entry, hme, hn⟩ := List.mem_map.1 hli
      cases entry with
      | draft m k => cases hn
      | record m =>
        cases hn
        have hg := h.removed n hme j _ he (hr.reads hd)
        rw [hi] at hg
        cases hg
  · rcases hs.published S.path _ (hst S.path) with ho | ⟨-, i, hi, hf⟩
    · exact .inl (asBefore_of_mem ho hb)
    · refine .inr ⟨i, hi, ?_⟩
      rw [hl i (by rw [hf]), hf]
  · rcases hs.published p _ (hst p) with ho | ⟨hpa, -⟩
    · exact asBefore_of_mem ho hb
    · exact absurd hpa hp
  · obtain ⟨i, hi⟩ := Option.ne_none_iff_exists'.1 hpr
    exact asBefore_of_mem ((hs.kept hln i hi).2 _ (hst S.path)) hb

end Restart

/-- A publication, with a failure or a crash at any of its operations, a restart that loses any
part of the changes not yet synced, and recovery. -/
theorem publish_crash_consistent (sha256 : Bytes → Digest) (activity : PublicationActivity)
    (target : PublicationDestination) (S : Setting) (hjournal : Recoverable S.codec S.before)
    (process nextTransaction nextTemp : ℕ) (faults : List Fault) :
    let left := (publish S.codec sha256 activity target S.destination S.source
      (.start S.before process nextTransaction nextTemp) faults).state
    -- The journal can be recovered at any later time.
    Recoverable S.codec left.disk ∧
    -- A link-type publication leaves an existing destination alone.
    (S.destination.publication = .link →
      ∀ i, S.before.entry S.path.directory S.path.name = some i →
        left.disk.entry S.path.directory S.path.name = some i ∧
          left.disk.files i = S.before.files i) ∧
    ∀ restarted names process' nextTransaction' nextTemp', Restart left.disk restarted →
      Lists names restarted →
        ∃ recovered, clearTransactions S.codec names
            (.start restarted process' nextTransaction' nextTemp') [] =
              ⟨.done (), recovered, []⟩ ∧
          Consistent S recovered.disk ∧
          -- Recovery itself changes no destination.
          (∀ p : StorePath, recovered.disk.entry p.directory p.name =
            restarted.entry p.directory p.name) ∧
          recovered.disk.files = restarted.files ∧
          -- A destination that was durable at any time is still there.
          ∀ d ∈ left.history, Durable S.path d →
            recovered.disk.entry S.path.directory S.path.name ≠ none := by
  intro left
  have hf : S.On S.Safe left := by
    have hp := Setting.publish_spec (S := S) sha256 activity target
      (.start S.before process nextTransaction nextTemp) faults
      ⟨(fun _ h => nomatch h), Setting.safe_before hjournal, Setting.noTemp_before⟩
    simp only [Outcome.Meets] at hp
    split at hp
    all_goals exact hp
  obtain ⟨hl, hs⟩ := hf
  refine ⟨hs.recoverable, fun hk i hi => ?_, ?_⟩
  · exact ⟨(hs.kept hk i hi).1, hs.files_eq i (S.before.entry_lt hi)⟩
  intro restarted names process' nextTransaction' nextTemp' he ha
  obtain ⟨_, recovered, hru, entries, ht, hr⟩ :=
    (clearTransactions_quiet (hs.recoverable.restart he) ha).returns
      (s := .start restarted process' nextTransaction' nextTemp') rfl
  have hn : ∀ p : StorePath, recovered.disk.entry p.directory p.name =
      restarted.entry p.directory p.name := by
    intro p
    rw [Disk.entry, Disk.entry, hr.store p]
  refine ⟨recovered, hru, consistent_of_recovering hs he ha ht hr,
    hn, hr.files_eq, fun d hd hu ho => ?_⟩
  refine hl d hd hu ?_
  rw [← ho, hn]
  exact he.entry_mem_may _ _

section Sample

open SelfDelimiting

def storePathCodec : Codec StorePath :=
  (Codec.pair .number (.list .byte)).through
    (fun
      | .root name => (0, name)
      | .nar name => (1, name)
      | .ingestionReceipt name => (2, name)
      | .egressReceipt name => (3, name)
      | .advertisement name => (4, name))
    (fun
      | (0, name) => .root name
      | (1, name) => .nar name
      | (2, name) => .ingestionReceipt name
      | (3, name) => .egressReceipt name
      | (_, name) => .advertisement name)
    fun path => by cases path <;> rfl

def stateCodec : Codec PublicationState :=
  (Codec.sum .number (.pair .number storePathCodec)).through
    (fun
      | .staging => .inl 0
      | .streaming => .inl 1
      | .validated => .inl 2
      | .linked path => .inr (0, path)
      | .published path => .inr (1, path))
    (fun
      | .inl 0 => .staging
      | .inl 1 => .streaming
      | .inl _ => .validated
      | .inr (0, path) => .linked path
      | .inr (_, path) => .published path)
    fun state => by cases state <;> rfl

/-- Records of generated names; the others need not read back. -/
def recordCodec : RecordCodec :=
  let name : Codec (Bytes × ℕ × ℕ) := .pair (.list .byte) (.pair .number .number)
  let codec := Codec.pair (.sum name name) stateCodec
  { encode
      | ⟨.root (.temporary text process k), state⟩ => codec.put (.inl (text, process, k), state)
      | ⟨.nar (.temporary text process k), state⟩ => codec.put (.inr (text, process, k), state)
      | _ => []
    decode := fun bytes => (codec.decodeComplete bytes).map fun
      | (.inl (text, process, k), state) => ⟨.root (.temporary text process k), state⟩
      | (.inr (text, process, k), state) => ⟨.nar (.temporary text process k), state⟩
    decode_encode := by
      rintro ⟨name | name, state⟩ ⟨text, process, k, h⟩
      all_goals
        cases (h : name = _)
        simp [codec.decodeComplete_put] }

def sampleDisk : StoreDisk where
  directories place := ⟨fun name =>
    if place = .root ∧ name = .file [97] then some 0 else none, []⟩
  files _ := ⟨[1], true⟩
  nextFile := 1
  linked := by
    intro place name i hi
    rw [DirectoryDurability.Directory.mem_possible] at hi
    rcases hi with hi | ⟨change, hmem, -⟩
    · dsimp only at hi
      split_ifs at hi
      cases hi
      decide
    · cases hmem

def sampleSetting : Setting := ⟨recordCodec, sampleDisk, ⟨.root [98], .root, .link, []⟩, [2]⟩

def sampleDigest (_ : Bytes) : Digest := ⟨List.replicate 32 0, length_zeros⟩

/-- A crash between the link and the sync of its directory. -/
def sampleFaults : List Fault := List.replicate 40 .none ++ [.crash]

theorem sampleDisk_recoverable : Recoverable recordCodec sampleDisk := by
  intro name i hi
  rw [Disk.may, DirectoryDurability.Directory.mem_possible] at hi
  rcases hi with hi | ⟨change, hm, -⟩
  · cases hi
  · cases hm

theorem sampleSetting_crash_consistent :
    Recoverable recordCodec sampleDisk ∧
    ∀ restarted names,
      Restart (publish sampleSetting.codec sampleDigest .operation sampleSetting.destination
        sampleSetting.destination sampleSetting.source (.start sampleSetting.before 1 0 0)
        sampleFaults).state.disk restarted →
      Lists names restarted →
        ∃ recovered, clearTransactions sampleSetting.codec names (.start restarted 1 0 0) [] =
          ⟨.done (), recovered, []⟩ ∧ Consistent sampleSetting recovered.disk := by
  refine ⟨sampleDisk_recoverable, ?_⟩
  intro restarted names he hn
  obtain ⟨-, -, hr⟩ := publish_crash_consistent sampleDigest .operation
    sampleSetting.destination sampleSetting sampleDisk_recoverable 1 0 0 sampleFaults
  obtain ⟨recovered, hu, hc, -⟩ := hr restarted names 1 0 0 he hn
  exact ⟨recovered, hu, hc⟩

end Sample

end PublicationJournal
