import Narjar.DirectoryDurability

/-!
# Files in directories and crashes

Several directories whose entries refer to numbered files. A crash keeps the contents of the
files that were synced and any part of the unsynced changes of every directory.
-/
namespace CrashDisk

open DirectoryDurability

variable {κ α β : Type}

structure File (β : Type) where
  contents : β
  synced : Bool
  deriving DecidableEq

/-- Entries only refer to files that have been created. -/
structure Disk (κ α β : Type) [DecidableEq α] where
  directories : κ → Directory α ℕ
  files : ℕ → File β
  nextFile : ℕ
  linked : ∀ place name i, some i ∈ (directories place).possible name → i < nextFile

namespace Disk

variable [DecidableEq κ] [DecidableEq α]

def entry (d : Disk κ α β) (place : κ) (name : α) : Option ℕ := (d.directories place).live name

def may (d : Disk κ α β) (place : κ) (name : α) : Set (Option ℕ) :=
  (d.directories place).possible name

omit [DecidableEq κ] in
theorem entry_mem_may (d : Disk κ α β) (place : κ) (name : α) :
    d.entry place name ∈ d.may place name := Directory.live_mem_possible _ _

omit [DecidableEq κ] in
theorem entry_lt (d : Disk κ α β) (h : d.entry place name = some i) :
    i < d.nextFile := d.linked place name i (h ▸ d.entry_mem_may place name)

def change (d : Disk κ α β) (place : κ) (c : Change α ℕ)
    (hc : ∀ i, c.result = some i → i < d.nextFile) : Disk κ α β where
  directories := Function.update d.directories place ((d.directories place).record c)
  files := d.files
  nextFile := d.nextFile
  linked := by
    intro other name i hi
    by_cases hplace : other = place
    · subst hplace
      rw [Function.update_self, Directory.mem_possible_record] at hi
      exact hi.elim (d.linked other name i) fun hnew => hc i hnew.2.symm
    · rw [Function.update_of_ne hplace] at hi
      exact d.linked other name i hi

def link (d : Disk κ α β) (place : κ) (name : α) (i : ℕ) (hi : i < d.nextFile) : Disk κ α β :=
  d.change place (.link name i) fun _ h => Option.some.inj h ▸ hi

def unlink (d : Disk κ α β) (place : κ) (name : α) : Disk κ α β :=
  d.change place (.unlink name) fun _ h => nomatch h

def allocate (d : Disk κ α β) (contents : β) : Disk κ α β where
  directories := d.directories
  files := Function.update d.files d.nextFile ⟨contents, false⟩
  nextFile := d.nextFile + 1
  linked := fun place name i h => Nat.lt_succ_of_lt (d.linked place name i h)

def create (d : Disk κ α β) (place : κ) (name : α) (contents : β) : Disk κ α β :=
  (d.allocate contents).link place name d.nextFile (Nat.lt_succ_self _)

def replaceFile (d : Disk κ α β) (i : ℕ) (file : File β) : Disk κ α β :=
  { d with files := Function.update d.files i file }

def write (d : Disk κ α β) (i : ℕ) (contents : β) : Disk κ α β := d.replaceFile i ⟨contents, false⟩

def syncFile (d : Disk κ α β) (i : ℕ) : Disk κ α β := d.replaceFile i ⟨(d.files i).contents, true⟩

def syncDirectory (d : Disk κ α β) (place : κ) : Disk κ α β where
  directories := Function.update d.directories place (d.directories place).sync
  files := d.files
  nextFile := d.nextFile
  linked := by
    intro other name i hi
    by_cases hplace : other = place
    · subst hplace
      rw [Function.update_self, Directory.mem_possible_sync] at hi
      exact d.linked other name i (hi ▸ Directory.live_mem_possible _ _)
    · rw [Function.update_of_ne hplace] at hi
      exact d.linked other name i hi

variable {d : Disk κ α β} {place other : κ} {name name' : α} {i j : ℕ} {x : Option ℕ} {contents : β}
variable {c : Change α ℕ} {hc : ∀ i, c.result = some i → i < d.nextFile} {hi : i < d.nextFile}

theorem entry_change :
    (d.change place c hc).entry other name =
      if other = place ∧ name = c.name then c.result else d.entry other name := by
  by_cases hp : other = place
  · subst hp
    simp only [entry, change, Function.update_self, Directory.live_record, Change.apply, true_and]
    by_cases hn : name = c.name
    · rw [hn, Function.update_self, if_pos rfl]
    · rw [Function.update_of_ne hn, if_neg hn]
  · simp [entry, change, hp]

theorem mem_may_change :
    x ∈ (d.change place c hc).may other name ↔
      x ∈ d.may other name ∨ (other = place ∧ c.name = name ∧ x = c.result) := by
  by_cases hp : other = place
  · subst hp
    simp [may, change, Directory.mem_possible_record]
  · simp [may, change, hp]

theorem entry_link :
    (d.link place name i hi).entry other name' =
      if other = place ∧ name' = name then some i else d.entry other name' := entry_change

theorem mem_may_link :
    x ∈ (d.link place name i hi).may other name' ↔
      x ∈ d.may other name' ∨ (other = place ∧ name = name' ∧ x = some i) := mem_may_change

theorem entry_unlink :
    (d.unlink place name).entry other name' =
      if other = place ∧ name' = name then none else d.entry other name' := entry_change

theorem mem_may_unlink :
    x ∈ (d.unlink place name).may other name' ↔
      x ∈ d.may other name' ∨ (other = place ∧ name = name' ∧ x = none) := mem_may_change

theorem entry_create :
    (d.create place name contents).entry other name' =
      if other = place ∧ name' = name then some d.nextFile else d.entry other name' :=
  entry_link (d := d.allocate contents)

theorem mem_may_create :
    x ∈ (d.create place name contents).may other name' ↔
      x ∈ d.may other name' ∨ (other = place ∧ name = name' ∧ x = some d.nextFile) :=
  mem_may_link (d := d.allocate contents)

theorem entry_syncDirectory : (d.syncDirectory place).entry other name = d.entry other name := by
  by_cases hp : other = place
  · subst hp
    simp [entry, syncDirectory]
  · simp [entry, syncDirectory, Function.update_of_ne hp]

theorem mem_may_syncDirectory_self :
    x ∈ (d.syncDirectory place).may place name ↔ x = d.entry place name := by
  simp [may, syncDirectory, entry]

theorem may_syncDirectory_of_ne (h : other ≠ place) :
    (d.syncDirectory place).may other name = d.may other name := by
  simp [may, syncDirectory, Function.update_of_ne h]

theorem may_syncDirectory_subset : (d.syncDirectory place).may other name ⊆ d.may other name := by
  intro x hx
  by_cases hp : other = place
  · subst hp
    rw [mem_may_syncDirectory_self] at hx
    exact hx ▸ d.entry_mem_may other name
  · rwa [may_syncDirectory_of_ne hp] at hx

section

variable (h : other ≠ place)
include h

theorem directories_change_of_ne :
    (d.change place c hc).directories other = d.directories other := Function.update_of_ne h ..

theorem directories_link_of_ne :
    (d.link place name i hi).directories other = d.directories other := directories_change_of_ne h

theorem directories_unlink_of_ne :
    (d.unlink place name).directories other = d.directories other := directories_change_of_ne h

theorem directories_create_of_ne :
    (d.create place name contents).directories other = d.directories other :=
  directories_link_of_ne (d := d.allocate contents) h

theorem directories_syncDirectory_of_ne :
    (d.syncDirectory place).directories other = d.directories other := Function.update_of_ne h ..

end

omit [DecidableEq κ] in
theorem files_replaceFile_self : (d.replaceFile i file).files i = file :=
  Function.update_self ..

omit [DecidableEq κ] in
theorem files_replaceFile_of_ne (h : j ≠ i) :
    (d.replaceFile i file).files j = d.files j := Function.update_of_ne h ..

@[simp] theorem files_syncDirectory : (d.syncDirectory place).files = d.files := rfl

theorem files_create_of_lt (h : j < d.nextFile) : (d.create place name contents).files j = d.files j :=
  Function.update_of_ne (Nat.ne_of_lt h) ..

/-- What the disk may hold after a crash. -/
structure CrashOf (d d' : Disk κ α β) : Prop where
  survives : ∀ place, (d.directories place).Survives (d'.directories place).synced
  settled : ∀ place, (d'.directories place).unsynced = []
  files : ∀ i, (d.files i).synced = true → d'.files i = d.files i

variable {d' : Disk κ α β}

omit [DecidableEq κ] in
theorem CrashOf.entry_eq (h : CrashOf d d') : d'.entry place name = (d'.directories place).synced name := by
  rw [entry, Directory.live, h.settled place]
  rfl

omit [DecidableEq κ] in
theorem CrashOf.entry_mem_may (h : CrashOf d d') : d'.entry place name ∈ d.may place name := by
  rw [h.entry_eq]
  exact (h.survives place).mem_possible name

omit [DecidableEq κ] in
theorem CrashOf.mem_may (h : CrashOf d d') : x ∈ d'.may place name ↔ x = d'.entry place name := by
  rw [h.entry_eq, may, Directory.mem_possible, h.settled place]
  simp

omit [DecidableEq κ] in
theorem CrashOf.may_subset (h : CrashOf d d') : d'.may place name ⊆ d.may place name := by
  intro x hx
  rw [h.mem_may] at hx
  exact hx ▸ h.entry_mem_may

omit [DecidableEq κ] in
/-- Whatever a crash may leave under a name is left by one, with any contents of the files that
were not synced. -/
theorem exists_crash (hx : x ∈ d.may place name) (files : ℕ → File β)
    (hf : ∀ i, (d.files i).synced = true → files i = d.files i) :
    ∃ d' : Disk κ α β, CrashOf d d' ∧ d'.entry place name = x ∧ d'.files = files := by
  classical
  obtain ⟨contents, hs, ho⟩ := hx
  let left : κ → Contents α ℕ := fun other =>
    if other = place then contents else (d.directories other).live
  have hl : ∀ other, (d.directories other).Survives (left other) := by
    intro other
    by_cases hp : other = place
    · subst hp
      simpa only [left, if_true] using hs
    · simpa only [left, if_neg hp] using Directory.live_survives _
  refine ⟨⟨fun other => ⟨left other, []⟩, files, d.nextFile, ?_⟩, ⟨hl, fun _ => rfl, hf⟩, ?_, rfl⟩
  · intro other name' j hj
    rw [Directory.mem_possible] at hj
    rcases hj with hj | ⟨change, hm, -⟩
    · refine d.linked other name' j ?_
      rw [hj]
      exact (hl other).mem_possible name'
    · cases hm
  · change left place name = x
    simpa only [left, if_true] using ho

end Disk

end CrashDisk
