import Narjar.LabelledRuns
import Narjar.NarFormat
import Narjar.SharedLedger

/-!
# The staging budget

Space and inodes for staged files are reserved in a budget before the files grow. Reservations
are made, grown, worked off and dropped by any number of tasks; the budget is behind a lock, and
what a task does to its own reservation outside of the lock is a step of its own.
-/
namespace StagingBudget

open NarFormat SharedLedger LabelledRuns

inductive StorageError where
  | insufficientSpace
  | insufficientInodes
  | readOnlyFilesystem
  | io (message : String)
  deriving DecidableEq, Repr

inductive InodeCapacity where
  | measured (total available : ℕ)
  | notReported
  deriving DecidableEq, Repr

/-- None are reserved where they are not reported. -/
def InodeCapacity.granted (requested : ℕ) : InodeCapacity → ℕ
  | .measured _ _ => requested
  | .notReported => 0

structure StorageCapacity where
  totalBytes : ℕ
  availableBytes : ℕ
  inodes : InodeCapacity
  readOnly : Bool
  deriving DecidableEq, Repr

def StorageCapacity.requiredCapacity (capacity : StorageCapacity) (requiredBytes : ℕ) :
    Except StorageError Unit :=
  if capacity.readOnly then .error .readOnlyFilesystem
  else if capacity.availableBytes < requiredBytes then .error .insufficientSpace
  else
    match capacity.inodes with
    | .measured _ 0 => .error .insufficientInodes
    | .measured _ _ | .notReported => .ok ()

abbrev Measurement := Except StorageError StorageCapacity

structure Budget where
  outstandingBytes : ℕ
  outstandingInodes : ℕ
  deriving DecidableEq, Repr

namespace Budget

def reserve (budget : Budget) (space : StorageCapacity) (minFreeBytes bytes : ℕ) :
    Except StorageError Budget := do
  let total ← (checkedAdd budget.outstandingBytes bytes).elim (.error .insufficientSpace) .ok
  let required ← (checkedAdd total minFreeBytes).elim (.error .insufficientSpace) .ok
  space.requiredCapacity required
  pure { budget with outstandingBytes := total }

def release (budget : Budget) (bytes : ℕ) : Budget :=
  { budget with outstandingBytes := budget.outstandingBytes - bytes }

/-- The budget with the slots that were reserved: none where inodes are not reported. -/
def reserveInodes (budget : Budget) (capacity : StorageCapacity) (requested : ℕ) :
    Except StorageError (ℕ × Budget) :=
  match capacity.inodes with
  | .measured _ available => do
    let total ← (checkedAdd budget.outstandingInodes requested).elim (.error .insufficientInodes) .ok
    if available < total then .error .insufficientInodes
    else pure (requested, { budget with outstandingInodes := total })
  | .notReported => pure (0, budget)

def releaseInodes (budget : Budget) (slots : ℕ) : Budget :=
  { budget with outstandingInodes := budget.outstandingInodes - slots }

end Budget

/-- A byte reservation, idle or inside `record_materialized_bytes`, which releases bytes under the
lock and takes them off the reservation afterwards. -/
inductive Reservation where
  | idle (bytes : ℕ)
  | releasing (bytes released : ℕ)
  deriving DecidableEq, Repr

def Reservation.unmaterialized : Reservation → ℕ
  | idle bytes => bytes
  | releasing bytes released => bytes - released

structure System where
  budget : Budget
  reservations : Finset ℕ
  reservation : ℕ → Reservation
  inodeReservations : Finset ℕ
  slots : ℕ → ℕ

def System.start : System := ⟨⟨0, 0⟩, ∅, fun _ => .idle 0, ∅, fun _ => 0⟩

inductive Event where
  | reserve (id minFreeBytes bytes : ℕ) (measured : Measurement)
  | growTo (id minFreeBytes requiredBytes : ℕ) (measured : Measurement)
  | releaseMaterialized (id bytes : ℕ)
  | recordMaterialized (id : ℕ)
  | drop (id : ℕ)
  | reserveInodes (id slots : ℕ) (measured : Measurement)
  | recordCreatedStagingEntries (id count : ℕ)
  | dropInodes (id : ℕ)
  deriving DecidableEq

abbrev Answer := Except StorageError Unit

section Operations

variable (s : System)

/-- The change of the budget under the lock, or the error with which nothing changes. -/
def charge (minFreeBytes bytes : ℕ) (measured : Measurement) : Except StorageError Budget := do
  let space ← measured
  s.budget.reserve space minFreeBytes bytes

def reserveStagingBytes (id minFreeBytes bytes : ℕ) (measured : Measurement) : Answer × System :=
  match charge s minFreeBytes bytes measured with
  | .error e => (.error e, s)
  | .ok budget => (.ok (), { s with
      budget := budget
      reservations := insert id s.reservations
      reservation := Function.update s.reservation id (.idle bytes) })

def growTo (id bytes minFreeBytes requiredBytes : ℕ) (measured : Measurement) : Answer × System :=
  let additional := requiredBytes - bytes
  if additional = 0 then (.ok (), s)
  else
    match checkedAdd bytes additional with
    | none => (.error (.io "staging reservation size overflow"), s)
    | some newBytes =>
      match charge s minFreeBytes additional measured with
      | .error e => (.error e, s)
      | .ok budget => (.ok (), { s with
          budget := budget
          reservation := Function.update s.reservation id (.idle newBytes) })

def releaseMaterialized (id reserved bytes : ℕ) : System :=
  let released := min bytes reserved
  if released = 0 then s
  else { s with
    budget := s.budget.release released
    reservation := Function.update s.reservation id (.releasing reserved released) }

def dropReservation (id bytes : ℕ) : System :=
  { s with
    budget := if bytes = 0 then s.budget else s.budget.release bytes
    reservations := s.reservations.erase id }

def reserveInodesWithMeasurement (id slots : ℕ) (measured : Measurement) : Answer × System :=
  match (do let capacity ← measured; s.budget.reserveInodes capacity slots) with
  | .error e => (.error e, s)
  | .ok (slots, budget) => (.ok (), { s with
      budget := budget
      inodeReservations := insert id s.inodeReservations
      slots := Function.update s.slots id slots })

def recordCreatedStagingEntries (id count : ℕ) : System :=
  let released := min count (s.slots id)
  { s with
    budget := s.budget.releaseInodes released
    slots := Function.update s.slots id (s.slots id - released) }

def dropInodeReservation (id : ℕ) : System :=
  { s with
    budget := s.budget.releaseInodes (s.slots id)
    inodeReservations := s.inodeReservations.erase id }

end Operations

/-- One step. A new reservation has a new name, and a task that is inside
`record_materialized_bytes` does nothing else with its reservation. -/
def next (s : System) : Event → Option (Answer × System)
  | .reserve id minFreeBytes bytes measured =>
    if id ∈ s.reservations then none
    else some (reserveStagingBytes s id minFreeBytes bytes measured)
  | .growTo id minFreeBytes requiredBytes measured =>
    match decide (id ∈ s.reservations), s.reservation id with
    | true, .idle bytes => some (growTo s id bytes minFreeBytes requiredBytes measured)
    | _, _ => none
  | .releaseMaterialized id bytes =>
    match decide (id ∈ s.reservations), s.reservation id with
    | true, .idle reserved => some (.ok (), releaseMaterialized s id reserved bytes)
    | _, _ => none
  | .recordMaterialized id =>
    match decide (id ∈ s.reservations), s.reservation id with
    | true, .releasing bytes released => some (.ok (), { s with
        reservation := Function.update s.reservation id (.idle (bytes - released)) })
    | _, _ => none
  | .drop id =>
    match decide (id ∈ s.reservations), s.reservation id with
    | true, .idle bytes => some (.ok (), dropReservation s id bytes)
    | _, _ => none
  | .reserveInodes id slots measured =>
    if id ∈ s.inodeReservations then none
    else some (reserveInodesWithMeasurement s id slots measured)
  | .recordCreatedStagingEntries id count =>
    if id ∈ s.inodeReservations then some (.ok (), recordCreatedStagingEntries s id count) else none
  | .dropInodes id =>
    if id ∈ s.inodeReservations then some (.ok (), dropInodeReservation s id) else none

def Step (s : System) (label : Event × Answer) (s' : System) : Prop :=
  next s label.1 = some (label.2, s')

section Admission

variable {s : System} {budget budget' : Budget} {space : StorageCapacity} {minFree bytes : ℕ}

theorem checkedAdd_elim
    (h : (checkedAdd a b).elim (.error e) Except.ok = .ok c) : c = a + b := by
  cases hs : checkedAdd a b with
  | none =>
    rw [hs] at h
    cases h
  | some total =>
    rw [hs] at h
    cases h
    exact (checkedAdd_eq_some.1 hs).2

theorem requiredCapacity_ok (h : space.requiredCapacity required = .ok ()) :
    required ≤ space.availableBytes := by
  unfold StorageCapacity.requiredCapacity at h
  split at h
  · cases h
  split at h
  · cases h
  · rename_i hs
    exact Nat.not_lt.1 hs

theorem reserve_ok (h : budget.reserve space minFree bytes = .ok budget') :
    budget' = { budget with outstandingBytes := budget.outstandingBytes + bytes } ∧
      budget'.outstandingBytes + minFree ≤ space.availableBytes := by
  simp only [Budget.reserve, bind, Except.bind] at h
  split at h
  · cases h
  rename_i total ht
  split at h
  · cases h
  rename_i required hr
  split at h
  · cases h
  rename_i hs
  cases h
  have hu := checkedAdd_elim ht
  have hf := checkedAdd_elim hr
  subst hu hf
  exact ⟨rfl, requiredCapacity_ok hs⟩

theorem charge_ok
    (h : charge s minFree bytes measured = .ok budget') :
    budget' = { s.budget with outstandingBytes := s.budget.outstandingBytes + bytes } ∧
      ∃ space, measured = .ok space ∧
        budget'.outstandingBytes + minFree ≤ space.availableBytes := by
  cases measured with
  | error e => cases h
  | ok space =>
    obtain ⟨hb, hs⟩ := reserve_ok h
    exact ⟨hb, space, rfl, hs⟩

theorem reserveInodes_ok
    (h : budget.reserveInodes space requested = .ok (slots, budget')) :
    budget' = { budget with outstandingInodes := budget.outstandingInodes + slots } ∧
      slots = space.inodes.granted requested ∧ ∀ total available, space.inodes = .measured total available →
        budget'.outstandingInodes ≤ available := by
  unfold Budget.reserveInodes at h
  split at h
  · rename_i total available hi
    simp only [bind, Except.bind] at h
    split at h
    · cases h
    rename_i sum hs
    split at h
    · cases h
    rename_i hf
    cases h
    have heq := checkedAdd_elim hs
    subst heq
    refine ⟨rfl, by rw [hi]; rfl, fun total' available' hi' => ?_⟩
    cases hi.symm.trans hi'
    exact Nat.not_lt.1 hf
  · rename_i hi
    cases h
    refine ⟨rfl, by rw [hi]; rfl, fun total available hm => ?_⟩
    cases hi.symm.trans hm

end Admission

def System.unmaterialized (s : System) (id : ℕ) : ℕ := (s.reservation id).unmaterialized

/-- The totals of the budget and the reservations are two balanced ledgers. -/
structure Represents (s : System) (L M : Ledger ℕ) : Prop where
  bytes : Records L s.reservations s.unmaterialized s.budget.outstandingBytes
  inodes : Records M s.inodeReservations s.slots s.budget.outstandingInodes

theorem start_represented : Represents .start (.empty fun _ => 0) (.empty fun _ => 0) :=
  ⟨.empty, .empty⟩

/-- The totals are the sums over the live reservations of what they have not materialized. -/
structure Conserved (s : System) : Prop where
  bytes : s.budget.outstandingBytes = ∑ id ∈ s.reservations, s.unmaterialized id
  inodes : s.budget.outstandingInodes = ∑ id ∈ s.inodeReservations, s.slots id

variable {s : System}

theorem Represents.conserved (h : Represents s L M) : Conserved s :=
  ⟨h.bytes.balanced, h.inodes.balanced⟩

theorem unmaterialized_of_update {s' : System} {id : ℕ}
    (h : s'.reservation = Function.update s.reservation id r) :
    s'.unmaterialized = Function.update s.unmaterialized id r.unmaterialized := by
  have hc := Function.comp_update Reservation.unmaterialized s.reservation id r
  rw [← h] at hc
  exact hc

section Steps

variable {s s' : System} {L M : Ledger ℕ} {id minFree : ℕ} {answer : Answer}
variable {measured : Measurement}

/-- What an operation leaves: balanced ledgers, and everything as it was if it is refused. -/
structure Keeps (s : System) (answer : Answer) (s' : System) : Prop where
  represented : ∃ L M, Represents s' L M
  refused : ∀ e, answer = .error e → s' = s

theorem Keeps.unchanged (h : Represents s L M) : Keeps s answer s :=
  ⟨⟨L, M, h⟩, fun _ _ => rfl⟩

theorem Keeps.done (h : Represents s' L M) : Keeps s (.ok ()) s' :=
  ⟨⟨L, M, h⟩, fun _ he => by cases he⟩

variable {bytes required slots : ℕ} {labels : List (Event × Answer)}

section

variable (h : Represents s L M)
include h

theorem reserveStagingBytes_keeps (hid : id ∉ s.reservations)
    (hr : reserveStagingBytes s id minFree bytes measured = (answer, s')) : Keeps s answer s' := by
  unfold reserveStagingBytes at hr
  split at hr
  · cases hr
    exact .unchanged h
  · rename_i budget hc
    cases hr
    obtain ⟨hb, -⟩ := charge_ok hc
    subst hb
    obtain ⟨L', hL'⟩ := h.bytes.enrol hid bytes
    refine .done (L := L') ⟨?_, h.inodes⟩
    rw [unmaterialized_of_update rfl]
    exact hL'

section

variable (hid : id ∈ s.reservations)
include hid

theorem growTo_keeps (hy : s.reservation id = .idle bytes)
    (hr : growTo s id bytes minFree required measured = (answer, s')) : Keeps s answer s' := by
  unfold growTo at hr
  dsimp only at hr
  split at hr
  · cases hr
    exact .unchanged h
  split at hr
  · cases hr
    exact .unchanged h
  rename_i newBytes hs
  split at hr
  · cases hr
    exact .unchanged h
  · rename_i budget hc
    cases hr
    obtain ⟨hb, -⟩ := charge_ok hc
    subst hb
    have hn := (checkedAdd_eq_some.1 hs).2
    obtain ⟨L', hL'⟩ := h.bytes.adjust hid newBytes
      (s.budget.outstandingBytes + (required - bytes)) (by
        rw [System.unmaterialized, hy, hn, Reservation.unmaterialized]
        omega)
    refine .done (L := L') ⟨?_, h.inodes⟩
    rw [unmaterialized_of_update rfl]
    exact hL'

/-- The assertion in the destructor and the saturating subtraction of a release never fail. -/
theorem Represents.idle_le
    (hb : s.reservation id = .idle bytes) : bytes ≤ s.budget.outstandingBytes := by
  have hle := h.bytes.share_le hid
  rwa [System.unmaterialized, hb] at hle

theorem releaseMaterialized_represented {reserved : ℕ}
 (hb : s.reservation id = .idle reserved) (bytes : ℕ) :
    ∃ L' M', Represents (releaseMaterialized s id reserved bytes) L' M' := by
  have hle := h.idle_le hid hb
  unfold releaseMaterialized
  dsimp only
  split
  · exact ⟨L, M, h⟩
  · obtain ⟨L', hL'⟩ := h.bytes.adjust hid (reserved - min bytes reserved)
      (s.budget.outstandingBytes - min bytes reserved) (by
        rw [System.unmaterialized, hb, Reservation.unmaterialized]
        omega)
    refine ⟨L', M, ?_, h.inodes⟩
    rw [unmaterialized_of_update rfl]
    exact hL'

theorem recordMaterialized_represented {released : ℕ}
 (hb : s.reservation id = .releasing bytes released) :
    ∃ L' M', Represents { s with
      reservation := Function.update s.reservation id (.idle (bytes - released)) } L' M' := by
  obtain ⟨L', hL'⟩ := h.bytes.adjust hid (bytes - released)
    s.budget.outstandingBytes (by
      rw [System.unmaterialized, hb, Reservation.unmaterialized])
  refine ⟨L', M, ?_, h.inodes⟩
  rw [unmaterialized_of_update rfl]
  exact hL'

theorem dropReservation_represented (hb : s.reservation id = .idle bytes) :
    ∃ L' M', Represents (dropReservation s id bytes) L' M' := by
  obtain ⟨L', hL'⟩ := h.bytes.retire hid
  have hs : s.unmaterialized id = bytes := by
    rw [System.unmaterialized, hb, Reservation.unmaterialized]
  rw [hs] at hL'
  refine ⟨L', M, ?_⟩
  unfold dropReservation
  by_cases hz : bytes = 0
  · subst hz
    exact ⟨hL', h.inodes⟩
  · rw [if_neg hz]
    exact ⟨hL', h.inodes⟩

end

theorem reserveInodes_keeps (hid : id ∉ s.inodeReservations)
    (hr : reserveInodesWithMeasurement s id slots measured = (answer, s')) : Keeps s answer s' := by
  unfold reserveInodesWithMeasurement at hr
  split at hr
  · cases hr
    exact .unchanged h
  · rename_i granted budget he
    cases hr
    cases measured with
    | error e => cases he
    | ok capacity =>
      obtain ⟨hb, -⟩ := reserveInodes_ok he
      subst hb
      obtain ⟨M', hM'⟩ := h.inodes.enrol hid granted
      exact .done ⟨h.bytes, hM'⟩

theorem recordCreated_represented (hid : id ∈ s.inodeReservations)
    (count : ℕ) : ∃ L' M', Represents (recordCreatedStagingEntries s id count) L' M' := by
  have hle := h.inodes.share_le hid
  obtain ⟨M', hM'⟩ := h.inodes.adjust hid (s.slots id - min count (s.slots id))
      (s.budget.outstandingInodes - min count (s.slots id)) (by omega)
  exact ⟨L, M', h.bytes, hM'⟩

theorem dropInodes_represented (hid : id ∈ s.inodeReservations) :
    ∃ L' M', Represents (dropInodeReservation s id) L' M' := by
  obtain ⟨M', hM'⟩ := h.inodes.retire hid
  exact ⟨L, M', h.bytes, hM'⟩

end

def bytesReleased (s : System) : Event → ℕ
  | .releaseMaterialized id bytes => min bytes (s.unmaterialized id)
  | .drop id => s.unmaterialized id
  | _ => 0

def inodesReleased (s : System) : Event → ℕ
  | .recordCreatedStagingEntries id count => min count (s.slots id)
  | .dropInodes id => s.slots id
  | _ => 0

def bytesReserved (s : System) : Event → Answer → ℕ
  | .reserve _ _ bytes _, .ok _ => bytes
  | .growTo id _ required _, .ok _ => required - s.unmaterialized id
  | _, _ => 0

def inodesReserved : Event → Answer → ℕ
  | .reserveInodes _ slots (.ok capacity), .ok _ => capacity.inodes.granted slots
  | _, _ => 0

/-- A step changes the totals by what it reserves and releases, and what a task records as written
or created is taken off its own reservation. -/
structure Accounted (s : System) (event : Event) (answer : Answer) (s' : System) : Prop where
  bytes : s'.budget.outstandingBytes + bytesReleased s event =
    s.budget.outstandingBytes + bytesReserved s event answer
  inodes : s'.budget.outstandingInodes + inodesReleased s event =
    s.budget.outstandingInodes + inodesReserved event answer
  materialized : ∀ id written, event = .releaseMaterialized id written →
    s'.unmaterialized id + bytesReleased s event = s.unmaterialized id
  created : ∀ id count, event = .recordCreatedStagingEntries id count →
    s'.slots id + inodesReleased s event = s.slots id

/-- What the measurement at an admission leaves: the minimum of free bytes next to everything that
is outstanding, and as many inodes as are outstanding. -/
def Admitted (s s' : System) : Event → Prop
  | .reserve _ minFree _ measured =>
    ∃ space, measured = .ok space ∧ s'.budget.outstandingBytes + minFree ≤ space.availableBytes
  | .growTo id minFree required measured =>
    s.unmaterialized id < required →
      ∃ space, measured = .ok space ∧ s'.budget.outstandingBytes + minFree ≤ space.availableBytes
  | .reserveInodes _ _ measured =>
    ∃ capacity, measured = .ok capacity ∧ ∀ total available,
      capacity.inodes = .measured total available → s'.budget.outstandingInodes ≤ available
  | _ => True

theorem reserveStagingBytes_admitted
    (h : reserveStagingBytes s id minFree bytes measured = (.ok (), s')) :
    ∃ space, measured = .ok space ∧ s'.budget.outstandingBytes + minFree ≤ space.availableBytes := by
  unfold reserveStagingBytes at h
  split at h
  · cases h
  · rename_i budget hc
    cases h
    exact (charge_ok hc).2

theorem growTo_admitted (hg : bytes < required)
    (h : growTo s id bytes minFree required measured = (.ok (), s')) :
    ∃ space, measured = .ok space ∧ s'.budget.outstandingBytes + minFree ≤ space.availableBytes := by
  unfold growTo at h
  dsimp only at h
  split at h
  · omega
  split at h
  · cases h
  split at h
  · cases h
  · rename_i budget hc
    cases h
    exact (charge_ok hc).2

theorem reserveInodes_admitted (h : reserveInodesWithMeasurement s id slots measured = (.ok (), s')) :
    ∃ capacity, measured = .ok capacity ∧ ∀ total available,
      capacity.inodes = .measured total available → s'.budget.outstandingInodes ≤ available := by
  unfold reserveInodesWithMeasurement at h
  split at h
  · cases h
  · rename_i granted budget hr
    cases h
    cases measured with
    | error e => cases hr
    | ok capacity => exact ⟨capacity, rfl, (reserveInodes_ok hr).2.2⟩

theorem unmaterialized_of_idle (h : s.reservation id = .idle bytes) :
    s.unmaterialized id = bytes := by
  rw [System.unmaterialized, h, Reservation.unmaterialized]

theorem reserveStagingBytes_accounted
    (h : reserveStagingBytes s id minFree bytes measured = (answer, s')) :
    Accounted s (.reserve id minFree bytes measured) answer s' := by
  unfold reserveStagingBytes at h
  split at h
  · cases h
    exact ⟨rfl, rfl, nofun, nofun⟩
  · rename_i budget hc
    cases h
    obtain ⟨rfl, -⟩ := charge_ok hc
    exact ⟨rfl, rfl, nofun, nofun⟩

theorem growTo_accounted (hb : s.reservation id = .idle bytes)
    (h : growTo s id bytes minFree required measured = (answer, s')) :
    Accounted s (.growTo id minFree required measured) answer s' := by
  have hu := unmaterialized_of_idle hb
  unfold growTo at h
  dsimp only at h
  split at h
  · rename_i hz
    cases h
    refine ⟨?_, rfl, nofun, nofun⟩
    simp only [bytesReleased, bytesReserved, hu]
    omega
  split at h
  · cases h
    exact ⟨rfl, rfl, nofun, nofun⟩
  split at h
  · cases h
    exact ⟨rfl, rfl, nofun, nofun⟩
  · rename_i budget hc
    cases h
    obtain ⟨rfl, -⟩ := charge_ok hc
    refine ⟨?_, rfl, nofun, nofun⟩
    simp only [bytesReleased, bytesReserved, hu, Nat.add_zero]

theorem releaseMaterialized_accounted (hb : s.reservation id = .idle reserved)
    (hle : reserved ≤ s.budget.outstandingBytes) :
    Accounted s (.releaseMaterialized id bytes) (.ok ())
      (releaseMaterialized s id reserved bytes) := by
  have hu := unmaterialized_of_idle hb
  unfold releaseMaterialized
  dsimp only
  split
  · rename_i hz
    refine ⟨?_, rfl, ?_, nofun⟩
    · simp only [bytesReleased, bytesReserved, hu, hz]
    · rintro _ _ ⟨⟩
      simp only [bytesReleased, hu, hz, Nat.add_zero]
  · refine ⟨?_, rfl, ?_, nofun⟩
    · simp only [bytesReleased, bytesReserved, hu, Budget.release]
      omega
    · rintro _ _ ⟨⟩
      simp only [bytesReleased, System.unmaterialized, Function.update_self,
        Reservation.unmaterialized, hb]
      omega

theorem reserveInodes_accounted (h : reserveInodesWithMeasurement s id slots measured = (answer, s')) :
    Accounted s (.reserveInodes id slots measured) answer s' := by
  unfold reserveInodesWithMeasurement at h
  split at h
  · rename_i e hc
    cases h
    refine ⟨rfl, ?_, nofun, nofun⟩
    cases measured <;> rfl
  · rename_i granted budget hr
    cases h
    cases measured with
    | error e => cases hr
    | ok capacity =>
      obtain ⟨rfl, hg, -⟩ := reserveInodes_ok hr
      refine ⟨rfl, ?_, nofun, nofun⟩
      simp only [inodesReleased, inodesReserved, hg, Nat.add_zero]

/-- One step from balanced ledgers. -/
structure Sound (s : System) (event : Event) (answer : Answer) (s' : System) : Prop where
  keeps : Keeps s answer s'
  accounted : Accounted s event answer s'
  bytesReleased_le : bytesReleased s event ≤ s.budget.outstandingBytes
  inodesReleased_le : inodesReleased s event ≤ s.budget.outstandingInodes
  admitted : answer = .ok () → Admitted s s' event

theorem step_sound (h : Represents s L M) (hs : Step s (event, answer) s') :
    Sound s event answer s' := by
  cases event with
  | reserve id minFree bytes measured =>
    simp only [Step, next] at hs
    split at hs
    · cases hs
    rename_i hid
    have hr := Option.some.inj hs
    refine ⟨reserveStagingBytes_keeps h hid hr, reserveStagingBytes_accounted hr, Nat.zero_le _, Nat.zero_le _, fun hok => ?_⟩
    subst hok
    exact reserveStagingBytes_admitted hr
  | growTo id minFree required measured =>
    simp only [Step, next] at hs
    split at hs
    · rename_i bytes hid hb
      have hr := Option.some.inj hs
      refine ⟨growTo_keeps h (of_decide_eq_true hid) hb hr, growTo_accounted hb hr,
        Nat.zero_le _, Nat.zero_le _, fun hok hg => ?_⟩
      subst hok
      rw [unmaterialized_of_idle hb] at hg
      exact growTo_admitted hg hr
    · cases hs
  | releaseMaterialized id bytes =>
    simp only [Step, next] at hs
    split at hs
    · rename_i reserved hid hb
      cases hs
      obtain ⟨L', M', h'⟩ := releaseMaterialized_represented h (of_decide_eq_true hid) hb bytes
      refine ⟨.done h', releaseMaterialized_accounted hb (h.idle_le (of_decide_eq_true hid) hb), ?_,
        Nat.zero_le _, fun _ => trivial⟩
      exact (min_le_right _ _).trans (h.bytes.share_le (of_decide_eq_true hid))
    · cases hs
  | recordMaterialized id =>
    simp only [Step, next] at hs
    split at hs
    · rename_i bytes released hid hb
      cases hs
      obtain ⟨L', M', h'⟩ := recordMaterialized_represented h (of_decide_eq_true hid) hb
      exact ⟨.done h', ⟨rfl, rfl, nofun, nofun⟩, Nat.zero_le _,
        Nat.zero_le _, fun _ => trivial⟩
    · cases hs
  | drop id =>
    simp only [Step, next] at hs
    split at hs
    · rename_i bytes hid hb
      cases hs
      obtain ⟨L', M', h'⟩ := dropReservation_represented h (of_decide_eq_true hid) hb
      have hle := h.idle_le (of_decide_eq_true hid) hb
      refine ⟨.done h', ⟨?_, ?_, nofun, nofun⟩,
        h.bytes.share_le (of_decide_eq_true hid), Nat.zero_le _, fun _ => trivial⟩
      · simp only [dropReservation, bytesReleased, bytesReserved, unmaterialized_of_idle hb,
          Budget.release]
        split
        · omega
        · simp only
          omega
      · simp only [dropReservation, Budget.release]
        split <;> rfl
    · cases hs
  | reserveInodes id slots measured =>
    simp only [Step, next] at hs
    split at hs
    · cases hs
    rename_i hid
    have hr := Option.some.inj hs
    refine ⟨reserveInodes_keeps h hid hr, reserveInodes_accounted hr, Nat.zero_le _, Nat.zero_le _, fun hok => ?_⟩
    subst hok
    exact reserveInodes_admitted hr
  | recordCreatedStagingEntries id count =>
    simp only [Step, next] at hs
    split at hs
    · rename_i hid
      cases hs
      obtain ⟨L', M', h'⟩ := recordCreated_represented h hid count
      have hle := h.inodes.share_le hid
      refine ⟨.done h', ⟨rfl, ?_, nofun, ?_⟩, Nat.zero_le _,
        (min_le_right _ _).trans hle, fun _ => trivial⟩
      · simp only [recordCreatedStagingEntries, inodesReleased, inodesReserved,
          Budget.releaseInodes]
        omega
      · rintro _ _ ⟨⟩
        simp only [recordCreatedStagingEntries, inodesReleased, Function.update_self]
        omega
    · cases hs
  | dropInodes id =>
    simp only [Step, next] at hs
    split at hs
    · rename_i hid
      cases hs
      obtain ⟨L', M', h'⟩ := dropInodes_represented h hid
      have hle := h.inodes.share_le hid
      refine ⟨.done h', ⟨rfl, ?_, nofun, nofun⟩, Nat.zero_le _,
        hle, fun _ => trivial⟩
      simp only [dropInodeReservation, inodesReleased, inodesReserved, Budget.releaseInodes]
      omega
    · cases hs

theorem run_represented (hr : Run Step .start labels s) : ∃ L M, Represents s L M := by
  refine hr.invariant (I := fun s => ∃ L M, Represents s L M) ⟨_, _, start_represented⟩ ?_
  intro t label u ht hs
  obtain ⟨L, M, ht⟩ := ht
  exact (step_sound ht hs).keeps.represented

/-- Under every interleaving the totals are the sums over the live reservations, and every step
changes them by exactly what it reserves and releases. No release takes off more than is outstanding, a refused operation changes nothing, and every admitted reservation
or growth leaves the configured minimum of the space that was measured, or the inodes. -/
theorem staging_budget_conserved {labels : List (Event × Answer)} (hrun : Run Step .start labels s) :
    Conserved s ∧ ∀ event answer s', Step s (event, answer) s' →
      Conserved s' ∧ Accounted s event answer s' ∧ (∀ e, answer = .error e → s' = s) ∧
      bytesReleased s event ≤ s.budget.outstandingBytes ∧
      inodesReleased s event ≤ s.budget.outstandingInodes ∧
      (answer = .ok () → Admitted s s' event) := by
  obtain ⟨L, M, hs⟩ := run_represented hrun
  refine ⟨hs.conserved, fun event answer s' ht => ?_⟩
  obtain ⟨hk, hc, hb, hi, ha⟩ := step_sound hs ht
  obtain ⟨L', M', hs'⟩ := hk.represented
  exact ⟨hs'.conserved, hc, hk.refused, hb, hi, ha⟩

def advance (s : System) (label : Event × Answer) : Option System :=
  match next s label.1 with
  | some (answer, s') => if answer = label.2 then some s' else none
  | none => none

theorem step_of_advance (h : advance s label = some s') : Step s label s' := by
  unfold advance at h
  split at h
  · rename_i answer t hn
    split at h
    · rename_i ha
      cases h
      rw [Step, hn, ha]
    · cases h
  · cases h

/-- Two reservations, a growth that is refused, a file that is written, and a drop. -/
def sampleLabels : List (Event × Answer) :=
  let space : Measurement := .ok ⟨1000, 100, .measured 50 3, false⟩
  [(.reserve 0 20 30 space, .ok ()), (.reserve 1 20 40 space, .ok ()),
    (.growTo 0 20 41 space, .error .insufficientSpace), (.growTo 0 20 40 space, .ok ()),
    (.reserveInodes 0 2 space, .ok ()), (.releaseMaterialized 1 15, .ok ()),
    (.recordMaterialized 1, .ok ()), (.drop 0, .ok ())]

/-- What is left is the part of the second reservation that was not written. -/
theorem sampleLabels_conserved :
    ∃ s, Run Step .start sampleLabels s ∧ s.budget = ⟨25, 2⟩ ∧ Conserved s := by
  have hb : (sampleLabels.foldlM advance .start).map System.budget = some ⟨25, 2⟩ := by decide
  obtain ⟨s, hs, hb⟩ := Option.map_eq_some_iff.1 hb
  have hr := (Run.of_foldlM hs).imp fun _ _ _ _ => step_of_advance
  exact ⟨s, hr, hb, (staging_budget_conserved hr).1⟩

end Steps

section Writer

variable {s s' : System} {id : ℕ}

def rawStagingGrowthBytes : ℕ := 64 * 1024 * 1024

/-- Rounded up to whole growth steps, with a product that saturates. -/
def preferredBytes (additionalRequired : ℕ) : ℕ :=
  min ((additionalRequired + rawStagingGrowthBytes - 1) / rawStagingGrowthBytes *
    rawStagingGrowthBytes) u64Max

/-- The sizes that `reserve_before_write` asks for, one after the other until one is admitted. -/
def growthRequests (reserved additionalRequired : ℕ) : List ℕ :=
  if additionalRequired ≤ reserved then [] else [preferredBytes additionalRequired, additionalRequired]

variable {n reserved request bytes minFree : ℕ} {measured : Measurement}

theorem le_of_mem_growthRequests (hn : n ≤ u64Max) (h : request ∈ growthRequests reserved n) :
    n ≤ request := by
  unfold growthRequests at h
  split at h
  · cases h
  rw [List.mem_pair] at h
  rcases h with rfl | rfl
  · refine le_min ?_ hn
    have hg : 0 < rawStagingGrowthBytes := by decide
    have hd : n + rawStagingGrowthBytes - 1 <
        (n + rawStagingGrowthBytes - 1) / rawStagingGrowthBytes * rawStagingGrowthBytes +
          rawStagingGrowthBytes := Nat.lt_div_mul_add hg
    omega
  · exact le_rfl

def Event.reservation? : Event → Option ℕ
  | reserve id _ _ _ | growTo id _ _ _ | releaseMaterialized id _ | recordMaterialized id | drop id =>
    some id
  | reserveInodes _ _ _ | recordCreatedStagingEntries _ _ | dropInodes _ => none

theorem growTo_covers (hb : s.reservation id = .idle bytes)
    (h : growTo s id bytes minFree required measured = (.ok (), s')) :
    ∃ reserved, s'.reservation id = .idle reserved ∧ required ≤ reserved := by
  unfold growTo at h
  dsimp only at h
  split at h
  · cases h
    exact ⟨bytes, hb, by omega⟩
  split at h
  · cases h
  rename_i newBytes hs
  split at h
  · cases h
  · cases h
    refine ⟨newBytes, Function.update_self .., ?_⟩
    have hn := (checkedAdd_eq_some.1 hs).2
    omega

theorem step_reservation (hs : Step s (event, answer) s') :
    s'.reservation = s.reservation ∨ ∃ k r, event.reservation? = some k ∧
      s'.reservation = Function.update s.reservation k r := by
  cases event with
  | reserve k minFree bytes measured =>
    simp only [Step, next, reserveStagingBytes] at hs
    split at hs
    · cases hs
    split at hs
    · cases hs
      exact .inl rfl
    · cases hs
      exact .inr ⟨k, _, rfl, rfl⟩
  | growTo k minFree required measured =>
    simp only [Step, next, growTo] at hs
    split at hs
    · split at hs
      · cases hs
        exact .inl rfl
      split at hs
      · cases hs
        exact .inl rfl
      split at hs
      · cases hs
        exact .inl rfl
      · cases hs
        exact .inr ⟨k, _, rfl, rfl⟩
    · cases hs
  | releaseMaterialized k bytes =>
    simp only [Step, next, releaseMaterialized] at hs
    split at hs
    · cases hs
      split
      · exact .inl rfl
      · exact .inr ⟨k, _, rfl, rfl⟩
    · cases hs
  | recordMaterialized k =>
    simp only [Step, next] at hs
    split at hs
    · cases hs
      exact .inr ⟨k, _, rfl, rfl⟩
    · cases hs
  | drop k =>
    simp only [Step, next] at hs
    split at hs
    · cases hs
      exact .inl rfl
    · cases hs
  | reserveInodes k slots measured =>
    simp only [Step, next, reserveInodesWithMeasurement] at hs
    split at hs
    · cases hs
    split at hs
    all_goals
      cases hs
      exact .inl rfl
  | recordCreatedStagingEntries | dropInodes =>
    simp only [Step, next] at hs
    split at hs
    · cases hs
      exact .inl rfl
    · cases hs

theorem step_frame (ht : Step s label s')
    (ho : label.1.reservation? ≠ some id) : s'.reservation id = s.reservation id := by
  rcases step_reservation ht with hs | ⟨k, r, hk, hc⟩
  · rw [hs]
  · rw [hc]
    refine Function.update_of_ne (fun heq => ho ?_) ..
    rw [hk, heq]

/-- Whatever others do after `reserve_before_write` has returned for `n` bytes, a write of no more
bytes is released in full: the budget and the reservation give up exactly what was written. -/
theorem written_bytes_were_reserved (hn : n ≤ u64Max) (hrun : Run Step .start earlier s)
    (hb : s.reservation id = .idle bytes)
    (hg : n ≤ bytes ∧ t = s ∨ ∃ request ∈ growthRequests bytes n, ∃ minFree measured,
      Step s (.growTo id minFree request measured, .ok ()) t)
    (hu : Run Step t labels s') (ho : ∀ label ∈ labels, label.1.reservation? ≠ some id)
    (hw : written ≤ n) (hs : Step s' (.releaseMaterialized id written, .ok ()) s'') :
    s''.budget.outstandingBytes + written = s'.budget.outstandingBytes ∧
      s''.unmaterialized id + written = s'.unmaterialized id := by
  have hc : (∃ reserved, t.reservation id = .idle reserved ∧ n ≤ reserved) ∧
      ∃ labels, Run Step .start labels t := by
    rcases hg with ⟨hc, rfl⟩ | ⟨request, hr, minFree, measured, hg⟩
    · exact ⟨⟨bytes, hb, hc⟩, _, hrun⟩
    · refine ⟨?_, _, hrun.tail hg⟩
      simp only [Step, next, hb] at hg
      split at hg
      · rename_i heq
        cases heq
        obtain ⟨reserved, he, hle⟩ := growTo_covers hb (Option.some.inj hg)
        exact ⟨reserved, he, (le_of_mem_growthRequests hn hr).trans hle⟩
      · cases hg
  obtain ⟨⟨reserved, hr, hc⟩, _, ht⟩ := hc
  have hk : s'.reservation id = t.reservation id := by
    clear hs
    induction hu with
    | refl => rfl
    | tail _ hs ih =>
      rw [step_frame hs (ho _ (List.mem_append_right _ (List.mem_singleton_self _)))]
      exact ih fun label hl => ho label (List.mem_append_left _ hl)
  have hre : bytesReleased s' (.releaseMaterialized id written) = written := by
    rw [bytesReleased, unmaterialized_of_idle (hk.trans hr)]
    omega
  obtain ⟨L, M, hm⟩ := run_represented (ht.append hu)
  have ha := (step_sound hm hs).accounted
  have hby := ha.bytes
  have hma := ha.materialized id written rfl
  rw [hre] at hby hma
  exact ⟨hby, hma⟩

def roomySpace : Measurement := .ok ⟨1000, 100, .notReported, false⟩

/-- Two tasks reserve, the first grows, the second drops. -/
def growingLabels : List (Event × Answer) :=
  [(.reserve 0 20 4 roomySpace, .ok ()), (.reserve 1 20 40 roomySpace, .ok ()),
    (.growTo 0 20 9 roomySpace, .ok ()), (.drop 1, .ok ())]

def stateAfter (k : ℕ) : System := ((growingLabels.take k).foldlM advance .start).getD .start

theorem half_written_while_other_drops :
    ∃ s', Step (stateAfter 4) (.releaseMaterialized 0 5, .ok ()) s' ∧
      (stateAfter 4).budget.outstandingBytes = 9 ∧ s'.budget.outstandingBytes + 5 = 9 := by
  have hr : Run Step .start (growingLabels.take 2) (stateAfter 2) :=
    (Run.of_foldlM rfl).imp fun _ _ _ _ => step_of_advance
  have hg : Step (stateAfter 2) (.growTo 0 20 9 roomySpace, .ok ()) (stateAfter 3) := rfl
  have hd : Run Step (stateAfter 3) [(.drop 1, .ok ())] (stateAfter 4) := .single rfl
  have hs : Step (stateAfter 4) (.releaseMaterialized 0 5, .ok ()) _ := rfl
  have hw := written_bytes_were_reserved (n := 9) (by decide) hr rfl
    (.inr ⟨9, by decide, 20, roomySpace, hg⟩) hd (by simp [Event.reservation?]) (by decide) hs
  exact ⟨_, hs, rfl, hw.1⟩

end Writer

end StagingBudget
