import Mathlib.Data.Finset.Card
import Narjar.ChunkSweep
import Narjar.LabelledRuns

/-!
# Opening chunks while they are repaired

A chunk file with wrong contents is replaced under a marker file, which stays behind when the
repair fails. Chunks are divided into stripes. Each stripe has a lock, a count of the markers, a
count of the operations that are under way and a generation that every operation raises. A chunk
is opened for serving without the lock when the counts are zero before and after, and the
generation is the same. Otherwise it is opened under the lock.

The model is one stripe. Every atomic access and every file operation is a step of its own, the
steps of the threads interleave in any order, and every file operation may fail.
-/
namespace ChunkRepairs

open ByteCodecs ManifestFormat ObjectNames ChunkSweep LabelledRuns Finset

def chunkRepairLockCount : ℕ := 64

def chunkRepairStripe (hash : Digest) : ℕ := (hash.bytes.getD 0 0).toNat % chunkRepairLockCount

def parseChunkRepairMarkerName (name : Bytes) : Option Digest :=
  (name.dropPrefix? repairPrefix).bind fun hex => parseChunkHash hex

def marks (stripe : ℕ) (name : Bytes) : Bool :=
  ((parseChunkRepairMarkerName name).map chunkRepairStripe) == some stripe

def pendingChunkRepairCounts (names : List Bytes) : ℕ → ℕ :=
  names.foldl (fun counts name =>
    match parseChunkRepairMarkerName name with
    | some hash =>
      Function.update counts (chunkRepairStripe hash) (counts (chunkRepairStripe hash) + 1)
    | none => counts) fun _ => 0

theorem marks_chunkRepairMarkerName {hash : Digest} {stripe : ℕ}
    (h : chunkRepairStripe hash = stripe) : marks stripe (chunkRepairMarkerName hash) = true := by
  have hp : parseChunkRepairMarkerName (chunkRepairMarkerName hash) = some hash := by
    have hd : (chunkRepairMarkerName hash).dropPrefix? repairPrefix = some (hexName hash) :=
      List.dropPrefix?_append_of_beq _ (beq_self_eq_true _)
    rw [parseChunkRepairMarkerName, hd, Option.bind_some, parseChunkHash_hexName]
  rw [marks, hp, Option.map_some, h, beq_self_eq_true]

theorem pendingChunkRepairCounts_eq (names : List Bytes) (stripe : ℕ) :
    pendingChunkRepairCounts names stripe = (names.filter (marks stripe)).length := by
  induction names using List.reverseRecOn with
  | nil => rfl
  | append_singleton names name ih =>
    rw [pendingChunkRepairCounts, List.foldl_concat, ← pendingChunkRepairCounts,
      List.filter_append, List.length_append, ← ih]
    cases hp : parseChunkRepairMarkerName name with
    | none =>
      have ho : marks stripe name = false := by rw [marks, hp]; rfl
      rw [List.filter_singleton, ho]
      rfl
    | some hash =>
      by_cases hh : chunkRepairStripe hash = stripe
      · have hm : marks stripe name = true := by
          simp only [marks, hp, hh, Option.map_some, beq_self_eq_true]
        simp only [hh, Function.update_self, List.filter_singleton, hm]
        rfl
      · have ho : marks stripe name = false := by
          simpa only [marks, hp, Option.map_some, beq_eq_false_iff_ne, ne_eq,
            Option.some.injEq] using hh
        simp only [Function.update_of_ne (Ne.symm hh), List.filter_singleton, ho]
        rfl

variable {τ : Type}

/-- What the threads share. The names are those of the chunk directory, and a file stands for its
contents. The two sets say which threads have an operation under way, and which of these have
raised the generation. No step depends on the sets. -/
structure Stripe (τ : Type) where
  generation : ℕ
  activeOperations : ℕ
  pendingMarkers : ℕ
  lock : Option τ
  names : Finset Bytes
  files : Digest → Option Bytes
  operating : Finset τ
  announced : Finset τ

def Stripe.markers (s : Stripe τ) (stripe : ℕ) : Finset Bytes :=
  s.names.filter fun name => marks stripe name = true

/-- What the atomic holds, which wraps around. -/
def Stripe.loadGeneration (s : Stripe τ) : ℕ := s.generation % 2 ^ 64

abbrev Opened := Except Unit (Option Bytes)

/-- What a thread does under the lock. A chunk is stored at the second attempt after it was found
to be different. -/
inductive Work where
  | serve
  | store (bytes : Bytes) (again : Bool)
  | collect

inductive Point where
  /-- The marker of the chunk is looked for. -/
  | settling
  /-- It is there, and is removed after the directory of the chunk is on disk. -/
  | present
  /-- It was removed, but is still counted. -/
  | removed
  | settled
  /-- The chunk file is wrong, and a marker is created. -/
  | marking
  /-- It was created, but is not yet counted. -/
  | marked
  | counted
  /-- The chunk file has been replaced. -/
  | renamed
  /-- The marker was removed, but is still counted. -/
  | unmarked
  | leaving
  deriving DecidableEq

inductive Path where
  | lockFree
  | locked
  deriving DecidableEq

/-- Where a thread is. What it saw when it opened the chunk file is kept for the statements. -/
inductive Thread (τ : Type) where
  | idle
  | loading (hash : Digest)
  | loaded (hash : Digest) (generation : ℕ)
  | inactive (hash : Digest) (generation : ℕ)
  | quiet (hash : Digest) (generation : ℕ)
  | opened (hash : Digest) (generation : ℕ) (file : Opened) (seen : Stripe τ)
  | unchanged (hash : Digest) (file : Opened) (seen : Stripe τ)
  | stillInactive (hash : Digest) (file : Opened) (seen : Stripe τ)
  | begun (hash : Digest) (bytes : Bytes)
  | waiting (work : Work) (hash : Digest)
  | holding (work : Work) (hash : Digest) (point : Point)
  | found (hash : Digest) (file : Opened) (seen : Stripe τ)
  | ending
  | served (path : Path) (hash : Digest) (file : Opened) (seen : Stripe τ)

section Steps

variable [DecidableEq τ] (sha256 : Bytes → Digest) (t : τ)

def advanceHolding (s : Stripe τ) (work : Work) (hash : Digest) (point : Point) :
    Stripe τ × Thread τ :=
  let leave := (s, Thread.holding work hash .leaving)
  match point, work with
  | .settling, _ =>
    if chunkRepairMarkerName hash ∈ s.names then (s, .holding work hash .present)
    else (s, .holding work hash .settled)
  | .present, _ =>
    if chunkRepairMarkerName hash ∈ s.names then
      ({ s with names := s.names.erase (chunkRepairMarkerName hash) }, .holding work hash .removed)
    else leave
  | .removed, _ =>
    ({ s with pendingMarkers := s.pendingMarkers - 1 }, .holding work hash .settled)
  | .settled, .serve => (s, .found hash (.ok (s.files hash)) s)
  | .settled, .collect =>
    ({ s with files := Function.update s.files hash none }, .holding work hash .leaving)
  | .settled, .store bytes again =>
    match s.files hash with
    | none =>
      ({ s with files := Function.update s.files hash (some bytes) }, .holding work hash .leaving)
    | some contents =>
      if again = true then
        if contents.length = bytes.length ∧ sha256 contents = hash then leave
        else (s, .holding work hash .marking)
      else if contents = bytes then leave
      else (s, .holding (.store bytes true) hash .settling)
  | .marking, _ =>
    if chunkRepairMarkerName hash ∈ s.names then leave
    else
      ({ s with names := insert (chunkRepairMarkerName hash) s.names }, .holding work hash .marked)
  | .marked, _ =>
    ({ s with pendingMarkers := s.pendingMarkers + 1 }, .holding work hash .counted)
  | .counted, .store bytes _ =>
    ({ s with files := Function.update s.files hash (some bytes) }, .holding work hash .renamed)
  | .counted, _ => leave
  | .renamed, _ =>
    if chunkRepairMarkerName hash ∈ s.names then
      ({ s with names := s.names.erase (chunkRepairMarkerName hash) }, .holding work hash .unmarked)
    else leave
  | .unmarked, _ =>
    ({ s with pendingMarkers := s.pendingMarkers - 1 }, .holding work hash .leaving)
  | .leaving, .serve => ({ s with lock := none }, .served .locked hash (.error ()) s)
  | .leaving, .store _ _ => ({ s with lock := none }, .ending)
  | .leaving, .collect => ({ s with lock := none }, .idle)

def advance (s : Stripe τ) : Thread τ → Option (Stripe τ × Thread τ)
  | .idle => none
  | .loading hash => some (s, .loaded hash s.loadGeneration)
  | .loaded hash generation =>
    if s.activeOperations = 0 then some (s, .inactive hash generation)
    else some (s, .waiting .serve hash)
  | .inactive hash generation =>
    if s.pendingMarkers = 0 then some (s, .quiet hash generation)
    else some (s, .waiting .serve hash)
  | .quiet hash generation => some (s, .opened hash generation (.ok (s.files hash)) s)
  | .opened hash generation file seen =>
    if s.loadGeneration = generation then some (s, .unchanged hash file seen)
    else some (s, .waiting .serve hash)
  | .unchanged hash file seen =>
    if s.activeOperations = 0 then some (s, .stillInactive hash file seen)
    else some (s, .waiting .serve hash)
  | .stillInactive hash file seen =>
    if s.pendingMarkers = 0 then some (s, .served .lockFree hash file seen)
    else some (s, .waiting .serve hash)
  | .begun hash bytes =>
    some ({ s with generation := s.generation + 1, announced := insert t s.announced },
      .waiting (.store bytes false) hash)
  | .waiting work hash =>
    if s.lock = none then some ({ s with lock := some t }, .holding work hash .settling) else none
  | .holding work hash point => some (advanceHolding sha256 s work hash point)
  | .found hash file seen => some ({ s with lock := none }, .served .locked hash file seen)
  | .ending =>
    some ({ s with activeOperations := s.activeOperations - 1, operating := s.operating.erase t,
                   announced := s.announced.erase t }, .idle)
  | .served _ _ _ _ => none

def Point.fallible : Point → Bool
  | .settling | .present | .settled | .marking | .counted | .renamed => true
  | .removed | .marked | .unmarked | .leaving => false

def refuse (s : Stripe τ) : Thread τ → Option (Thread τ)
  | .quiet hash generation => some (.opened hash generation (.error ()) s)
  | .holding work hash point =>
    if point.fallible = true then some (.holding work hash .leaving) else none
  | _ => none

def findNoShard (s : Stripe τ) : Thread τ → Option (Thread τ)
  | .holding .serve hash .settling =>
    if s.files hash = none then some (.found hash (.ok none) s) else none
  | _ => none

structure State (τ : Type) where
  stripe : Stripe τ
  threads : τ → Thread τ

inductive Event (τ : Type) where
  | openServing (t : τ) (hash : Digest)
  | openChunk (t : τ) (hash : Digest)
  | store (t : τ) (hash : Digest) (bytes : Bytes)
  | collect (t : τ) (hash : Digest)
  | advance (t : τ)
  | fail (t : τ)
  | findNoShard (t : τ)
  /-- The caller has taken the file. -/
  | take (t : τ)
  /-- A chunk file is damaged. -/
  | damage (hash : Digest) (contents : Option Bytes)
  /-- Other names in the chunk directory come and go. -/
  | elsewhere (names : Finset Bytes)
  /-- The process starts again and finds these names and files. -/
  | restart (names : List Bytes) (files : Digest → Option Bytes)

def State.put (w : State τ) (t : τ) (s : Stripe τ) (thread : Thread τ) : State τ :=
  ⟨s, Function.update w.threads t thread⟩

def started (stripe : ℕ) (names : List Bytes) (files : Digest → Option Bytes) : State τ :=
  ⟨⟨0, 0, pendingChunkRepairCounts names stripe, none, names.toFinset, files, ∅, ∅⟩, fun _ => .idle⟩

def State.begin (stripe : ℕ) (w : State τ) (t : τ) (hash : Digest) (s : Stripe τ)
    (thread : Thread τ) : Option (State τ) :=
  match w.threads t with
  | .idle => if chunkRepairStripe hash = stripe then some (w.put t s thread) else none
  | _ => none

def next (stripe : ℕ) (w : State τ) : Event τ → Option (State τ)
  | .openServing t hash => w.begin stripe t hash w.stripe (.loading hash)
  | .openChunk t hash => w.begin stripe t hash w.stripe (.waiting .serve hash)
  | .store t hash bytes =>
    w.begin stripe t hash
      { w.stripe with activeOperations := w.stripe.activeOperations + 1,
                      operating := insert t w.stripe.operating } (.begun hash bytes)
  | .collect t hash => w.begin stripe t hash w.stripe (.waiting .collect hash)
  | .advance t => (advance sha256 t w.stripe (w.threads t)).map fun (s, thread) => w.put t s thread
  | .fail t => (refuse w.stripe (w.threads t)).map fun thread => w.put t w.stripe thread
  | .findNoShard t =>
    (findNoShard w.stripe (w.threads t)).map fun thread => w.put t w.stripe thread
  | .take t =>
    match w.threads t with
    | .served _ _ _ _ => some (w.put t w.stripe .idle)
    | _ => none
  | .damage hash contents =>
    some { w with stripe := { w.stripe with files := Function.update w.stripe.files hash contents } }
  | .elsewhere names =>
    if names.filter (fun name => marks stripe name = true) = w.stripe.markers stripe then
      some { w with stripe := { w.stripe with names } }
    else none
  | .restart names files => if names.Nodup then some (started stripe names files) else none

end Steps

/-- No operation has raised the generation, and no marker is there or counted. -/
structure Stripe.Clean (s : Stripe τ) (stripe : ℕ) : Prop where
  announced : s.announced = ∅
  pending : s.pendingMarkers = 0
  markers : s.markers stripe = ∅

def Work.stores : Work → Bool
  | .serve | .collect => false
  | .store _ _ => true

namespace Thread

def hash : Thread τ → Option Digest
  | .idle | .ending => none
  | .loading hash | .loaded hash _ | .inactive hash _ | .quiet hash _ | .opened hash _ _ _
  | .unchanged hash _ _ | .stillInactive hash _ _ | .begun hash _ | .waiting _ hash
  | .holding _ hash _ | .found hash _ _ | .served _ hash _ _ => some hash

def holds : Thread τ → Bool
  | .holding _ _ _ | .found _ _ _ => true
  | _ => false

def announced : Thread τ → Bool
  | .waiting work _ | .holding work _ _ => work.stores
  | .ending => true
  | _ => false

def operating : Thread τ → Bool
  | .begun _ _ => true
  | thread => thread.announced

def uncounted : Thread τ → ℕ
  | .holding _ _ .marked => 1
  | _ => 0

def overcounted : Thread τ → ℕ
  | .holding _ _ .removed | .holding _ _ .unmarked => 1
  | _ => 0

def counts (thread : Thread τ) : ℕ × ℕ := (thread.uncounted, thread.overcounted)

def duties (thread : Thread τ) : Bool × Bool × Bool × ℕ × ℕ :=
  (thread.holds, thread.operating, thread.announced, thread.counts)

end Thread

/-- What a thread knows from the steps it has taken. -/
def Place (stripe : ℕ) (s : Stripe τ) (t : τ) : Thread τ → Prop
  | .loaded _ generation => s.generation < 2 ^ 64 → generation ≤ s.generation
  | .inactive _ generation => s.generation < 2 ^ 64 →
    generation ≤ s.generation ∧ (s.generation = generation → s.announced = ∅)
  | .quiet _ generation => s.generation < 2 ^ 64 →
    generation ≤ s.generation ∧ (s.generation = generation → s.Clean stripe)
  | .opened hash generation file seen =>
    (s.generation < 2 ^ 64 → generation ≤ seen.generation ∧ seen.generation ≤ s.generation ∧
      (seen.generation = generation → seen.Clean stripe)) ∧
    (∀ contents, file = .ok (some contents) → seen.files hash = some contents)
  | .unchanged hash file seen | .stillInactive hash file seen | .served .lockFree hash file seen =>
    (s.generation < 2 ^ 64 → seen.Clean stripe) ∧
      (∀ contents, file = .ok (some contents) → seen.files hash = some contents)
  | .holding _ hash .removed | .holding _ hash .settled =>
    chunkRepairMarkerName hash ∉ s.markers stripe
  | .holding work _ .marking | .holding work _ .marked => work.stores = true
  | .found hash file seen | .served .locked hash file seen =>
    ∀ contents, file = .ok (some contents) → seen.files hash = some contents ∧
      seen.lock = some t ∧ chunkRepairMarkerName hash ∉ seen.names
  | _ => True

structure ThreadOk (stripe : ℕ) (s : Stripe τ) (t : τ) (thread : Thread τ) : Prop where
  hash : ∀ hash, thread.hash = some hash → chunkRepairStripe hash = stripe
  holds : thread.holds = true ↔ s.lock = some t
  operating : thread.operating = true ↔ t ∈ s.operating
  announced : thread.announced = true ↔ t ∈ s.announced
  counted : thread.holds = true →
    s.pendingMarkers + thread.uncounted = (s.markers stripe).card + thread.overcounted
  place : Place stripe s t thread

structure Sound (stripe : ℕ) (w : State τ) : Prop where
  free : w.stripe.lock = none → w.stripe.pendingMarkers = (w.stripe.markers stripe).card
  active : w.stripe.activeOperations = w.stripe.operating.card
  threads : ∀ t, ThreadOk stripe w.stripe t (w.threads t)

/-- What a step of one thread may do to the others. Only the thread that holds the lock touches
the markers, and they grow only while an operation has raised the generation. -/
structure Allowed (stripe : ℕ) (t : τ) (s s' : Stripe τ) : Prop where
  generation : s.generation ≤ s'.generation
  announced : s'.generation = s.generation → s.announced = ∅ → s'.announced = ∅
  clean : s'.generation = s.generation → s.Clean stripe → s'.Clean stripe
  lock : ∀ j, j ≠ t → (s'.lock = some j ↔ s.lock = some j)
  operating : ∀ j, j ≠ t → (j ∈ s'.operating ↔ j ∈ s.operating)
  othersAnnounced : ∀ j, j ≠ t → (j ∈ s'.announced ↔ j ∈ s.announced)
  markers : s.lock ≠ some t → s'.markers stripe = s.markers stripe
  pending : s.lock ≠ some t → s'.pendingMarkers = s.pendingMarkers

variable {sha256 : Bytes → Digest} {stripe : ℕ} {t : τ} {thread : Thread τ} {w w' : State τ}
  {hash : Digest}

theorem Place.kept (h : Place stripe s j thread) (hg : s.generation ≤ s'.generation)
    (hn : s'.generation = s.generation → s.announced = ∅ → s'.announced = ∅)
    (hc : s'.generation = s.generation → s.Clean stripe → s'.Clean stripe)
    (hm : thread.holds = true → s'.markers stripe = s.markers stripe) :
    Place stripe s' j thread := by
  have hb : s'.generation < 2 ^ 64 → s.generation < 2 ^ 64 := Nat.lt_of_le_of_lt hg
  cases thread with
  | loaded hash generation =>
    intro hs
    have hle := h (hb hs)
    omega
  | inactive hash generation =>
    intro hs
    obtain ⟨hle, he⟩ := h (hb hs)
    refine ⟨Nat.le_trans hle hg, fun heq => ?_⟩
    exact hn (by omega) (he (by omega))
  | quiet hash generation =>
    intro hs
    obtain ⟨hle, hq⟩ := h (hb hs)
    refine ⟨Nat.le_trans hle hg, fun heq => ?_⟩
    exact hc (by omega) (hq (by omega))
  | opened hash generation file seen =>
    refine ⟨fun hs => ?_, h.2⟩
    obtain ⟨hf, hl, hse⟩ := h.1 (hb hs)
    exact ⟨hf, Nat.le_trans hl hg, hse⟩
  | unchanged | stillInactive => exact ⟨fun hs => h.1 (hb hs), h.2⟩
  | served path hash file seen =>
    cases path with
    | lockFree => exact ⟨fun hs => h.1 (hb hs), h.2⟩
    | locked => exact h
  | holding work hash point =>
    have ha := hm rfl
    cases point with
    | removed | settled => simpa only [Place, ha] using h
    | marking | marked => exact h
    | settling | present | counted | renamed | unmarked | leaving => trivial
  | found hash file seen => exact h
  | idle | loading | begun | waiting | ending => trivial

theorem ThreadOk.other (h : ThreadOk stripe s j thread) (hj : j ≠ t) (hs : Allowed stripe t s s') :
    ThreadOk stripe s' j thread := by
  have hf : thread.holds = true → s.lock ≠ some t := by
    intro hh
    rw [h.holds.1 hh]
    exact fun heq => hj (Option.some.inj heq)
  refine ⟨h.hash, ?_, ?_, ?_, ?_, ?_⟩
  · rw [hs.lock j hj, h.holds]
  · rw [hs.operating j hj, h.operating]
  · rw [hs.othersAnnounced j hj, h.announced]
  · intro hh
    rw [hs.markers (hf hh), hs.pending (hf hh)]
    exact h.counted hh
  · exact h.place.kept hs.generation hs.announced hs.clean fun hh => hs.markers (hf hh)

structure Stepped (stripe : ℕ) (t : τ) (s s' : Stripe τ) (thread' : Thread τ) : Prop where
  allowed : Allowed stripe t s s'
  thread : ThreadOk stripe s' t thread'
  free : s'.lock = none → s'.pendingMarkers = (s'.markers stripe).card
  active : s'.activeOperations = s'.operating.card

section Puts

variable [DecidableEq τ]

theorem Sound.put (h : Sound stripe w) (hs : Stepped stripe t w.stripe s' thread') :
    Sound stripe (w.put t s' thread') := by
  refine ⟨hs.free, hs.active, fun j => ?_⟩
  by_cases hj : j = t
  · subst hj
    simp only [State.put, Function.update_self]
    exact hs.thread
  · simp only [State.put, Function.update_of_ne hj]
    exact (h.threads j).other hj hs.allowed

end Puts

theorem ThreadOk.moved (h : ThreadOk stripe s t thread)
    (hs : ∀ hash, thread'.hash = some hash → chunkRepairStripe hash = stripe)
    (hd : thread'.duties = thread.duties) (hp : Place stripe s t thread') :
    ThreadOk stripe s t thread' := by
  simp only [Thread.duties, Thread.counts, Prod.mk.injEq] at hd
  obtain ⟨hh, ho, ha, hu, hv⟩ := hd
  refine ⟨hs, ?_, ?_, ?_, ?_, hp⟩
  · rw [hh]
    exact h.holds
  · rw [ho]
    exact h.operating
  · rw [ha]
    exact h.announced
  · rw [hh, hu, hv]
    exact h.counted

theorem Stepped.idle (h : Sound stripe w) (ht : ThreadOk stripe w.stripe t thread)
    (hh : ∀ hash, thread'.hash = some hash → chunkRepairStripe hash = stripe)
    (hd : thread'.duties = thread.duties) (hp : Place stripe w.stripe t thread') :
    Stepped stripe t w.stripe w.stripe thread' :=
  ⟨⟨Nat.le_refl _, fun _ => id, fun _ => id, fun _ _ => Iff.rfl, fun _ _ => Iff.rfl,
    fun _ _ => Iff.rfl, fun _ => rfl, fun _ => rfl⟩, ht.moved hh hd hp, h.free, h.active⟩

theorem Sound.announced_eq_empty (h : Sound stripe w) (hn : w.stripe.activeOperations = 0) :
    w.stripe.announced = ∅ := by
  have he : w.stripe.operating = ∅ := by
    rw [← card_eq_zero, ← h.active]
    exact hn
  rw [eq_empty_iff_forall_notMem]
  intro j hj
  have ha := (h.threads j).announced.2 hj
  have ho : (w.threads j).operating = true := by
    generalize w.threads j = thread at ha ⊢
    cases thread <;> first | exact ha | rfl
  have hm := (h.threads j).operating.1 ho
  rw [he] at hm
  exact absurd hm (notMem_empty j)

/-- Markers that are not counted belong to an operation that has raised the generation. -/
theorem Sound.clean (h : Sound stripe w) (ha : w.stripe.announced = ∅)
    (hp : w.stripe.pendingMarkers = 0) : w.stripe.Clean stripe := by
  refine ⟨ha, hp, ?_⟩
  rw [← card_eq_zero]
  cases hl : w.stripe.lock with
  | none => rw [← h.free hl, hp]
  | some j =>
    have hj := h.threads j
    have ho := hj.counted (hj.holds.2 hl)
    have hu : (w.threads j).uncounted = 0 := by
      by_contra hne
      have hm : j ∈ w.stripe.announced := by
        apply hj.announced.1
        have hc := hj.place
        generalize w.threads j = thread at hne hc ⊢
        cases thread with
        | holding work hash point =>
          cases point with
          | marked => exact hc
          | _ => exact absurd rfl hne
        | _ => exact absurd rfl hne
      rw [ha] at hm
      exact notMem_empty j hm
    omega

section Steps

theorem Stepped.within (h : Sound stripe w) (ht : ThreadOk stripe w.stripe t thread)
    (thread' : Thread τ) (hh : thread.holds = true) (hh' : thread'.holds = true)
    (hs : thread'.hash = thread.hash) (hp : thread'.operating = thread.operating)
    (ha : thread'.announced = thread.announced)
    (hc : w.stripe.Clean stripe →
      pendingMarkers = 0 ∧ (names.filter fun name => marks stripe name = true) = ∅)
    (ho : pendingMarkers + thread'.uncounted =
      (names.filter fun name => marks stripe name = true).card + thread'.overcounted)
    (hpl : Place stripe { w.stripe with pendingMarkers, names, files } t thread') :
    Stepped stripe t w.stripe { w.stripe with pendingMarkers, names, files } thread' := by
  have hl := ht.holds.1 hh
  refine ⟨⟨Nat.le_refl _, fun _ => id, ?_, fun _ _ => Iff.rfl, fun _ _ => Iff.rfl,
    fun _ _ => Iff.rfl, fun hne => absurd hl hne, fun hne => absurd hl hne⟩,
    ⟨?_, ?_, ?_, ?_, fun _ => ho, hpl⟩, ?_, h.active⟩
  · intro _ hq
    obtain ⟨he, hm⟩ := hc hq
    exact ⟨hq.announced, he, hm⟩
  · rw [hs]
    exact ht.hash
  · rw [hh']
    exact ⟨fun _ => hl, fun _ => rfl⟩
  · rw [hp]
    exact ht.operating
  · rw [ha]
    exact ht.announced
  · intro hn
    simp only at hn
    rw [hl] at hn
    cases hn

theorem Stepped.release (h : Sound stripe w) (ht : ThreadOk stripe w.stripe t thread)
    (thread' : Thread τ) (hh : thread.holds = true) (hu : thread.uncounted = 0)
    (hv : thread.overcounted = 0) (hh' : thread'.holds = false)
    (hs : ∀ hash, thread'.hash = some hash → thread.hash = some hash)
    (ho : thread'.operating = thread.operating) (ha : thread'.announced = thread.announced)
    (hp : Place stripe { w.stripe with lock := none } t thread') :
    Stepped stripe t w.stripe { w.stripe with lock := none } thread' := by
  have hl := ht.holds.1 hh
  have hc := ht.counted hh
  rw [hu, hv] at hc
  refine ⟨⟨Nat.le_refl _, fun _ => id, fun _ hq => ⟨hq.1, hq.2, hq.3⟩, ?_,
    fun _ _ => Iff.rfl, fun _ _ => Iff.rfl, fun _ => rfl, fun _ => rfl⟩,
    ⟨fun hash heq => ht.hash hash (hs hash heq), ?_, ?_, ?_, ?_, hp⟩, fun _ => hc, h.active⟩
  · intro j hj
    simp only [hl, reduceCtorEq, false_iff]
    exact fun heq => hj (Option.some.inj heq).symm
  · simp only [hh', reduceCtorEq, Bool.false_eq_true]
  · rw [ho]
    exact ht.operating
  · rw [ha]
    exact ht.announced
  · intro hr
    rw [hh'] at hr
    cases hr

theorem Stripe.mem_markers (s : Stripe τ) (h : chunkRepairStripe hash = stripe) :
    chunkRepairMarkerName hash ∈ s.markers stripe ↔ chunkRepairMarkerName hash ∈ s.names := by
  rw [Stripe.markers, mem_filter, and_iff_left (marks_chunkRepairMarkerName h)]

theorem leaving_stepped [DecidableEq τ] (h : Sound stripe w)
    (ht : ThreadOk stripe w.stripe t (.holding work hash .leaving)) :
    Stepped stripe t w.stripe (advanceHolding sha256 w.stripe work hash .leaving).1
      (advanceHolding sha256 w.stripe work hash .leaving).2 := by
  cases work with
  | serve =>
    refine .release h ht _ rfl rfl rfl rfl (fun _ => id) rfl rfl ?_
    intro contents hf
    cases hf
  | store | collect =>
    exact .release h ht _ rfl rfl rfl rfl (fun _ hn => by cases hn) rfl rfl trivial

theorem remove_stepped (h : Sound stripe w)
    (ht : ThreadOk stripe w.stripe t (.holding work hash point))
    (hme : chunkRepairMarkerName hash ∈ w.stripe.names)
    (hc : Thread.counts (.holding work hash point : Thread τ) = (0, 0))
    (hc' : Thread.counts (.holding work hash point' : Thread τ) = (0, 1))
    (hp : ∀ s' : Stripe τ, chunkRepairMarkerName hash ∉ s'.markers stripe →
      Place stripe s' t (.holding work hash point')) : Stepped stripe t w.stripe
      { w.stripe with names := w.stripe.names.erase (chunkRepairMarkerName hash) }
      (.holding work hash point') := by
  obtain ⟨hu, ho⟩ := Prod.mk.inj hc
  obtain ⟨hu', ho'⟩ := Prod.mk.inj hc'
  have hh := ht.hash hash rfl
  have hm := (w.stripe.mem_markers hh).2 hme
  have hn := ht.counted rfl
  have ha := card_pos.2 ⟨_, hm⟩
  rw [hu, ho] at hn
  refine .within h ht (.holding work hash point') rfl rfl rfl rfl rfl ?_ ?_ (hp _ ?_)
  · intro hq
    rw [hq.markers] at hm
    exact absurd hm (notMem_empty _)
  · rw [filter_erase, hu', ho']
    have he := card_erase_of_mem hm
    rw [Stripe.markers] at he hn ha
    omega
  · rw [Stripe.mem_markers _ hh]
    exact notMem_erase _ _

theorem uncount_stepped (h : Sound stripe w)
    (ht : ThreadOk stripe w.stripe t (.holding work hash point))
    (hc : Thread.counts (.holding work hash point : Thread τ) = (0, 1))
    (hc' : Thread.counts (.holding work hash point' : Thread τ) = (0, 0))
    (hp : Place stripe { w.stripe with pendingMarkers := w.stripe.pendingMarkers - 1 } t
      (.holding work hash point')) :
    Stepped stripe t w.stripe { w.stripe with pendingMarkers := w.stripe.pendingMarkers - 1 }
      (.holding work hash point') := by
  obtain ⟨hu, ho⟩ := Prod.mk.inj hc
  obtain ⟨hu', ho'⟩ := Prod.mk.inj hc'
  have hn := ht.counted rfl
  rw [hu, ho, Stripe.markers] at hn
  refine .within h ht (.holding work hash point') rfl rfl rfl rfl rfl ?_ ?_ hp
  · intro hq
    exact ⟨by rw [hq.pending], hq.markers⟩
  · rw [hu', ho']
    omega

theorem files_stepped (h : Sound stripe w)
    (ht : ThreadOk stripe w.stripe t (.holding work hash point)) (point' : Point)
    (hc : Thread.counts (.holding work hash point' : Thread τ) =
      Thread.counts (.holding work hash point : Thread τ)) (files : Digest → Option Bytes)
    (hp : Place stripe { w.stripe with files } t (.holding work hash point')) :
    Stepped stripe t w.stripe { w.stripe with files } (.holding work hash point') := by
  refine .within h ht (.holding work hash point') rfl rfl rfl rfl rfl ?_ ?_ hp
  · intro hq
    exact ⟨hq.pending, hq.markers⟩
  · obtain ⟨hu, ho⟩ := Prod.mk.inj hc
    rw [hu, ho]
    exact ht.counted rfl

theorem not_clean_of_stores
    (ht : ThreadOk stripe s t (.holding work hash point)) (hs : work.stores = true) :
    ¬s.Clean stripe := by
  intro hq
  have hm := ht.announced.1 hs
  rw [hq.announced] at hm
  exact notMem_empty t hm

section

variable (h : Sound stripe w)
include h

theorem settled_stepped [DecidableEq τ]
    (ht : ThreadOk stripe w.stripe t (.holding work hash .settled)) :
    Stepped stripe t w.stripe (advanceHolding sha256 w.stripe work hash .settled).1
      (advanceHolding sha256 w.stripe work hash .settled).2 := by
  have hm : chunkRepairMarkerName hash ∉ w.stripe.markers stripe := ht.place
  cases work with
  | serve =>
    refine .idle h ht ht.hash rfl ?_
    intro contents hf
    rw [Stripe.mem_markers _ (ht.hash hash rfl)] at hm
    exact ⟨Except.ok.inj hf, ht.holds.1 rfl, hm⟩
  | collect => exact files_stepped h ht .leaving rfl _ trivial
  | store bytes again =>
    simp only [advanceHolding]
    cases hf : w.stripe.files hash with
    | none => exact files_stepped h ht .leaving rfl _ trivial
    | some contents =>
      simp only
      split
      · split
        · exact .idle h ht ht.hash rfl trivial
        · exact .idle h ht ht.hash rfl rfl
      · split
        · exact .idle h ht ht.hash rfl trivial
        · exact .idle h ht ht.hash rfl trivial

theorem marking_stepped [DecidableEq τ] {work : Work}
    (ht : ThreadOk stripe w.stripe t (.holding work hash .marking)) :
    Stepped stripe t w.stripe (advanceHolding sha256 w.stripe work hash .marking).1
      (advanceHolding sha256 w.stripe work hash .marking).2 := by
  have hh := ht.hash hash rfl
  simp only [advanceHolding]
  split
  · exact .idle h ht ht.hash rfl trivial
  · rename_i he
    have hc := ht.counted rfl
    have hm : chunkRepairMarkerName hash ∉
        w.stripe.names.filter fun name => marks stripe name = true := by
      rwa [← Stripe.markers, Stripe.mem_markers _ hh]
    refine .within h ht (.holding work hash .marked) rfl rfl rfl rfl rfl ?_ ?_ ht.place
    · exact fun hq => absurd hq (not_clean_of_stores ht ht.place)
    · rw [filter_insert, if_pos (marks_chunkRepairMarkerName hh), card_insert_of_notMem hm]
      simp only [Thread.uncounted, Thread.overcounted, Stripe.markers] at hc ⊢
      omega

theorem marked_stepped (ht : ThreadOk stripe w.stripe t (.holding work hash .marked)) :
    Stepped stripe t w.stripe { w.stripe with pendingMarkers := w.stripe.pendingMarkers + 1 }
      (.holding work hash .counted) := by
  have hc := ht.counted rfl
  refine .within h ht (.holding work hash .counted) rfl rfl rfl rfl rfl ?_ ?_ trivial
  · exact fun hq => absurd hq (not_clean_of_stores ht ht.place)
  · simp only [Thread.uncounted, Thread.overcounted, Stripe.markers] at hc ⊢
    omega

theorem advanceHolding_stepped [DecidableEq τ]
    (ht : ThreadOk stripe w.stripe t (.holding work hash point)) :
    Stepped stripe t w.stripe (advanceHolding sha256 w.stripe work hash point).1
      (advanceHolding sha256 w.stripe work hash point).2 := by
  cases point with
  | settling =>
    simp only [advanceHolding]
    split
    · exact .idle h ht ht.hash rfl trivial
    · rename_i hm
      refine .idle h ht ht.hash rfl ?_
      rwa [Place, Stripe.mem_markers _ (ht.hash hash rfl)]
  | present =>
    simp only [advanceHolding]
    split
    · rename_i hm
      exact remove_stepped h ht hm rfl rfl fun _ => id
    · exact .idle h ht ht.hash rfl trivial
  | removed => exact uncount_stepped h ht rfl rfl ht.place
  | settled => exact settled_stepped h ht
  | marking => exact marking_stepped h ht
  | marked => exact marked_stepped h ht
  | counted =>
    cases work with
    | store bytes again => exact files_stepped h ht .renamed rfl _ trivial
    | serve | collect => exact .idle h ht ht.hash rfl trivial
  | renamed =>
    simp only [advanceHolding]
    split
    · rename_i hm
      exact remove_stepped h ht hm rfl rfl fun _ _ => trivial
    · exact .idle h ht ht.hash rfl trivial
  | unmarked => exact uncount_stepped h ht rfl rfl trivial
  | leaving => exact leaving_stepped h ht

theorem begun_stepped [DecidableEq τ]
    (ht : ThreadOk stripe w.stripe t (.begun hash bytes)) : Stepped stripe t w.stripe
      { w.stripe with
        generation := w.stripe.generation + 1, announced := insert t w.stripe.announced }
      (.waiting (.store bytes false) hash) := by
  refine ⟨⟨Nat.le_succ _, fun heq => absurd heq (Nat.succ_ne_self _),
    fun heq => absurd heq (Nat.succ_ne_self _), fun _ _ => Iff.rfl, fun _ _ => Iff.rfl, ?_,
    fun _ => rfl, fun _ => rfl⟩,
    ⟨ht.hash, ht.holds, ht.operating, ?_, ht.counted, trivial⟩, h.free, h.active⟩
  · intro j hj
    rw [mem_insert, or_iff_right hj]
  · exact ⟨fun _ => mem_insert_self _ _, fun _ => rfl⟩

theorem acquire_stepped
    (ht : ThreadOk stripe w.stripe t (.waiting work hash)) (hl : w.stripe.lock = none) :
    Stepped stripe t w.stripe { w.stripe with lock := some t } (.holding work hash .settling) := by
  refine ⟨⟨Nat.le_refl _, fun _ => id, fun _ hq => ⟨hq.1, hq.2, hq.3⟩, ?_,
    fun _ _ => Iff.rfl, fun _ _ => Iff.rfl, fun _ => rfl, fun _ => rfl⟩,
    ⟨ht.hash, ?_, ht.operating, ht.announced, fun _ => h.free hl, trivial⟩, ?_, h.active⟩
  · intro j hj
    rw [hl]
    exact ⟨fun heq => absurd (Option.some.inj heq).symm hj, fun heq => by cases heq⟩
  · exact ⟨fun _ => rfl, fun _ => rfl⟩
  · intro hn
    cases hn

theorem ending_stepped [DecidableEq τ]
    (ht : ThreadOk stripe w.stripe t .ending) : Stepped stripe t w.stripe
      { w.stripe with
        activeOperations := w.stripe.activeOperations - 1
        operating := w.stripe.operating.erase t, announced := w.stripe.announced.erase t } .idle := by
  have hm := ht.operating.1 rfl
  refine ⟨⟨Nat.le_refl _, ?_, ?_, fun _ _ => Iff.rfl, ?_, ?_, fun _ => rfl, fun _ => rfl⟩,
    ⟨fun _ => ?_, ht.holds, ?_, ?_, ht.counted, trivial⟩, h.free, ?_⟩
  · intro _ he
    simp only [he, erase_empty]
  · intro _ hq
    refine ⟨?_, hq.pending, hq.markers⟩
    simp only [hq.announced, erase_empty]
  · intro j hj
    rw [mem_erase, and_iff_right hj]
  · intro j hj
    rw [mem_erase, and_iff_right hj]
  · intro hn
    cases hn
  · exact iff_of_false Bool.false_ne_true (notMem_erase _ _)
  · exact iff_of_false Bool.false_ne_true (notMem_erase _ _)
  · simp only [h.active, card_erase_of_mem hm]

section

variable (ht : ThreadOk stripe w.stripe t thread)
include ht

/-- A look at the counters after which the thread goes on or waits for the lock. -/
theorem look_stepped {c : Prop} [Decidable c] {next}
    (hs : (if c then some (w.stripe, next) else some (w.stripe, .waiting .serve hash)) =
      some (s', thread')) (hh : thread.hash = some hash) (hn : next.hash = some hash)
    (hd : next.duties = thread.duties)
    (hw : Thread.duties (.waiting .serve hash : Thread τ) = thread.duties)
    (hp : c → Place stripe w.stripe t next) : Stepped stripe t w.stripe s' thread' := by
  have hr := ht.hash hash hh
  split at hs
  · rename_i hc
    cases hs
    exact .idle h ht (fun _ heq => Option.some.inj (hn.symm.trans heq) ▸ hr) hd (hp hc)
  · cases hs
    exact .idle h ht (fun _ heq => Option.some.inj heq ▸ hr) hw trivial

/-- Every step of a thread keeps what is true of it and does not disturb the others. -/
theorem advance_stepped [DecidableEq τ]
    (hs : advance sha256 t w.stripe thread = some (s', thread')) :
    Stepped stripe t w.stripe s' thread' := by
  cases thread with
  | idle | served => cases hs
  | loading hash =>
    cases hs
    exact .idle h ht ht.hash rfl fun _ => Nat.mod_le _ _
  | loaded hash generation =>
    refine look_stepped h ht hs rfl rfl rfl rfl fun ha hm => ?_
    exact ⟨ht.place hm, fun _ => h.announced_eq_empty ha⟩
  | inactive hash generation =>
    refine look_stepped h ht hs rfl rfl rfl rfl fun hp hm => ?_
    obtain ⟨hle, hn⟩ := ht.place hm
    exact ⟨hle, fun heq => h.clean (hn heq) hp⟩
  | quiet hash generation =>
    cases hs
    refine .idle h ht ht.hash rfl ⟨fun hm => ?_, fun _ hf => Except.ok.inj hf⟩
    obtain ⟨hle, hc⟩ := ht.place hm
    exact ⟨hle, Nat.le_refl _, hc⟩
  | opened hash generation file seen =>
    refine look_stepped h ht hs rfl rfl rfl rfl fun he => ⟨fun hm => ?_, ht.place.2⟩
    obtain ⟨hi, hla, hc⟩ := ht.place.1 hm
    rw [Stripe.loadGeneration, Nat.mod_eq_of_lt hm] at he
    exact hc (by omega)
  | unchanged | stillInactive =>
    exact look_stepped h ht hs rfl rfl rfl rfl fun _ => ht.place
  | begun hash bytes =>
    cases hs
    exact begun_stepped h ht
  | waiting work hash =>
    simp only [advance] at hs
    split at hs
    · rename_i hl
      cases hs
      exact acquire_stepped h ht hl
    · cases hs
  | holding work hash point =>
    have hst : Stepped stripe t w.stripe (advanceHolding sha256 w.stripe work hash point).1
        (advanceHolding sha256 w.stripe work hash point).2 := advanceHolding_stepped h ht
    rwa [Option.some.inj hs] at hst
  | found hash file seen =>
    cases hs
    exact .release h ht _ rfl rfl rfl rfl (fun _ => id) rfl rfl ht.place
  | ending =>
    cases hs
    exact ending_stepped h ht

theorem refuse_stepped
    (hs : refuse w.stripe thread = some thread') : Stepped stripe t w.stripe w.stripe thread' := by
  cases thread with
  | quiet hash generation =>
    cases hs
    refine .idle h ht ht.hash rfl ⟨fun hm => ?_, fun _ hi => ?_⟩
    · obtain ⟨hle, hc⟩ := ht.place hm
      exact ⟨hle, Nat.le_refl _, hc⟩
    · cases hi
  | holding work hash point =>
    simp only [refuse] at hs
    split at hs
    · rename_i hf
      cases hs
      have hd : Thread.duties (.holding work hash .leaving : Thread τ) =
          Thread.duties (.holding work hash point : Thread τ) := by
        cases point with
        | removed | marked | unmarked => cases hf
        | _ => rfl
      exact .idle h ht ht.hash hd trivial
    · cases hs
  | _ => cases hs

theorem findNoShard_stepped (hs : findNoShard w.stripe thread = some thread') :
    Stepped stripe t w.stripe w.stripe thread' := by
  unfold findNoShard at hs
  split at hs
  · split at hs
    · cases hs
      refine .idle h ht ht.hash rfl fun _ hf => ?_
      cases hf
    · cases hs
  · cases hs

end

end

end Steps

section Runs

/-- Files of chunks and names that are no markers of the stripe do not matter. -/
theorem Sound.environment (h : Sound stripe w) (files : Digest → Option Bytes)
    (hs : names.filter (fun name => marks stripe name = true) = w.stripe.markers stripe) :
    Sound stripe { w with stripe := { w.stripe with names, files } } := by
  refine ⟨fun hl => ?_, h.active, fun t => ?_⟩
  · simp only [Stripe.markers, hs]
    exact h.free hl
  · have ht := h.threads t
    refine ⟨ht.hash, ht.holds, ht.operating, ht.announced, ?_, ht.place.kept (Nat.le_refl _)
      (fun _ => id) ?_ fun _ => hs⟩
    · simp only [Stripe.markers, hs]
      exact ht.counted
    · intro _ hq
      exact ⟨hq.announced, hq.pending, hs.trans hq.markers⟩

theorem started_sound (hn : names.Nodup) :
    Sound stripe (started stripe names files : State τ) := by
  refine ⟨fun _ => ?_, rfl, fun t => ⟨fun _ ho => ?_, ?_, ?_, ?_, fun hf => ?_, trivial⟩⟩
  · rw [started, Stripe.markers, pendingChunkRepairCounts_eq,
      ← List.toFinset_card_of_nodup (hn.filter _), List.toFinset_filter]
  · cases ho
  · exact iff_of_false Bool.false_ne_true (Option.some_ne_none t).symm
  · exact iff_of_false Bool.false_ne_true (notMem_empty t)
  · exact iff_of_false Bool.false_ne_true (notMem_empty t)
  · cases hf

variable [DecidableEq τ]

theorem store_stepped (h : Sound stripe w) (hh : chunkRepairStripe hash = stripe)
    (ht : ThreadOk stripe w.stripe t .idle) : Stepped stripe t w.stripe
      { w.stripe with
        activeOperations := w.stripe.activeOperations + 1
        operating := insert t w.stripe.operating } (.begun hash bytes) := by
  have hm := mt ht.operating.2 Bool.false_ne_true
  refine ⟨⟨Nat.le_refl _, fun _ => id, fun _ hq => ⟨hq.1, hq.2, hq.3⟩,
    fun _ _ => Iff.rfl, ?_, fun _ _ => Iff.rfl, fun _ => rfl, fun _ => rfl⟩,
    ⟨?_, ht.holds, ?_, ht.announced, ht.counted, trivial⟩, h.free, ?_⟩
  · intro j hj
    rw [mem_insert, or_iff_right hj]
  · intro other heq
    cases heq
    exact hh
  · exact iff_of_true rfl (mem_insert_self _ _)
  · simp only [h.active, card_insert_of_notMem hm]

theorem begin_sound (h : Sound stripe w) (hs : w.begin stripe t hash s' thread = some w')
    (hb : chunkRepairStripe hash = stripe → ThreadOk stripe w.stripe t .idle →
      Stepped stripe t w.stripe s' thread) : Sound stripe w' := by
  unfold State.begin at hs
  split at hs
  · rename_i hi
    split at hs
    · rename_i hh
      cases hs
      have ht := h.threads t
      rw [hi] at ht
      exact h.put (hb hh ht)
    · cases hs
  · cases hs

theorem next_sound (h : Sound stripe w)
    (hs : next sha256 stripe w event = some w') : Sound stripe w' := by
  cases event with
  | openServing | openChunk | collect =>
    exact begin_sound h hs fun hh ht =>
      .idle h ht (fun _ heq => Option.some.inj heq ▸ hh) rfl trivial
  | store t hash bytes =>
    exact begin_sound h hs fun hh ht => store_stepped h hh ht
  | advance t =>
    obtain ⟨⟨s', thread'⟩, ha, rfl⟩ := Option.map_eq_some_iff.1 hs
    exact h.put (advance_stepped h (h.threads t) ha)
  | fail t =>
    obtain ⟨thread', hr, rfl⟩ := Option.map_eq_some_iff.1 hs
    exact h.put (refuse_stepped h (h.threads t) hr)
  | findNoShard t =>
    obtain ⟨thread', hf, rfl⟩ := Option.map_eq_some_iff.1 hs
    exact h.put (findNoShard_stepped h (h.threads t) hf)
  | take t =>
    simp only [next] at hs
    split at hs
    · rename_i he
      cases hs
      have ht := h.threads t
      rw [he] at ht
      refine h.put (.idle h ht ?_ rfl trivial)
      intro _ ho
      cases ho
    · cases hs
  | damage hash contents =>
    cases hs
    exact h.environment _ rfl
  | elsewhere names =>
    simp only [next] at hs
    split at hs
    · rename_i hm
      cases hs
      exact h.environment _ hm
    · cases hs
  | restart names files =>
    simp only [next] at hs
    split at hs
    · rename_i hn
      cases hs
      exact started_sound hn
    · cases hs

theorem run_sound
    (hn : names.Nodup) (run : Run (fun w event w' => next sha256 stripe w event = some w')
      (started stripe names files) events w) : Sound stripe w :=
  run.invariant (started_sound hn) fun _ _ _ => next_sound

/-- However the threads interleave, whatever fails and however often the process starts again: a
chunk file that is returned without the lock was opened while no operation had raised the
generation without having ended, and while no marker was there; one that is returned from under
the lock was opened by the holder of the lock after the marker of the chunk was gone. The count is
that of the marker files whenever the lock is free, and off by one at most inside. -/
theorem served_files_meet_no_repair {names : List Bytes} {files : Digest → Option Bytes}
    {events : List (Event τ)} (hnodup : names.Nodup)
    (run : Run (fun w event w' => next sha256 stripe w event = some w')
      (started stripe names files) events w) :
    (∀ t hash contents seen, w.threads t = .served .lockFree hash (.ok (some contents)) seen →
      w.stripe.generation < 2 ^ 64 → seen.files hash = some contents ∧ seen.announced = ∅ ∧
        seen.pendingMarkers = 0 ∧ seen.markers stripe = ∅) ∧
    (∀ t hash contents seen, w.threads t = .served .locked hash (.ok (some contents)) seen →
      seen.files hash = some contents ∧ seen.lock = some t ∧
        chunkRepairMarkerName hash ∉ seen.names) ∧
    (∀ t, (t ∈ w.stripe.announced ↔ (w.threads t).announced = true) ∧
      (w.stripe.lock = some t ↔ (w.threads t).holds = true)) ∧
    (w.stripe.lock = none → w.stripe.pendingMarkers = (w.stripe.markers stripe).card) ∧
    ∀ t, w.stripe.lock = some t → w.stripe.pendingMarkers + (w.threads t).uncounted =
      (w.stripe.markers stripe).card + (w.threads t).overcounted := by
  have hs := run_sound hnodup run
  refine ⟨?_, ?_, fun t => ⟨(hs.threads t).announced.symm, (hs.threads t).holds.symm⟩,
    hs.free, fun t hl => (hs.threads t).counted ((hs.threads t).holds.2 hl)⟩
  · intro t hash contents seen hr hm
    have hp := (hs.threads t).place
    rw [hr] at hp
    obtain ⟨hc, hf⟩ := hp
    have he := hc hm
    exact ⟨hf contents rfl, he.announced, he.pending, he.markers⟩
  · intro t hash contents seen hr
    have hp := (hs.threads t).place
    rw [hr] at hp
    exact hp contents rfl

end Runs

section Samples

/-- The hash of `[1]`. -/
def firstChunk : Digest :=
  Digest.ofNat 0x4bf5122f344554c53bde2ebb8cd2b7e3d1600ad631c385a5d7cce23c7785459a

/-- The hash of `[52]`, which is in the same stripe. -/
def secondChunk : Digest :=
  Digest.ofNat 0x4b227777d4dd1fc61c6f884f48641d02b4d121d3fd328cb08b5531fcacdabf8a

def sampleHash (bytes : Bytes) : Digest :=
  if bytes = [1] then firstChunk
  else if bytes = [52] then secondChunk
  else Digest.ofNat 0x2b4c342f5433ebe591a1da77e013d1b72475562d48578dca8b84bac6651c3cb9

def SampleRun : State Bool → List (Event Bool) → State Bool → Prop :=
  Run fun w event w' => next sampleHash 11 w event = some w'

def sampleFiles : Digest → Option Bytes := fun _ => some [9]

/-- The damaged chunk is replaced while another thread opens it, and the marker stays behind. -/
def failedRepair : List (Event Bool) :=
  [.openServing false firstChunk, .advance false, .store true firstChunk [1], .advance false] ++
    List.replicate 9 (.advance true) ++ [.fail true] ++ List.replicate 2 (.advance true)

/-- The thread that waited for the lock settles the marker before it opens the chunk. -/
def settlingOpen : List (Event Bool) := List.replicate 6 (.advance false)

def secondOpen : List (Event Bool) :=
  [.take false, .openServing false firstChunk] ++ List.replicate 7 (.advance false)

/-- The chunk is opened under the lock after the repair, and then again without it. -/
theorem repaired_chunk_reopened : ∃ w w' seen seen',
    SampleRun (started 11 [] sampleFiles) (failedRepair ++ settlingOpen) w ∧
    w.threads false = .served .locked firstChunk (.ok (some [1])) seen ∧
    seen.lock = some false ∧ chunkRepairMarkerName firstChunk ∉ seen.names ∧
    SampleRun (started 11 [] sampleFiles) (failedRepair ++ settlingOpen ++ secondOpen) w' ∧
    w'.threads false = .served .lockFree firstChunk (.ok (some [1])) seen' ∧
    seen'.announced = ∅ ∧ seen'.markers 11 = ∅ ∧ w'.stripe.generation = 1 := by
  have hr : SampleRun (started 11 [] sampleFiles) (failedRepair ++ settlingOpen) _ :=
    Run.of_foldlM rfl
  have hr' : SampleRun (started 11 [] sampleFiles) (failedRepair ++ settlingOpen ++ secondOpen) _ :=
    Run.of_foldlM rfl
  obtain ⟨-, hl, -⟩ := served_files_meet_no_repair List.nodup_nil hr
  obtain ⟨hf, -⟩ := served_files_meet_no_repair List.nodup_nil hr'
  obtain ⟨-, hk, hn⟩ := hl false firstChunk [1] _ rfl
  obtain ⟨-, ha, -, hm⟩ := hf false firstChunk [1] _ rfl (by decide)
  exact ⟨_, _, _, _, hr, rfl, hk, hn, hr', rfl, ha, hm, rfl⟩

/-- The generation is loaded for the second time while an operation is between its two first
steps, and the count of operations after it has ended. -/
def lateAnnouncement : List (Event Bool) :=
  .openServing false firstChunk :: List.replicate 3 (.advance false) ++
    [.store true firstChunk [1], .advance false, .advance false] ++
    List.replicate 13 (.advance true) ++ List.replicate 2 (.advance false)

/-- A chunk is opened while an operation is under way, also without the lock. Under the lock it is
opened beside the marker of another chunk of the stripe. A marker that was just created is not
counted. -/
theorem opens_beside_repairs :
    (∃ w seen, SampleRun (started 11 [] sampleFiles) lateAnnouncement w ∧
      w.threads false = .served .lockFree firstChunk (.ok (some [9])) seen ∧
      seen.activeOperations = 1 ∧ w.stripe.files firstChunk = some [1]) ∧
    (∃ w seen, SampleRun (started 11 [chunkRepairMarkerName secondChunk] sampleFiles)
        (.openServing false firstChunk :: List.replicate 7 (.advance false)) w ∧
      w.threads false = .served .locked firstChunk (.ok (some [9])) seen ∧
      seen.markers 11 ≠ ∅) ∧
    ∃ w, SampleRun (started 11 [] sampleFiles)
        (.store true firstChunk [1] :: List.replicate 7 (.advance true)) w ∧
      w.stripe.pendingMarkers = 0 ∧ (w.stripe.markers 11).card = 1 := by
  refine ⟨⟨_, _, Run.of_foldlM rfl, rfl, rfl, rfl⟩, ⟨_, _, Run.of_foldlM rfl, rfl, ?_⟩,
    ⟨_, Run.of_foldlM rfl, rfl, ?_⟩⟩
  · decide +kernel
  · decide +kernel

end Samples

end ChunkRepairs
