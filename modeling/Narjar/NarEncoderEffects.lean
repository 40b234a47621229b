import Narjar.NarEncoder
import Narjar.NarEffects

/-!
# What the encoder functions write

An encoder is its control state, the root and the stack of open nodes, and what it has
written and counted. Every accepted event moves the control state and writes the bytes of its
effect. A slot is a place where a whole node may go.
-/
namespace NarEncoderEffects

open ByteCodecs FallibleState NarFormat NarEffects NarEncoder

abbrev Control := RootState × List OpenNode
abbrev Output := Effect Empty

def controlOf (s : Encoder) : Control := (s.root, s.stack)

def meter (s : Encoder) : Meter := ⟨s.rawSize, s.work, s.entries, s.files, s.symlinks⟩

def place (c : Control) (e : Output) (s : Encoder) : Encoder where
  writer := s.writer ++ e.bytes
  digest := s.digest ++ e.bytes
  rawSize := s.rawSize + e.bytes.length
  root := c.1
  stack := c.2
  entries := s.entries + e.entries
  files := saturatingAdd s.files e.files
  symlinks := saturatingAdd s.symlinks e.symlinks
  work := saturatingAdd s.work e.work

variable {L : Limits} {s s' : Encoder} {u : Unit}

@[simp] theorem control_place (c : Control) (e : Output) : controlOf (place c e s) = c := rfl
@[simp] theorem meter_place (c : Control) (e : Output) :
    meter (place c e s) = e.charge (meter s) := rfl

@[simp] theorem place_place (c c' : Control) (e f : Output) :
    place c' f (place c e s) = place c' (e ++ f) s := by
  simp only [place, append_bytes, append_work, append_entries, append_files, append_symlinks,
    saturatingAdd_add, List.length_append, List.append_assoc, Nat.add_assoc]

theorem place_self : place (controlOf s) (text []) s = s := by
  simp [place, controlOf, text]

theorem bytes_ok :
    bytes L b s = .ok (u, s') ↔
      s.rawSize + b.length ≤ L.maxTotalBytes.toNat ∧ s' = place (controlOf s) (text b) s := by
  have hm := limit_le_u64Max L.maxTotalBytes
  unfold bytes
  cases h : checkedAdd s.rawSize b.length with
  | none =>
    have : ¬ s.rawSize + b.length ≤ u64Max := by
      intro hle
      simp [checkedAdd, hle] at h
    simp only [reduceCtorEq, false_iff]
    omega
  | some n =>
    obtain ⟨-, rfl⟩ := checkedAdd_eq_some.1 h
    simp only
    split
    · simp only [reduceCtorEq, false_iff]
      omega
    · rename_i hle
      simp [place, controlOf, text, Nat.le_of_not_lt hle, eq_comm]

theorem string_ok :
    string L v s = .ok (u, s') ↔
      HasRoom L (meter s) (text (paddedString v) : Output) ∧
        s' = place (controlOf s) (text (paddedString v)) s := by
  simp only [string, u64, pad, bind_ok, bytes_ok, paddedString, text_append, hasRoom_append,
    hasRoom_text]
  constructor
  · rintro ⟨_, _, ⟨hl, rfl⟩, _, _, ⟨hv, rfl⟩, hp, rfl⟩
    refine ⟨⟨⟨fun _ => hl, fun _ => hv⟩, fun _ => ?_⟩, by simp⟩
    rw [charge_append]
    exact hp
  · rintro ⟨⟨⟨hl, hv⟩, hp⟩, rfl⟩
    have hl := hl (by
      intro h
      simpa using congrArg List.length h)
    simp only [charge_append] at hp
    simp only [Effect.charge, text, meter, length_leBytes] at hl hv hp
    have hv' : s.rawSize + 8 + v.length ≤ L.maxTotalBytes.toNat := by
      by_cases h : v = []
      · simpa [h] using hl
      · exact hv h
    have hp' : s.rawSize + 8 + v.length + (padding v.length).length ≤ L.maxTotalBytes.toNat := by
      by_cases h : padding v.length = []
      · simpa [h] using hv'
      · exact hp h
    refine ⟨(), _, ⟨by simpa using hl, rfl⟩, (), _, ⟨?_, rfl⟩, ?_, ?_⟩
    · simpa [place, text] using hv'
    · simpa [place, text] using hp'
    · simp

theorem bumpWork_ok :
    bumpWork L s = .ok (u, s') ↔
      HasRoom L (meter s) (tick : Output) ∧ s' = place (controlOf s) tick s := by
  rw [hasRoom_tick]
  unfold bumpWork
  simp only [meter]
  split
  · simp only [reduceCtorEq, false_iff]
    omega
  · rename_i h
    simp [place, controlOf, tick, Nat.le_of_not_lt h, eq_comm]

/-- A place for a node: the root, or the open entry `name` of a directory. -/
inductive Slot where
  | root
  | child (kind : RootKind) (name : Bytes) (parents : List OpenNode)

def Slot.depth : Slot → ℕ
  | .root => 0
  | .child _ _ parents => parents.length + 1

def Slot.before : Slot → Control
  | .root => (.awaiting, [])
  | .child kind name parents => (.opened kind, .directory (.childOpen name) :: parents)

def Slot.during (kind : RootKind) : Slot → Control
  | .root => (.opened kind, [])
  | .child rootKind name parents => (.opened rootKind, .directory (.childOpen name) :: parents)

def Slot.after (kind : RootKind) : Slot → Control
  | .root => (.complete kind, [])
  | .child rootKind name parents =>
    (.opened rootKind, .directory (.ready (some name)) :: parents)

def Slot.trailer : Slot → Output
  | .root => text []
  | .child _ _ _ => text (paddedString closeToken)

def Slot.opening (kind : RootKind) (node : OpenNode) (slot : Slot) : Control :=
  ((slot.during kind).1, node :: (slot.during kind).2)

theorem ensureOpen_ok :
    ensureOpen s = .ok (u, s') ↔ (∀ kind, s.root ≠ .complete kind) ∧ s' = s := by
  unfold ensureOpen
  cases s.root <;> simp [eq_comm]

theorem checkDepth_ok :
    checkDepth L s = .ok (u, s') ↔ s.stack.length ≤ L.maxDepth.toNat ∧ s' = s := by
  unfold checkDepth
  split
  · simp only [reduceCtorEq, false_iff]
    omega
  · rename_i h
    simp [Nat.le_of_not_lt h, eq_comm]

theorem attachNode_slot {slot : Slot} (h : controlOf s = slot.before) :
    attachNode kind s = .ok ((), place (slot.during kind) (text []) s) := by
  obtain ⟨hr, ht⟩ := Prod.mk.inj h
  cases slot with
  | root => simp [attachNode, hr, ht, place, text, Slot.during]
  | child rootKind name parents =>
    have hs := place_self (s := s)
    rw [h] at hs
    simp only [attachNode, ht]
    exact congrArg (fun t => Except.ok ((), t)) hs.symm

theorem beginNode_ok {slot : Slot} (h : controlOf s = slot.before) :
    beginNode L kind s = .ok (u, s') ↔
      slot.depth ≤ L.maxDepth.toNat ∧ s' = place (slot.during kind) (text []) s := by
  have ho : ∀ k, s.root ≠ .complete k := by
    intro k hk
    obtain ⟨hr, -⟩ := Prod.mk.inj h
    cases slot <;> simp [hk] at hr
  have hd : s.stack.length = slot.depth := by
    obtain ⟨-, hs⟩ := Prod.mk.inj h
    cases slot <;> simp [hs, Slot.depth]
  simp only [beginNode, bind_ok, ensureOpen_ok, checkDepth_ok]
  constructor
  · rintro ⟨_, _, ⟨-, rfl⟩, _, _, ⟨hle, rfl⟩, ha⟩
    rw [attachNode_slot h] at ha
    obtain ⟨-, rfl⟩ := Prod.mk.inj (Except.ok.inj ha)
    exact ⟨hd ▸ hle, rfl⟩
  · rintro ⟨hle, rfl⟩
    exact ⟨(), _, ⟨ho, rfl⟩, (), _, ⟨hd ▸ hle, rfl⟩, attachNode_slot h⟩

theorem finishParent_ok {slot : Slot} (h : controlOf s = slot.during kind) :
    finishParent L s = .ok (u, s') ↔
      HasRoom L (meter s) slot.trailer ∧ s' = place (slot.after kind) slot.trailer s := by
  obtain ⟨ho, hs⟩ := Prod.mk.inj h
  cases slot with
  | root =>
    have hr : HasRoom L (meter s) Slot.root.trailer := hasRoom_text_nil
    simp only [finishParent, hs, completeRoot, ho, hr, true_and, Except.ok.injEq, Prod.mk.injEq]
    simp [place, text, Slot.after, Slot.trailer, eq_comm]
  | child rootKind name parents =>
    simp only [finishParent, hs, closeDirectoryEntry, bind_ok, string_ok, Slot.trailer]
    constructor
    · rintro ⟨_, _, ⟨hr, rfl⟩, he⟩
      obtain ⟨-, rfl⟩ := Prod.mk.inj (Except.ok.inj he)
      refine ⟨hr, ?_⟩
      simp [place, controlOf, Slot.after, ho, hs]
    · rintro ⟨hr, rfl⟩
      refine ⟨(), _, ⟨hr, rfl⟩, ?_⟩
      simp [place, controlOf, Slot.after, ho, hs]

/-- From the encoders in `S`, `f` succeeds exactly when `p` holds and its effect has room, and
then performs the effect and moves to control state `c`. -/
def Acts (L : Limits) (S : Encoder → Prop) (f : EncodeM Unit) (p : Prop) (e : Output)
    (c : Control) : Prop :=
  ∀ ⦃s s' : Encoder⦄ ⦃u : Unit⦄, S s →
    (f s = .ok (u, s') ↔ p ∧ HasRoom L (meter s) e ∧ s' = place c e s)

def At (c : Control) (s : Encoder) : Prop := controlOf s = c

/-- `f` fails from every encoder in control state `c`. -/
def Refuses (f : EncodeM Unit) (c : Control) : Prop :=
  ∀ ⦃s s' : Encoder⦄ ⦃u : Unit⦄, controlOf s = c → f s ≠ .ok (u, s')

section Rules

variable {S T : Encoder → Prop} {f g : EncodeM Unit} {p q : Prop} {e e' : Output} {c c' : Control}

theorem Acts.seq (hf : Acts L S f p e c) (hg : Acts L T g q e' c')
    (hT : ∀ s, S s → T (place c e s)) : Acts L S (do f; g) (p ∧ q) (e ++ e') c' := by
  intro s s' u hs
  rw [bind_ok]
  constructor
  · rintro ⟨_, t, hfs, hgs⟩
    obtain ⟨hp, hr, rfl⟩ := (hf hs).1 hfs
    obtain ⟨hq, hr', rfl⟩ := (hg (hT _ hs)).1 hgs
    exact ⟨⟨hp, hq⟩, hasRoom_append.2 ⟨hr, hr'⟩, place_place _ _ _ _⟩
  · rintro ⟨⟨hp, hq⟩, hr, rfl⟩
    rw [hasRoom_append] at hr
    exact ⟨(), _, (hf hs).2 ⟨hp, hr.1, rfl⟩,
      (hg (hT _ hs)).2 ⟨hq, hr.2, (place_place _ _ _ _).symm⟩⟩

theorem Acts.then (hf : Acts L S f p e c) (hg : Acts L (At c) g q e' c') :
    Acts L S (do f; g) (p ∧ q) (e ++ e') c' := hf.seq hg fun _ _ => rfl

theorem Acts.congr (hf : Acts L S f p e c) (hp : p ↔ q) (he : e = e') : Acts L S f q e' c := by
  subst he
  intro s s' u hs
  rw [hf hs, hp]

theorem Acts.refuses_bind (h : Refuses f c) : Refuses (do f; g) c := by
  intro s s' u hs hok
  obtain ⟨_, t, hfs, -⟩ := bind_ok.1 hok
  exact h hs hfs

theorem Acts.then_refuses (hf : Acts L (At c) f p e c') (h : Refuses g c') :
    Refuses (do f; g) c := by
  intro s s' u hs hok
  obtain ⟨_, t, hfs, hgs⟩ := bind_ok.1 hok
  obtain ⟨-, -, rfl⟩ := (hf hs).1 hfs
  exact h rfl hgs

end Rules

variable {c : Control}

theorem acts_string (v : Bytes) : Acts L (At c) (string L v) True (text (paddedString v)) c := by
  intro s s' u hs
  rw [string_ok, true_and]
  subst hs
  rfl

theorem acts_bumpWork : Acts L (At c) (bumpWork L) True tick c := by
  intro s s' u hs
  rw [bumpWork_ok, true_and]
  subst hs
  rfl

theorem acts_ensure {p : Prop} [Decidable p] (error : EncodeError) :
    Acts L (At c) (ensure p error) p (text []) c := by
  intro s s' u hs
  subst hs
  rw [ensure_ok, place_self, and_iff_right hasRoom_text_nil]

theorem acts_pushNode (node : OpenNode) :
    Acts L (At c) (pushNode node) True (text []) (c.1, node :: c.2) := by
  intro s s' u hs
  subst hs
  rw [true_and, and_iff_right hasRoom_text_nil]
  simp [pushNode, place, controlOf, text, eq_comm]

theorem acts_beginNode (kind : RootKind) (slot : Slot) :
    Acts L (At slot.before) (beginNode L kind) (slot.depth ≤ L.maxDepth.toNat) (text [])
      (slot.during kind) := by
  intro s s' u hs
  rw [beginNode_ok hs, and_iff_right hasRoom_text_nil]

theorem acts_finishParent (kind : RootKind) (slot : Slot) :
    Acts L (At (slot.during kind)) (finishParent L) True slot.trailer (slot.after kind) := by
  intro s s' u hs
  rw [finishParent_ok hs, true_and]

theorem acts_checkSymlinkTarget (target : Bytes) :
    Acts L (At c) (checkSymlinkTarget target) (target ≠ [] ∧ 0 ∉ target) (text []) c := by
  intro s s' u hs
  subst hs
  rw [place_self, and_iff_right hasRoom_text_nil, ← validateSymlinkTarget_ok (u := ())]
  unfold checkSymlinkTarget
  cases validateSymlinkTarget target <;> simp

theorem acts_countSymlink : Acts L (At c) countSymlink True oneSymlink c := by
  intro s s' u hs
  subst hs
  rw [true_and, and_iff_right hasRoom_oneSymlink]
  simp [countSymlink, place, controlOf, oneSymlink, eq_comm]

theorem acts_countFile : Acts L (At c) countFile True oneFile c := by
  intro s s' u hs
  subst hs
  rw [true_and, and_iff_right hasRoom_oneFile]
  simp [countFile, place, controlOf, oneFile, eq_comm]

theorem acts_executableFlag (executable : Bool) :
    Acts L (At c) (executableFlag L executable) True (text (executableMarker executable)) c := by
  cases executable with
  | false =>
    intro s s' u hs
    subst hs
    simp [executableFlag, executableMarker, place_self]
  | true => exact ((acts_string _).then (acts_string _)).congr (by simp) rfl

theorem acts_push_beginDirectory (slot : Slot) :
    Acts L (At slot.before) (push L .beginDirectory) (slot.depth ≤ L.maxDepth.toNat)
      (tick ++ text (nodeHeader directoryToken))
      (slot.opening .directory (.directory (.ready none))) := by
  have h := acts_bumpWork.then ((acts_beginNode (L := L) .directory slot).then
    ((acts_string openToken).then ((acts_string typeToken).then
      ((acts_string directoryToken).then (acts_pushNode (.directory (.ready none)))))))
  exact h.congr (by simp) (by simp [nodeHeader, text_append])

theorem acts_push_beginFile (slot : Slot) (executable : Bool) (size : ℕ) :
    Acts L (At slot.before) (push L (.beginFile executable size))
      (size ≤ L.maxFileBytes.toNat ∧ slot.depth ≤ L.maxDepth.toNat)
      (tick ++ text (fileHeader executable size))
      (slot.opening .regular (.regular size size)) := by
  have hu : Acts L (At (slot.during .regular)) (u64 L size) True (text (leBytes 8 size))
      (slot.during .regular) := by
    intro s s' u hs
    rw [At] at hs
    rw [← hs, u64, bytes_ok, true_and, hasRoom_text]
    have hne : leBytes 8 size ≠ [] := by
      intro h
      simpa using congrArg List.length h
    simp [hne, meter]
  have h := acts_bumpWork.then ((acts_ensure (L := L) (c := slot.before)
    (p := size ≤ L.maxFileBytes.toNat)
    (.limitExceeded "file size" L.maxFileBytes.toNat size)).then
    ((acts_beginNode .regular slot).then ((acts_string openToken).then
      ((acts_string typeToken).then ((acts_string regularToken).then
        ((acts_executableFlag executable).then ((acts_string contentsToken).then
          (hu.then (acts_pushNode (.regular size size))))))))))
  exact h.congr (by simp) (by simp [fileHeader, nodeHeader, text_append])

theorem acts_push_symlink (slot : Slot) (target : Bytes) :
    Acts L (At slot.before) (push L (.symlink target))
      (target.length ≤ L.maxSymlinkTargetBytes.toNat ∧ (target ≠ [] ∧ 0 ∉ target) ∧
        slot.depth ≤ L.maxDepth.toNat)
      (tick ++ text (symlinkBytes target) ++ slot.trailer ++ oneSymlink)
      (slot.after .symlink) := by
  have hf : Acts L (At (slot.during .symlink)) (finishAtomic L) True
      (text (paddedString closeToken) ++ slot.trailer) (slot.after .symlink) :=
    ((acts_string closeToken).then (acts_finishParent .symlink slot)).congr (by simp) rfl
  have h := acts_bumpWork.then ((acts_ensure (L := L) (c := slot.before)
    (p := target.length ≤ L.maxSymlinkTargetBytes.toNat)
    (.limitExceeded "symlink target length" L.maxSymlinkTargetBytes.toNat target.length)).then
    ((acts_checkSymlinkTarget target).then ((acts_beginNode .symlink slot).then
      ((acts_string openToken).then ((acts_string typeToken).then ((acts_string symlinkToken).then
        ((acts_string targetToken).then ((acts_string target).then
          (hf.then acts_countSymlink)))))))))
  exact h.congr (by simp) (by simp [symlinkBytes, nodeHeader, text_append, append_assoc])

/-- What was written so far is within the total limit. -/
def Bounded (L : Limits) (c : Control) (s : Encoder) : Prop :=
  controlOf s = c ∧ s.rawSize ≤ L.maxTotalBytes.toNat

theorem bounded_place (he : e.bytes = []) (h : Bounded L c s) :
    Bounded L c' (place c' e s) := ⟨rfl, by simpa [place, he] using h.2⟩

theorem bounded_of_room (h : Bounded L c s)
    (hr : HasRoom L (meter s) e) : Bounded L c' (place c' e s) := by
  by_cases he : e.bytes = []
  · exact bounded_place he h
  · exact ⟨rfl, hr.total he⟩

theorem Acts.bounded {p : Prop}
    (h : Acts L (At c) f p e c') : Acts L (Bounded L c) f p e c' := fun _ _ _ hs => h hs.1

theorem acts_bytes (b : Bytes) : Acts L (Bounded L c) (bytes L b) True (text b) c := by
  rintro s s' u ⟨hs, hle⟩
  rw [bytes_ok, true_and, hasRoom_text, ← hs]
  refine and_congr_left fun _ => ⟨fun h _ => h, fun h => ?_⟩
  by_cases hb : b = []
  · simpa [hb] using hle
  · exact h hb

theorem acts_setRemaining (root : RootState) (node : OpenNode) (rest : List OpenNode)
    (remaining size : ℕ) :
    Acts L (At (root, node :: rest)) (setRemaining remaining size) True (text [])
      (root, .regular remaining size :: rest) := by
  intro s s' u hs
  obtain ⟨hr, ht⟩ := Prod.mk.inj hs
  rw [true_and, and_iff_right hasRoom_text_nil]
  simp [setRemaining, place, text, hr, ht, eq_comm]

theorem openFile_at
    (h : controlOf s = (root, .regular remaining size :: rest)) (message : String) :
    openFile message s = .ok ((remaining, size), s) := by
  obtain ⟨-, hs⟩ := Prod.mk.inj h
  simp [openFile, hs]

theorem acts_push_fileChunk (root : RootState) (remaining size : ℕ) (rest : List OpenNode)
    (chunk : Bytes) :
    Acts L (Bounded L (root, .regular remaining size :: rest)) (push L (.fileChunk chunk))
      (chunk.length ≤ remaining) (tick ++ text chunk)
      (root, .regular (remaining - chunk.length) size :: rest) := by
  have hb : Acts L (Bounded L (root, .regular remaining size :: rest)) (fileChunk L chunk)
      (chunk.length ≤ remaining) (text chunk)
      (root, .regular (remaining - chunk.length) size :: rest) := by
    have h := (acts_ensure (L := L) (c := (root, .regular remaining size :: rest))
      (p := chunk.length ≤ remaining)
      (.invalid "file body is larger than its declared size")).bounded.seq
      ((acts_bytes chunk).then (acts_setRemaining root _ rest (remaining - chunk.length) size))
      fun _ => bounded_place rfl
    intro s s' u hs
    rw [fileChunk, bind_of_ok (openFile_at hs.1 _)]
    exact h.congr (by simp) (by simp) hs
  have h := acts_bumpWork.bounded.seq hb fun _ => bounded_place rfl
  exact h.congr (by simp) rfl

theorem acts_finishNode (slot : Slot) (kind : RootKind) (node : OpenNode)
    (hk : node.kind = kind) :
    Acts L (At (slot.opening kind node)) (finishNode L kind) True
      (text (paddedString closeToken) ++ slot.trailer) (slot.after kind) := by
  have h := ((acts_string (L := L) closeToken).then (acts_finishParent kind slot)).congr
    (and_self_iff) rfl
  intro s s' u hs
  have hp : popNode s = .ok (kind, place (slot.during kind) (text []) s) := by
    obtain ⟨ho, ht⟩ := Prod.mk.inj hs
    simp [popNode, ht, hk, place, text, ho]
  have he : (ensure (kind = kind) (.invalid "node end does not match the open node") :
      EncodeM Unit) (place (slot.during kind) (text []) s) =
        .ok ((), place (slot.during kind) (text []) s) := ensure_ok.2 ⟨rfl, rfl⟩
  rw [finishNode, bind_of_ok hp, bind_of_ok he]
  have hr := @h (place (slot.during kind) (text []) s) s' u rfl
  simpa using hr

theorem acts_push_endFile (slot : Slot) (remaining size : ℕ) :
    Acts L (Bounded L (slot.opening .regular (.regular remaining size))) (push L .endFile)
      (remaining = 0) (tick ++ text (fileTrailer size) ++ slot.trailer ++ oneFile)
      (slot.after .regular) := by
  have hb : Acts L (Bounded L (slot.opening .regular (.regular remaining size))) (endFile L)
      (remaining = 0) (text (fileTrailer size) ++ slot.trailer ++ oneFile)
      (slot.after .regular) := by
    have h := (acts_ensure (L := L) (c := slot.opening .regular (.regular remaining size))
      (p := remaining = 0)
      (.invalid "file body is smaller than its declared size")).bounded.seq
      ((acts_bytes (padding size)).then
        ((acts_finishNode slot .regular (.regular remaining size) rfl).then acts_countFile))
      fun _ => bounded_place rfl
    intro s s' u hs
    rw [endFile, bind_of_ok (openFile_at hs.1 _)]
    exact h.congr (by simp) (by simp [fileTrailer, text_append, append_assoc]) hs
  have h := acts_bumpWork.bounded.seq hb fun _ => bounded_place rfl
  exact h.congr (by simp) (by simp [append_assoc])

theorem acts_push_endDirectory (slot : Slot) (last : Option Bytes) :
    Acts L (At (slot.opening .directory (.directory (.ready last)))) (push L .endDirectory) True
      (tick ++ text (paddedString closeToken) ++ slot.trailer) (slot.after .directory) := by
  have hb : Acts L (At (slot.opening .directory (.directory (.ready last)))) (endDirectory L)
      True (text (paddedString closeToken) ++ slot.trailer) (slot.after .directory) := by
    intro s s' u hs
    obtain ⟨-, ht⟩ := Prod.mk.inj hs
    simp only [endDirectory, ht]
    exact acts_finishNode slot .directory _ rfl hs
  exact (acts_bumpWork.then hb).congr (by simp) (by simp [append_assoc])

/-- The next entry is number `n` and within the entry limit. -/
def Counting (L : Limits) (n : ℕ) (c : Control) (s : Encoder) : Prop :=
  controlOf s = c ∧ s.entries + 1 = n ∧ n ≤ L.maxEntries.toNat

theorem Acts.counting {p q : Prop}
    (hf : Acts L (At c) f p e c') (he : e.entries = 0) (hg : Acts L (Counting L n c') g q e' c'') :
    Acts L (Counting L n c) (do f; g) (p ∧ q) (e ++ e') c'' := by
  have hf' : Acts L (Counting L n c) f p e c' := fun _ _ _ hs => hf hs.1
  refine hf'.seq hg fun s hs => ⟨rfl, ?_, hs.2.2⟩
  simpa [place, he] using hs.2.1

theorem acts_setEntries (n : ℕ) : Acts L (Counting L n c) (setEntries n) True oneEntry c := by
  rintro s s' u ⟨hs, hn, hle⟩
  subst hn hs
  rw [true_and, and_iff_right (hasRoom_oneEntry.2 hle)]
  simp [setEntries, place, controlOf, oneEntry, eq_comm]

theorem acts_openChild (root : RootState) (last : Option Bytes) (rest : List OpenNode)
    (name : Bytes) : Acts L (At (root, .directory (.ready last) :: rest)) (openChild name)
      (misordered name last = false) (text []) (root, .directory (.childOpen name) :: rest) := by
  intro s s' u hs
  obtain ⟨hr, ht⟩ := Prod.mk.inj hs
  rw [and_iff_right hasRoom_text_nil]
  simp only [openChild, ht]
  split
  · rename_i h
    simp [h]
  · rename_i h
    simp [h, place, text, hr, eq_comm]

theorem nextEntries_ok :
    nextEntries L s = .ok (n, s') ↔ s.entries + 1 = n ∧ n ≤ L.maxEntries.toNat ∧ s' = s := by
  have hm := limit_le_u64Max L.maxEntries
  unfold nextEntries
  cases h : checkedAdd s.entries 1 with
  | none =>
    have : ¬ s.entries + 1 ≤ u64Max := by
      intro hle
      simp [checkedAdd, hle] at h
    simp only [reduceCtorEq, false_iff]
    omega
  | some m =>
    obtain ⟨-, rfl⟩ := checkedAdd_eq_some.1 h
    simp only
    split
    · simp only [reduceCtorEq, false_iff]
      omega
    · rename_i hle
      simp only [Except.ok.injEq, Prod.mk.injEq]
      constructor
      · rintro ⟨rfl, rfl⟩
        exact ⟨rfl, by omega, rfl⟩
      · rintro ⟨rfl, -, rfl⟩
        exact ⟨rfl, rfl⟩

structure AcceptedEntry (L : Limits) (last : Option Bytes) (name : Bytes) : Prop where
  short : name.length ≤ L.maxNameBytes.toNat
  valid : invalidName name = false
  ordered : misordered name last = false

theorem acts_entry_body (kind : RootKind) (last : Option Bytes) (rest : List OpenNode)
    (name : Bytes) (n : ℕ) :
    Acts L (Counting L n (.opened kind, .directory (.ready last) :: rest))
      (do
        ensure (invalidName name = false) (.nonCanonical "invalid directory entry name")
        openChild name
        string L entryToken
        string L openToken
        string L nameToken
        string L name
        string L nodeToken
        setEntries n)
      (invalidName name = false ∧ misordered name last = false)
      (text (entryHeader name) ++ oneEntry) (Slot.child kind name rest).before := by
  have h := (acts_ensure (L := L) (c := (.opened kind, .directory (.ready last) :: rest))
    (p := invalidName name = false)
    (.nonCanonical "invalid directory entry name")).counting rfl
    ((acts_openChild (.opened kind) last rest name).counting rfl
      ((acts_string entryToken).counting rfl ((acts_string openToken).counting rfl
        ((acts_string nameToken).counting rfl ((acts_string name).counting rfl
          ((acts_string nodeToken).counting rfl (acts_setEntries n)))))))
  exact h.congr (by simp) (by simp [entryHeader, text_append, append_assoc])

theorem acts_push_entry (kind : RootKind) (last : Option Bytes) (rest : List OpenNode)
    (name : Bytes) :
    Acts L (At (.opened kind, .directory (.ready last) :: rest)) (push L (.entry name))
      (AcceptedEntry L last name) (tick ++ text (entryHeader name) ++ oneEntry)
      (Slot.child kind name rest).before := by
  have hb : Acts L (At (.opened kind, .directory (.ready last) :: rest)) (entry L name)
      (AcceptedEntry L last name) (text (entryHeader name) ++ oneEntry)
      (Slot.child kind name rest).before := by
    intro s s' u hs
    have hp : ensureOpen s = .ok ((), s) := by
      obtain ⟨hro, -⟩ := Prod.mk.inj hs
      simp [ensureOpen, hro]
    rw [entry, bind_of_ok hp, bind_ok]
    constructor
    · rintro ⟨_, _, he, hx⟩
      obtain ⟨hh, rfl⟩ := ensure_ok.1 he
      obtain ⟨n, _, hc, ht⟩ := bind_ok.1 hx
      obtain ⟨hn, hle, rfl⟩ := nextEntries_ok.1 hc
      obtain ⟨⟨hv, ho⟩, hr, rfl⟩ := (acts_entry_body kind last rest name n ⟨hs, hn, hle⟩).1 ht
      exact ⟨⟨hh, hv, ho⟩, hr, rfl⟩
    · rintro ⟨⟨hh, hv, ho⟩, hr, rfl⟩
      have hle := hasRoom_oneEntry.1 (hasRoom_append.1 hr).2
      exact ⟨(), s, ensure_ok.2 ⟨hh, rfl⟩, bind_ok.2 ⟨s.entries + 1, s,
        nextEntries_ok.2 ⟨rfl, hle, rfl⟩,
        (acts_entry_body kind last rest name _ ⟨hs, rfl, hle⟩).2 ⟨⟨hv, ho⟩, hr, rfl⟩⟩⟩
  exact (acts_bumpWork.then hb).congr (by simp) (by simp [append_assoc])

inductive Unattachable : Control → Prop where
  | complete (kind : RootKind) (stack : List OpenNode) : Unattachable (.complete kind, stack)
  | ready (root : RootState) (last : Option Bytes) (rest : List OpenNode) :
      Unattachable (root, .directory (.ready last) :: rest)
  | regular (root : RootState) (remaining size : ℕ) (rest : List OpenNode) :
      Unattachable (root, .regular remaining size :: rest)

theorem refuses_beginNode (kind : RootKind) (h : Unattachable c) :
    Refuses (beginNode L kind) c := by
  intro s s' u hs hok
  obtain ⟨_, _, ho, hr⟩ := bind_ok.1 hok
  obtain ⟨ho, rfl⟩ := ensureOpen_ok.1 ho
  obtain ⟨_, _, hd, ha⟩ := bind_ok.1 hr
  obtain ⟨-, rfl⟩ := checkDepth_ok.1 hd
  cases h with
  | complete kind stack => exact ho kind (Prod.mk.inj hs).1
  | ready | regular => simp [attachNode, (Prod.mk.inj hs).2] at ha

theorem refuses_push {event : Event} (h : Refuses (dispatch L event) c) :
    Refuses (push L event) c := Acts.then_refuses acts_bumpWork h

theorem refuses_node_events (h : Unattachable c) :
    Refuses (push L .beginDirectory) c ∧
      (∀ executable size, Refuses (push L (.beginFile executable size)) c) ∧
      (∀ target, Refuses (push L (.symlink target)) c) :=
  ⟨refuses_push (Acts.refuses_bind (refuses_beginNode _ h)),
    fun _ _ => refuses_push (Acts.then_refuses (acts_ensure (L := L) _)
      (Acts.refuses_bind (refuses_beginNode _ h))),
    fun _ => refuses_push (Acts.then_refuses (acts_ensure (L := L) _) (Acts.then_refuses
      (acts_checkSymlinkTarget (L := L) _) (Acts.refuses_bind (refuses_beginNode _ h))))⟩

theorem refuses_file_events (h : ∀ remaining size, c.2.head? ≠ some (.regular remaining size)) :
    (∀ chunk, Refuses (push L (.fileChunk chunk)) c) ∧ Refuses (push L .endFile) c := by
  have hf : ∀ {s : Encoder} {message : String} {r : (ℕ × ℕ) × Encoder}, controlOf s = c →
      openFile message s ≠ .ok r := by
    rintro s message r rfl hok
    simp only [controlOf] at h
    cases hs : s.stack with
    | nil => simp [openFile, hs] at hok
    | cons node rest =>
      cases node with
      | directory state => simp [openFile, hs] at hok
      | regular remaining size => exact h remaining size (by simp [hs])
  constructor
  · intro chunk
    refine refuses_push fun s s' u hs hok => ?_
    obtain ⟨_, _, ho, -⟩ := bind_ok.1 hok
    exact hf hs ho
  · refine refuses_push fun s s' u hs hok => ?_
    obtain ⟨_, _, ho, -⟩ := bind_ok.1 hok
    exact hf hs ho

theorem refuses_directory_events (h : ∀ last, c.2.head? ≠ some (.directory (.ready last))) :
    (∀ name, Refuses (push L (.entry name)) c) ∧ Refuses (push L .endDirectory) c := by
  have hr : ∀ {s : Encoder}, controlOf s = c →
      ∀ last rest, s.stack ≠ .directory (.ready last) :: rest := by
    rintro s rfl last rest hs
    exact h last (by simp [controlOf, hs])
  constructor
  · intro name
    refine refuses_push fun s s' u hs hok => ?_
    obtain ⟨_, _, ho, hok⟩ := bind_ok.1 hok
    rw [(ensureOpen_ok.1 ho).2] at hok
    obtain ⟨_, _, hh, hok⟩ := bind_ok.1 hok
    rw [(ensure_ok.1 hh).2] at hok
    obtain ⟨_, _, hn, hok⟩ := bind_ok.1 hok
    rw [(nextEntries_ok.1 hn).2.2] at hok
    obtain ⟨_, _, hv, hok⟩ := bind_ok.1 hok
    rw [(ensure_ok.1 hv).2] at hok
    obtain ⟨_, _, hc, -⟩ := bind_ok.1 hok
    unfold openChild at hc
    split at hc
    · exact hr hs _ _ (by assumption)
    all_goals cases hc
  · refine refuses_push fun s s' u hs hok => ?_
    change endDirectory L s = _ at hok
    unfold endDirectory at hok
    split at hok
    · exact hr hs _ _ (by assumption)
    all_goals cases hok

end NarEncoderEffects
