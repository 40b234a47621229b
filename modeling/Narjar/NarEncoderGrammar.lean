import Narjar.NarEncoderEffects

/-!
# The encoder accepts the traversals of canonical trees

A traversal lists the events of a tree in preorder, with each file body cut into any chunks.
The encoder finishes exactly on the traversals of canonical trees within the limits and then
has written the encoding of the tree.
-/
namespace NarEncoderGrammar

open ByteCodecs FallibleState NarFormat NarEffects NarEncoder NarEncoderEffects

variable {L : Limits} {s s' : Encoder} {u : Unit}

mutual
def Traverses : Node → List Event → Prop
  | .regular executable contents, events =>
    ∃ chunks : List Bytes, chunks.flatten = contents ∧
      events = .beginFile executable contents.length :: chunks.map .fileChunk ++ [.endFile]
  | .symlink target, events => events = [.symlink target]
  | .directory entries, events =>
    ∃ inner, TraversesEntries entries inner ∧
      events = .beginDirectory :: inner ++ [.endDirectory]
def TraversesEntries : List (Bytes × Node) → List Event → Prop
  | [], events => events = []
  | (name, node) :: entries, events =>
    ∃ first rest, Traverses node first ∧ TraversesEntries entries rest ∧
      events = .entry name :: first ++ rest
end

def nodeOutput (node : Node) (work : ℕ) : Output where
  bytes := node.encode
  work := work
  entries := node.entryCount
  files := node.fileCount
  symlinks := node.symlinkCount

def entriesOutput (entries : List (Bytes × Node)) (work : ℕ) : Output where
  bytes := encodeEntries entries
  work := work
  entries := countEntries entries
  files := countFiles entries
  symlinks := countSymlinks entries

def chunksOutput (chunks : List Bytes) : Output where
  bytes := chunks.flatten
  work := chunks.length

theorem output_ext {e f : Output} (hb : e.bytes = f.bytes) (hw : e.work = f.work)
    (hn : e.entries = f.entries) (hf : e.files = f.files) (hl : e.symlinks = f.symlinks) :
    e = f := by
  ext1
  · exact hb
  · exact hw
  · exact hn
  · exact hf
  · exact hl
  · funext offset
    exact Subsingleton.elim _ _

theorem nodeOutput_regular (executable : Bool) (chunks : List Bytes) :
    tick ++ text (fileHeader executable chunks.flatten.length) ++
        (chunksOutput chunks ++ (tick ++ text (fileTrailer chunks.flatten.length))) ++ oneFile =
      nodeOutput (.regular executable chunks.flatten) (chunks.length + 2) := by
  apply output_ext
  · simp [nodeOutput, chunksOutput, Node.encode, text, tick, oneFile]
  · simp [nodeOutput, chunksOutput, text, tick, oneFile]
    omega
  · rfl
  · rfl
  · rfl

theorem nodeOutput_symlink (target : Bytes) :
    tick ++ text (symlinkBytes target) ++ oneSymlink = nodeOutput (.symlink target) 1 := by
  apply output_ext
  · simp [nodeOutput, Node.encode, text, tick, oneSymlink]
  all_goals rfl

theorem nodeOutput_directory (entries : List (Bytes × Node)) (work : ℕ) :
    tick ++ text (nodeHeader directoryToken) ++
        (entriesOutput entries work ++ (tick ++ text (paddedString closeToken))) =
      nodeOutput (.directory entries) (work + 2) := by
  apply output_ext
  · simp [nodeOutput, entriesOutput, Node.encode, text, tick]
  · simp [nodeOutput, entriesOutput, text, tick]
    omega
  · simp [nodeOutput, entriesOutput, text, tick, Node.entryCount]
  · simp [nodeOutput, entriesOutput, text, tick, Node.fileCount]
  · simp [nodeOutput, entriesOutput, text, tick, Node.symlinkCount]

theorem entriesOutput_cons (name : Bytes) (node : Node) (entries : List (Bytes × Node))
    (first rest : ℕ) : tick ++ text (entryHeader name) ++ oneEntry ++
        (nodeOutput node first ++ text (paddedString closeToken)) ++ entriesOutput entries rest =
      entriesOutput ((name, node) :: entries) (first + rest + 1) := by
  apply output_ext
  · simp [nodeOutput, entriesOutput, encodeEntries, text, tick, oneEntry]
  · simp [nodeOutput, entriesOutput, text, tick, oneEntry]
    omega
  · simp [nodeOutput, entriesOutput, countEntries, text, tick, oneEntry]
  · simp [nodeOutput, entriesOutput, countFiles, text, tick, oneEntry]
  · simp [nodeOutput, entriesOutput, countSymlinks, text, tick, oneEntry]

theorem pushAll_cons {S : Encoder → Prop} {event : Event} (events : List Event) {p : Prop}
    {e : Output} (h : Acts L S (push L event) p e c) (hs : S s) :
    pushAll L (event :: events) s = .ok (u, s') ↔
      p ∧ HasRoom L (meter s) e ∧ pushAll L events (place c e s) = .ok (u, s') := by
  rw [pushAll, bind_ok]
  constructor
  · rintro ⟨_, t, hu, hr⟩
    obtain ⟨hp, ho, rfl⟩ := (h hs).1 hu
    exact ⟨hp, ho, hr⟩
  · rintro ⟨hp, ho, hr⟩
    exact ⟨(), _, (h hs).2 ⟨hp, ho, rfl⟩, hr⟩

theorem pushAll_refused {event : Event}
    (h : Refuses (push L event) c) (hs : controlOf s = c) :
    pushAll L (event :: events) s ≠ .ok (u, s') := by
  intro hok
  obtain ⟨_, _, hp, -⟩ := bind_ok.1 hok
  exact h hs hp

/-- The slot of the entry `name` in the directory that fills `slot`. -/
def within (name : Bytes) : Slot → Slot
  | .root => .child .directory name []
  | .child kind parent parents => .child kind name (.directory (.childOpen parent) :: parents)

theorem depth_within (slot : Slot) (name : Bytes) : (within name slot).depth = slot.depth + 1 := by
  cases slot <;> rfl

theorem after_within (slot : Slot) (name : Bytes) (kind : RootKind) :
    (within name slot).after kind = slot.opening .directory (.directory (.ready (some name))) := by
  cases slot <;> rfl

theorem trailer_within (slot : Slot) (name : Bytes) :
    (within name slot).trailer = text (paddedString closeToken) := by
  cases slot <;> rfl

theorem acts_entry_within (slot : Slot) (last : Option Bytes) (name : Bytes) :
    Acts L (At (slot.opening .directory (.directory (.ready last)))) (push L (.entry name))
      (AcceptedEntry L last name) (tick ++ text (entryHeader name) ++ oneEntry)
      (within name slot).before := by
  cases slot with
  | root => exact acts_push_entry .directory last [] name
  | child kind parent parents => exact acts_push_entry kind last _ name

theorem acceptedEntry_iff :
    AcceptedEntry L last name ↔ AcceptedName L (last.getD []) name := by
  constructor
  · rintro ⟨hs, hv, ho⟩
    refine ⟨hs, hv, ?_⟩
    cases last with
    | none => exact nil_lt_of_valid hv
    | some previous => simpa [misordered] using ho
  · rintro ⟨hs, hv, ho⟩
    refine ⟨hs, hv, ?_⟩
    cases last with
    | none => rfl
    | some previous => simpa [misordered] using ho

theorem trailer_oneFile (slot : Slot) : slot.trailer ++ oneFile = oneFile ++ slot.trailer := by
  cases slot <;> apply output_ext <;> simp [Slot.trailer, text, oneFile]

theorem trailer_oneSymlink (slot : Slot) :
    slot.trailer ++ oneSymlink = oneSymlink ++ slot.trailer := by
  cases slot <;> apply output_ext <;> simp [Slot.trailer, text, oneSymlink]

theorem chunksOutput_cons (chunk : Bytes) (chunks : List Bytes) :
    chunksOutput (chunk :: chunks) = tick ++ text chunk ++ chunksOutput chunks := by
  apply output_ext
  · simp [chunksOutput, text, tick]
  · simp [chunksOutput, text, tick, Nat.add_comm]
  all_goals rfl

def closeFile (size : ℕ) (slot : Slot) : Output :=
  tick ++ text (fileTrailer size) ++ oneFile ++ slot.trailer

/-- A list of chunks and the end of the file are accepted exactly when the chunks supply the
missing bytes. -/
theorem pushAll_chunks (slot : Slot) (size : ℕ) (rest : List Event) (chunks : List Bytes)
    {remaining : ℕ} (hs : Bounded L (slot.opening .regular (.regular remaining size)) s) :
    pushAll L (chunks.map .fileChunk ++ .endFile :: rest) s = .ok (u, s') ↔
      chunks.flatten.length = remaining ∧
        HasRoom L (meter s) (chunksOutput chunks ++ closeFile size slot) ∧
        pushAll L rest (place (slot.after .regular) (chunksOutput chunks ++ closeFile size slot) s) =
          .ok (u, s') := by
  induction chunks generalizing s remaining with
  | nil =>
    have hm : chunksOutput [] ++ closeFile size slot =
        tick ++ text (fileTrailer size) ++ slot.trailer ++ oneFile := by
      rw [append_assoc (tick ++ text (fileTrailer size)), trailer_oneFile, ← append_assoc]
      exact text_nil_append _
    rw [hm]
    simpa [eq_comm] using pushAll_cons rest (acts_push_endFile slot remaining size) hs
  | cons chunk chunks ih =>
    have hc : chunksOutput (chunk :: chunks) ++ closeFile size slot =
        tick ++ text chunk ++ (chunksOutput chunks ++ closeFile size slot) := by
      rw [chunksOutput_cons, append_assoc]
    rw [hc, List.map_cons, List.cons_append,
      pushAll_cons _ (acts_push_fileChunk _ remaining size _ chunk) hs,
      hasRoom_append (e := tick ++ text chunk)]
    constructor
    · rintro ⟨hle, hr, hu⟩
      obtain ⟨hl, he, hd⟩ := (ih (bounded_of_room hs hr)).1 hu
      rw [place_place] at hd
      refine ⟨?_, ⟨hr, he⟩, hd⟩
      rw [List.flatten_cons, List.length_append]
      omega
    · rintro ⟨hl, ⟨hr, he⟩, hd⟩
      rw [List.flatten_cons, List.length_append] at hl
      refine ⟨by omega, hr, (ih (bounded_of_room hs hr)).2 ⟨by omega, he, ?_⟩⟩
      rw [place_place]
      exact hd

theorem chunks_of_pushAll {slot : Slot} {size remaining : ℕ}
    (hs : Bounded L (slot.opening .regular (.regular remaining size)) s)
    (hok : pushAll L events s = .ok (u, s')) (ho : ∃ kind, s'.root = .complete kind) :
    ∃ (chunks : List Bytes) (rest : List Event),
      events = chunks.map .fileChunk ++ .endFile :: rest := by
  induction events generalizing s remaining with
  | nil =>
    obtain ⟨-, rfl⟩ := pure_ok.1 hok
    obtain ⟨kind, hk⟩ := ho
    have ht := congrArg Prod.fst hs.1
    cases slot <;> simp [controlOf, Slot.opening, Slot.during, hk] at ht
  | cons event events ih =>
    have hn := refuses_node_events (L := L)
      (Unattachable.regular (slot.during .regular).1 remaining size (slot.during .regular).2)
    have hd := refuses_directory_events (L := L)
      (c := slot.opening .regular (.regular remaining size)) (by simp [Slot.opening])
    cases event with
    | fileChunk chunk =>
      obtain ⟨-, hr, hu⟩ := (pushAll_cons _ (acts_push_fileChunk _ remaining size _ chunk) hs).1 hok
      obtain ⟨chunks, rest, rfl⟩ := ih (bounded_of_room hs hr) hu
      exact ⟨chunk :: chunks, rest, rfl⟩
    | endFile => exact ⟨[], events, rfl⟩
    | beginDirectory => exact absurd hok (pushAll_refused hn.1 hs.1)
    | beginFile executable size => exact absurd hok (pushAll_refused (hn.2.1 _ _) hs.1)
    | symlink target => exact absurd hok (pushAll_refused (hn.2.2 _) hs.1)
    | entry name => exact absurd hok (pushAll_refused (hd.1 _) hs.1)
    | endDirectory => exact absurd hok (pushAll_refused hd.2 hs.1)

theorem fileHeader_output_ne_nil (executable : Bool) (size : ℕ) :
    (tick ++ text (fileHeader executable size) : Output).bytes ≠ [] := by
  simp [text, tick, fileHeader, nodeHeader, paddedString, openToken, ascii]

/-- What the encoder does with a traversal of this node in any slot. -/
def NodeRuns (L : Limits) (node : Node) : Prop :=
  ∀ {s s' : Encoder} {u : Unit} (slot : Slot) {first : List Event} (rest : List Event),
    Traverses node first → controlOf s = slot.before →
    (pushAll L (first ++ rest) s = .ok (u, s') ↔
      node.Canonical ∧ node.Fits L slot.depth ∧
        HasRoom L (meter s) (nodeOutput node first.length ++ slot.trailer) ∧
        pushAll L rest
          (place (slot.after node.kind) (nodeOutput node first.length ++ slot.trailer) s) =
            .ok (u, s'))

/-- What the encoder does with a traversal of these entries and the end of their directory. -/
def EntriesRun (L : Limits) (entries : List (Bytes × Node)) : Prop :=
  ∀ {s s' : Encoder} {u : Unit} (slot : Slot) (last : Option Bytes) {inner : List Event}
    (rest : List Event), TraversesEntries entries inner →
    controlOf s = slot.opening .directory (.directory (.ready last)) →
    (pushAll L (inner ++ .endDirectory :: rest) s = .ok (u, s') ↔
      Siblings L (last.getD []) (slot.depth + 1) entries ∧
        HasRoom L (meter s) (entriesOutput entries inner.length ++
          (tick ++ text (paddedString closeToken)) ++ slot.trailer) ∧
        pushAll L rest (place (slot.after .directory) (entriesOutput entries inner.length ++
          (tick ++ text (paddedString closeToken)) ++ slot.trailer) s) = .ok (u, s'))

theorem nodeRuns_symlink (target : Bytes) : NodeRuns L (.symlink target) := by
  intro s s' u slot first rest ht hs
  subst ht
  have ho : tick ++ text (symlinkBytes target) ++ slot.trailer ++ oneSymlink =
      nodeOutput (.symlink target) 1 ++ slot.trailer := by
    rw [append_assoc, trailer_oneSymlink, ← append_assoc, nodeOutput_symlink]
  rw [List.singleton_append, pushAll_cons rest (acts_push_symlink slot target) hs, ho]
  simp only [Node.Canonical, Node.Fits, Node.kind, List.length_singleton]
  tauto

theorem nodeRuns_regular (executable : Bool) (contents : Bytes) :
    NodeRuns L (.regular executable contents) := by
  intro s s' u slot first rest ha hs
  obtain ⟨chunks, rfl, rfl⟩ := ha
  have ho : tick ++ text (fileHeader executable chunks.flatten.length) ++
      (chunksOutput chunks ++ closeFile chunks.flatten.length slot) =
        nodeOutput (.regular executable chunks.flatten) (chunks.length + 2) ++ slot.trailer := by
    rw [← nodeOutput_regular]
    simp only [closeFile, append_assoc]
  have hl : (Event.beginFile executable chunks.flatten.length ::
      chunks.map Event.fileChunk ++ [Event.endFile]).length = chunks.length + 2 := by simp
  rw [hl, ← ho, List.append_assoc, List.singleton_append, List.cons_append,
    pushAll_cons _ (acts_push_beginFile slot executable _) hs,
    hasRoom_append (e := tick ++ text (fileHeader executable chunks.flatten.length))]
  have hb : HasRoom L (meter s)
      (tick ++ text (fileHeader executable chunks.flatten.length) : Output) →
      Bounded L (slot.opening .regular (.regular chunks.flatten.length chunks.flatten.length))
        (place (slot.opening .regular (.regular chunks.flatten.length chunks.flatten.length))
          (tick ++ text (fileHeader executable chunks.flatten.length)) s) :=
    fun hr => ⟨rfl, hr.total (fileHeader_output_ne_nil _ _)⟩
  constructor
  · rintro ⟨⟨hi, he⟩, hr, hu⟩
    obtain ⟨-, ht, hd⟩ := (pushAll_chunks slot _ rest chunks (hb hr)).1 hu
    rw [place_place] at hd
    exact ⟨trivial, ⟨he, hi⟩, ⟨hr, ht⟩, hd⟩
  · rintro ⟨-, ⟨he, hi⟩, ⟨hr, ht⟩, hd⟩
    refine ⟨⟨hi, he⟩, hr, (pushAll_chunks slot _ rest chunks (hb hr)).2 ⟨rfl, ht, ?_⟩⟩
    rw [place_place]
    exact hd

theorem nodeRuns_directory {entries} (ih : EntriesRun L entries) :
    NodeRuns L (.directory entries) := by
  intro s s' u slot first rest ht hs
  obtain ⟨inner, hi, rfl⟩ := ht
  have hu : tick ++ text (nodeHeader directoryToken) ++
      (entriesOutput entries inner.length ++ (tick ++ text (paddedString closeToken)) ++
        slot.trailer) = nodeOutput (.directory entries) (inner.length + 2) ++ slot.trailer := by
    rw [← nodeOutput_directory]
    simp only [append_assoc]
  have hl : (Event.beginDirectory :: inner ++ [Event.endDirectory]).length =
      inner.length + 2 := by simp
  rw [hl, ← hu, List.append_assoc, List.singleton_append, List.cons_append,
    pushAll_cons _ (acts_push_beginDirectory slot) hs,
    hasRoom_append (e := tick ++ text (nodeHeader directoryToken))]
  constructor
  · rintro ⟨he, ho, hn⟩
    obtain ⟨hb, hr, hd⟩ := (ih slot none rest hi rfl).1 hn
    obtain ⟨hc, hf⟩ := siblings_directory.1 hb
    rw [place_place] at hd
    exact ⟨hc, ⟨he, hf⟩, ⟨ho, hr⟩, hd⟩
  · rintro ⟨hc, ⟨he, hf⟩, ⟨ho, hr⟩, hd⟩
    refine ⟨he, ho, (ih slot none rest hi rfl).2 ⟨siblings_directory.2 ⟨hc, hf⟩, hr, ?_⟩⟩
    rw [place_place]
    exact hd

theorem entriesRun_nil : EntriesRun L [] := by
  intro s s' u slot last inner rest ht hs
  subst ht
  have ho : entriesOutput [] 0 ++ (tick ++ text (paddedString closeToken)) ++ slot.trailer =
      tick ++ text (paddedString closeToken) ++ slot.trailer := by
    rw [show entriesOutput [] 0 = text [] from rfl, text_nil_append]
  rw [List.nil_append, List.length_nil, ho, pushAll_cons rest (acts_push_endDirectory slot last) hs]
  exact and_congr_left fun _ => ⟨fun _ => siblings_nil L _ _, fun _ => trivial⟩

theorem entriesRun_cons {name : Bytes} {node : Node}
    (ihn : NodeRuns L node) (ih : EntriesRun L entries) :
    EntriesRun L ((name, node) :: entries) := by
  intro s s' u slot last inner rest hv hs
  obtain ⟨first, tail, hfi, ht, rfl⟩ := hv
  have hu : entriesOutput ((name, node) :: entries) (first.length + tail.length + 1) ++
      (tick ++ text (paddedString closeToken)) ++ slot.trailer =
      tick ++ text (entryHeader name) ++ oneEntry ++
        ((nodeOutput node first.length ++ (within name slot).trailer) ++
          (entriesOutput entries tail.length ++ (tick ++ text (paddedString closeToken)) ++
            slot.trailer)) := by
    rw [← entriesOutput_cons, trailer_within]
    simp only [append_assoc]
  have hl : (Event.entry name :: first ++ tail).length = first.length + tail.length + 1 := by
    simp
  rw [hl, hu, List.cons_append, List.cons_append, List.append_assoc,
    pushAll_cons _ (acts_entry_within slot last name) hs,
    hasRoom_append (e := tick ++ text (entryHeader name) ++ oneEntry),
    hasRoom_append (e := nodeOutput node first.length ++ (within name slot).trailer),
    siblings_cons, acceptedEntry_iff]
  constructor
  · rintro ⟨ha, ho, hr⟩
    obtain ⟨hc, hf, hn, hr⟩ := (ihn (within name slot) (tail ++ .endDirectory :: rest) hfi rfl).1 hr
    rw [after_within] at hr
    obtain ⟨hi, he, hd⟩ := (ih slot (some name) rest ht rfl).1 hr
    rw [place_place, place_place] at hd
    rw [depth_within] at hf
    exact ⟨⟨ha, hc, hf, hi⟩, ⟨ho, hn, he⟩, hd⟩
  · rintro ⟨⟨ha, hc, hf, hi⟩, ⟨ho, hn, he⟩, hd⟩
    rw [← depth_within slot name] at hf
    refine ⟨ha, ho, (ihn (within name slot) (tail ++ .endDirectory :: rest) hfi
      rfl).2 ⟨hc, hf, hn, ?_⟩⟩
    rw [after_within]
    refine (ih slot (some name) rest ht rfl).2 ⟨hi, he, ?_⟩
    rw [place_place, place_place]
    exact hd

mutual
theorem nodeRuns : ∀ node : Node, NodeRuns L node
  | .regular executable contents => nodeRuns_regular executable contents
  | .symlink target => nodeRuns_symlink target
  | .directory entries => nodeRuns_directory (entriesRun entries)
theorem entriesRun : ∀ entries : List (Bytes × Node), EntriesRun L entries
  | [] => entriesRun_nil
  | (_, node) :: entries => entriesRun_cons (nodeRuns node) (entriesRun entries)
end

theorem opening_incomplete (slot : Slot) (kind kind' : RootKind) (node : OpenNode) :
    (slot.opening kind node).1 ≠ .complete kind' := by
  cases slot <;> simp [Slot.opening, Slot.during]

theorem before_incomplete (slot : Slot) (kind : RootKind) : slot.before.1 ≠ .complete kind := by
  cases slot <;> simp [Slot.before]

theorem cons_of_pushAll (hs : ∀ kind, (controlOf s).1 ≠ .complete kind)
    (hok : pushAll L events s = .ok (u, s')) (hd : ∃ kind, s'.root = .complete kind) :
    ∃ event rest, events = event :: rest := by
  cases events with
  | nil =>
    obtain ⟨-, rfl⟩ := pure_ok.1 hok
    obtain ⟨kind, hk⟩ := hd
    exact absurd hk (hs kind)
  | cons event rest => exact ⟨event, rest, rfl⟩

/-- A completed run from an empty slot starts with the traversal of some node. -/
def StartsWithNode (L : Limits) (n : ℕ) : Prop :=
  ∀ {s s' : Encoder} {u : Unit} {events : List Event} (slot : Slot), events.length ≤ n →
    controlOf s = slot.before → pushAll L events s = .ok (u, s') →
    (∃ kind, s'.root = .complete kind) →
    ∃ node first rest, events = first ++ rest ∧ Traverses node first

/-- A completed run from an open directory first finishes the directory. -/
def StartsWithEntries (L : Limits) (n : ℕ) : Prop :=
  ∀ {s s' : Encoder} {u : Unit} {events : List Event} (slot : Slot) (last : Option Bytes),
    events.length ≤ n →
    controlOf s = slot.opening .directory (.directory (.ready last)) →
    pushAll L events s = .ok (u, s') → (∃ kind, s'.root = .complete kind) →
    ∃ entries inner rest, events = inner ++ .endDirectory :: rest ∧
      TraversesEntries entries inner

theorem startsWithNode_succ {n : ℕ} (ih : StartsWithEntries L n) : StartsWithNode L (n + 1) := by
  intro s s' u events slot hl hs hok hd
  obtain ⟨event, events, rfl⟩ :=
    cons_of_pushAll (fun kind => hs ▸ before_incomplete slot kind) hok hd
  have hl' : events.length ≤ n := by simpa using hl
  have hf := refuses_file_events (L := L) (c := slot.before) (by cases slot <;> simp [Slot.before])
  have hi := refuses_directory_events (L := L) (c := slot.before)
    (by cases slot <;> simp [Slot.before])
  cases event with
  | beginDirectory =>
    obtain ⟨-, -, hr⟩ := (pushAll_cons _ (acts_push_beginDirectory slot) hs).1 hok
    obtain ⟨entries, inner, rest, rfl, hn⟩ := ih slot none hl' rfl hr hd
    exact ⟨.directory entries, .beginDirectory :: inner ++ [.endDirectory], rest, by simp,
      inner, hn, rfl⟩
  | beginFile executable size =>
    obtain ⟨-, ho, hr⟩ := (pushAll_cons _ (acts_push_beginFile slot executable size) hs).1 hok
    have hb : Bounded L (slot.opening .regular (.regular size size))
        (place (slot.opening .regular (.regular size size))
          (tick ++ text (fileHeader executable size)) s) :=
      ⟨rfl, ho.total (fileHeader_output_ne_nil executable size)⟩
    obtain ⟨chunks, rest, rfl⟩ := chunks_of_pushAll hb hr hd
    obtain ⟨rfl, -, -⟩ := (pushAll_chunks slot size rest chunks hb).1 hr
    exact ⟨.regular executable chunks.flatten,
      .beginFile executable chunks.flatten.length :: chunks.map .fileChunk ++ [.endFile], rest,
      by simp, chunks, rfl, rfl⟩
  | symlink target => exact ⟨.symlink target, [.symlink target], events, rfl, rfl⟩
  | fileChunk chunk => exact absurd hok (pushAll_refused (hf.1 _) hs)
  | endFile => exact absurd hok (pushAll_refused hf.2 hs)
  | entry name => exact absurd hok (pushAll_refused (hi.1 _) hs)
  | endDirectory => exact absurd hok (pushAll_refused hi.2 hs)

theorem startsWithEntries_succ {n : ℕ} (ihn : StartsWithNode L n) (ih : StartsWithEntries L n) :
    StartsWithEntries L (n + 1) := by
  intro s s' u events slot last hl hs hok hd
  obtain ⟨event, events, rfl⟩ :=
    cons_of_pushAll (fun kind => hs ▸ opening_incomplete slot _ kind _) hok hd
  have hl' : events.length ≤ n := by simpa using hl
  have hn := refuses_node_events (L := L)
    (Unattachable.ready (slot.during .directory).1 last (slot.during .directory).2)
  have hf := refuses_file_events (L := L)
    (c := slot.opening .directory (.directory (.ready last))) (by simp [Slot.opening])
  cases event with
  | entry name =>
    obtain ⟨-, -, hr⟩ := (pushAll_cons _ (acts_entry_within slot last name) hs).1 hok
    obtain ⟨node, first, tail, rfl, hi⟩ := ihn (within name slot) hl' rfl hr hd
    obtain ⟨-, -, -, hr⟩ := (nodeRuns node (within name slot) tail hi rfl).1 hr
    have hl'' : tail.length ≤ n := by
      rw [List.length_append] at hl'
      omega
    rw [after_within] at hr
    obtain ⟨entries, inner, rest, rfl, he⟩ := ih slot (some name) hl'' rfl hr hd
    exact ⟨(name, node) :: entries, .entry name :: first ++ inner, rest, by simp, first, inner,
      hi, he, rfl⟩
  | endDirectory => exact ⟨[], [], events, rfl, rfl⟩
  | beginDirectory => exact absurd hok (pushAll_refused hn.1 hs)
  | beginFile executable size => exact absurd hok (pushAll_refused (hn.2.1 _ _) hs)
  | symlink target => exact absurd hok (pushAll_refused (hn.2.2 _) hs)
  | fileChunk chunk => exact absurd hok (pushAll_refused (hf.1 _) hs)
  | endFile => exact absurd hok (pushAll_refused hf.2 hs)

theorem starts_with_traversal (n : ℕ) : StartsWithNode L n ∧ StartsWithEntries L n := by
  induction n with
  | zero =>
    constructor
    · intro s s' u events slot hl hs hok hd
      obtain ⟨event, rest, rfl⟩ :=
        cons_of_pushAll (fun kind => hs ▸ before_incomplete slot kind) hok hd
      simp at hl
    · intro s s' u events slot last hl hs hok hd
      obtain ⟨event, rest, rfl⟩ :=
        cons_of_pushAll (fun kind => hs ▸ opening_incomplete slot _ kind _) hok hd
      simp at hl
  | succ n ih => exact ⟨startsWithNode_succ ih.2, startsWithEntries_succ ih.1 ih.2⟩

def summarize {δ : Type} (sha256 : Bytes → δ) (node : Node) : EncodeSummary δ where
  version := encoderVersion
  root := node.kind
  rawSize := (encodeNar node).length
  rawSha256 := sha256 (encodeNar node)
  entries := node.entryCount
  files := node.fileCount
  symlinks := node.symlinkCount

/-- The tree and the number of its events stay within the limits of the encoder. -/
structure Encodable (L : Limits) (node : Node) (work : ℕ) : Prop where
  fits : node.Fits L 0
  entries : node.entryCount ≤ L.maxEntries.toNat
  total : (encodeNar node).length ≤ L.maxTotalBytes.toNat
  work : min work u64Max ≤ L.maxWork.toNat

def archiveOutput (node : Node) (work : ℕ) : Output :=
  text (paddedString magic) ++ nodeOutput node work

theorem archiveOutput_bytes (node : Node) (work : ℕ) :
    (archiveOutput node work).bytes = encodeNar node := rfl

theorem hasRoom_archive :
    HasRoom L (meter Encoder.empty) (archiveOutput node work) ↔
      node.entryCount ≤ L.maxEntries.toNat ∧ (encodeNar node).length ≤ L.maxTotalBytes.toNat ∧
        min work u64Max ≤ L.maxWork.toNat := by
  have hne : encodeNar node ≠ [] := by
    simp [encodeNar, paddedString, magic, ascii]
  have hw : (archiveOutput node work).work = work := Nat.zero_add _
  have he : (archiveOutput node work).entries = node.entryCount := Nat.zero_add _
  have hs : saturatingAdd 0 work = min work u64Max := Nat.zero_add _
  constructor
  · rintro ⟨total, hr, entries⟩
    rw [archiveOutput_bytes] at total
    rw [hw] at hr
    rw [he] at entries
    simp only [meter, Encoder.empty, Nat.zero_add, hs] at total hr entries
    refine ⟨?_, total hne, ?_⟩
    · by_cases h : node.entryCount = 0
      · omega
      · exact entries h
    · by_cases h : work = 0
      · simp [h]
      · exact hr h
  · rintro ⟨entries, total, hr⟩
    refine ⟨fun _ => ?_, fun _ => ?_, fun _ => ?_⟩
    · rw [archiveOutput_bytes]
      simpa [meter, Encoder.empty] using total
    · rw [hw]
      simpa only [meter, Encoder.empty, hs] using hr
    · rw [he]
      simpa [meter, Encoder.empty] using entries

theorem pushAll_complete {events kind}
    (hs : controlOf s = (.complete kind, [])) :
    pushAll L events s = .ok (u, s') ↔ events = [] ∧ s' = s := by
  cases events with
  | nil => simp [pushAll]
  | cons event events =>
    have hn := refuses_node_events (L := L) (Unattachable.complete kind [])
    have hf := refuses_file_events (L := L) (c := (.complete kind, [])) (by simp)
    have hd := refuses_directory_events (L := L) (c := (.complete kind, [])) (by simp)
    simp only [reduceCtorEq, false_and, iff_false]
    cases event with
    | beginDirectory => exact pushAll_refused hn.1 hs
    | beginFile executable size => exact pushAll_refused (hn.2.1 _ _) hs
    | symlink target => exact pushAll_refused (hn.2.2 _) hs
    | fileChunk chunk => exact pushAll_refused (hf.1 _) hs
    | endFile => exact pushAll_refused hf.2 hs
    | entry name => exact pushAll_refused (hd.1 _) hs
    | endDirectory => exact pushAll_refused hd.2 hs

/-- A fresh encoder completes exactly on the traversals of canonical trees within limits. -/
theorem run_complete_iff :
    ((do string L magic; pushAll L events : EncodeM Unit) Encoder.empty = .ok (u, s') ∧
        ∃ kind, s'.root = .complete kind) ↔
      ∃ node, Traverses node events ∧ node.Canonical ∧ Encodable L node events.length ∧
        s' = place (.complete node.kind, []) (archiveOutput node events.length) Encoder.empty := by
  rw [bind_ok]
  constructor
  · rintro ⟨⟨_, t, hm, hu⟩, hd⟩
    obtain ⟨hr, rfl⟩ := string_ok.1 hm
    obtain ⟨node, first, rest, rfl, hi⟩ :=
      (starts_with_traversal events.length).1 .root (Nat.le_refl _) rfl hu hd
    obtain ⟨hc, hf, hn, hs⟩ := (nodeRuns node .root rest hi rfl).1 hu
    obtain ⟨rfl, rfl⟩ := (pushAll_complete rfl).1 hs
    rw [Slot.trailer, append_text_nil] at hn
    obtain ⟨he, ht, hw⟩ := hasRoom_archive.1 (hasRoom_append.2 ⟨hr, hn⟩)
    rw [List.append_nil]
    refine ⟨node, hi, hc, ⟨hf, he, ht, hw⟩, ?_⟩
    rw [place_place, Slot.trailer, append_text_nil]
    rfl
  · rintro ⟨node, ha, hc, ⟨hf, he, ht, hw⟩, rfl⟩
    obtain ⟨hr, hn⟩ := hasRoom_append.1 (hasRoom_archive.2 ⟨he, ht, hw⟩)
    refine ⟨⟨(), _, string_ok.2 ⟨hr, rfl⟩, ?_⟩, node.kind, rfl⟩
    rw [← List.append_nil events]
    refine (nodeRuns node .root [] ha rfl).2 ⟨hc, hf, ?_, ?_⟩
    · rw [Slot.trailer, append_text_nil]
      exact hn
    · refine (pushAll_complete rfl).2 ⟨rfl, ?_⟩
      rw [place_place, Slot.trailer, append_text_nil, List.append_nil]
      rfl

theorem finish_ok {δ : Type} {sha256 : Bytes → δ} {out : Bytes} {summary} :
    finish sha256 s = .ok (out, summary) ↔
      ∃ kind, s.root = .complete kind ∧ out = s.writer ∧
        summary = ⟨encoderVersion, kind, s.rawSize, sha256 s.digest, s.entries, s.files,
          s.symlinks⟩ := by
  unfold finish
  cases s.root <;> simp [eq_comm]

theorem finish_archive {δ : Type} {sha256 : Bytes → δ} {node : Node} {work : ℕ} {out : Bytes}
    {summary} (h : (encodeNar node).length ≤ L.maxTotalBytes.toNat) :
    finish sha256 (place (.complete node.kind, []) (archiveOutput node work) Encoder.empty) =
        .ok (out, summary) ↔ out = encodeNar node ∧ summary = summarize sha256 node := by
  obtain ⟨hf, hl, -⟩ := counts_exact h
  rw [finish_ok]
  simp [place, summarize, archiveOutput, nodeOutput, text, Encoder.empty, encodeNar, hf, hl]

/-- The encoder finishes exactly on the traversals of canonical trees within its limits, and
then has written the encoding of the tree. -/
theorem encode_finishes_iff_traversal {δ : Type} (sha256 : Bytes → δ) (L : Limits)
    (events : List Event) (out : Bytes) (summary : EncodeSummary δ) :
    encodeEvents L sha256 events = .ok (out, summary) ↔
      ∃ node, Traverses node events ∧ node.Canonical ∧ Encodable L node events.length ∧
        out = encodeNar node ∧ summary = summarize sha256 node := by
  unfold encodeEvents
  constructor
  · intro hok
    split at hok
    · cases hok
    · rename_i u t hr
      obtain ⟨kind, hk, -⟩ := finish_ok.1 hok
      obtain ⟨node, ht, hc, he, rfl⟩ := run_complete_iff.1 ⟨hr, kind, hk⟩
      exact ⟨node, ht, hc, he, (finish_archive he.total).1 hok⟩
  · rintro ⟨node, ht, hc, he, ho⟩
    obtain ⟨hr, -⟩ := (run_complete_iff (u := ())).2 ⟨node, ht, hc, he, rfl⟩
    rw [hr]
    exact (finish_archive he.total).2 ho

end NarEncoderGrammar
