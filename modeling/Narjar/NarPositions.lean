import Narjar.NarCodec

/-!
# Positions in an archive

Besides the tree the decoder reports where each file body lies in the input, how deep each
directory is, and how much it has read. These reports are compared with the input and with
the events themselves.
-/
namespace NarPositions

open ByteCodecs NarFormat NarDecoder NarDecoderEffects NarDecoderGrammar NarCodec
open NarEncoderGrammar (Traverses)

inductive Opened where
  | directory
  | file
  deriving DecidableEq, Repr

/-- The open nodes after one more event, the innermost first. A directory carries the number of
directories around it, a chunk stands in a file, and an end closes a node of its own kind. -/
def track (opened : List Opened) : Event → Option (List Opened)
  | .beginDirectory depth =>
    if opened.head? ≠ some .file ∧ depth = opened.length then some (.directory :: opened) else none
  | .entry _ => if opened.head? = some .directory then some opened else none
  | .beginFile _ _ _ => if opened.head? ≠ some .file then some (.file :: opened) else none
  | .fileChunk _ => if opened.head? = some .file then some opened else none
  | .endFile => if opened.head? = some .file then some opened.tail else none
  | .symlink _ => if opened.head? ≠ some .file then some opened else none
  | .endDirectory => if opened.head? = some .directory then some opened.tail else none

def Balanced (events : List Event) : Prop := events.foldlM track [] = some []

theorem track_chunks (opened : List Opened) (chunks : List Bytes) :
    (chunks.map Event.fileChunk).foldlM track (.file :: opened) = some (.file :: opened) := by
  induction chunks with
  | nil => rfl
  | cons chunk chunks ih =>
    rw [List.map_cons, List.foldlM_cons]
    exact ih

theorem track_file (h : opened.head? ≠ some .file) (executable : Bool)
    (size offset : ℕ) (chunks : List Bytes) :
    (Event.beginFile executable size offset :: chunks.map .fileChunk ++ [Event.endFile]).foldlM track
      opened = some opened := by
  have hb : track opened (.beginFile executable size offset) = some (.file :: opened) := if_pos h
  rw [List.cons_append, List.foldlM_cons, hb]
  simp only [Option.bind_eq_bind, Option.bind_some, List.foldlM_append, track_chunks]
  rfl

mutual
theorem track_nodeEvents : ∀ (node : Node) (opened : List Opened) (offset : ℕ),
    opened.head? ≠ some .file →
    (nodeEvents opened.length offset node).foldlM track opened = some opened
  | .regular executable contents, opened, offset, h => by
    rw [nodeEvents]
    exact track_file h executable _ _ (fileChunks contents)
  | .symlink target, opened, offset, h => by
    have hl : track opened (.symlink target) = some opened := if_pos h
    simp only [nodeEvents, List.foldlM_cons, List.foldlM_nil, hl]
    rfl
  | .directory entries, opened, offset, h => by
    have hb : track opened (.beginDirectory opened.length) = some (.directory :: opened) :=
      if_pos ⟨h, rfl⟩
    have ih := track_entriesEvents entries opened (offset + (nodeHeader directoryToken).length)
    rw [nodeEvents, List.cons_append, List.foldlM_cons, hb]
    simp only [Option.bind_eq_bind, Option.bind_some, List.foldlM_append, ih]
    rfl
theorem track_entriesEvents : ∀ (entries : List (Bytes × Node)) (opened : List Opened)
    (offset : ℕ), (entriesEvents (opened.length + 1) offset entries).foldlM track
      (.directory :: opened) = some (.directory :: opened)
  | [], opened, offset => rfl
  | (name, node) :: entries, opened, offset => by
    have he : track (.directory :: opened) (.entry name) = some (.directory :: opened) := rfl
    have ihn := track_nodeEvents node (.directory :: opened) (offset + (entryHeader name).length)
      (by simp)
    have ih := track_entriesEvents entries opened (offset + (entryHeader name).length +
      node.encode.length + (paddedString closeToken).length)
    rw [List.length_cons] at ihn
    rw [entriesEvents, List.cons_append, List.foldlM_cons, he]
    simp only [Option.bind_eq_bind, Option.bind_some, List.foldlM_append, ihn, ih]
end

/-- Every file body lies in the input where its first event says, and its chunks are that part
of the input. -/
def BodiesAt (input : Bytes) (events : List Event) : Prop :=
  ∀ (before after : List Event) (executable : Bool) (size offset : ℕ),
    events = before ++ .beginFile executable size offset :: after →
    ∃ (chunks : List Bytes) (rest : List Event),
      after = chunks.map .fileChunk ++ .endFile :: rest ∧
        offset + size ≤ input.length ∧ chunks.flatten = (input.drop offset).take size

section Bodies

variable {input : Bytes}

theorem bodiesAt_of_no_file
    (h : ∀ executable size offset, Event.beginFile executable size offset ∉ events) :
    BodiesAt input events := by
  intro before after executable size offset heq
  exact absurd (heq ▸ by simp) (h executable size offset)

theorem BodiesAt.append (hf : BodiesAt input first)
    (hs : BodiesAt input second) : BodiesAt input (first ++ second) := by
  intro before after executable size offset heq
  rcases List.append_eq_append_iff.1 heq with ⟨middle, rfl, hm⟩ | ⟨middle, hb, ha⟩
  · exact hs middle after executable size offset hm
  · cases middle with
    | nil => exact hs [] after executable size offset ha.symm
    | cons event middle =>
      obtain ⟨rfl, rfl⟩ := List.cons.inj ha
      obtain ⟨chunks, rest, rfl, hr, hl⟩ := hf before middle executable size offset hb
      exact ⟨chunks, rest ++ second, by simp, hr, hl⟩

theorem bodiesAt_file (executable : Bool) (chunks : List Bytes) (before after : Bytes)
    (h : input = before ++ chunks.flatten ++ after) :
    BodiesAt input (.beginFile executable chunks.flatten.length before.length ::
      chunks.map .fileChunk ++ [.endFile]) := by
  intro events rest executable' size offset heq
  rw [List.cons_append] at heq
  cases events with
  | nil =>
    obtain ⟨he, rfl⟩ := List.cons.inj heq
    cases he
    refine ⟨chunks, [], rfl, ?_, ?_⟩
    · simp [h]
    · rw [h, List.append_assoc, List.drop_left, List.take_left]
  | cons event events =>
    -- no second file begins before the end of this one
    have hm : Event.beginFile executable' size offset ∈
        chunks.map Event.fileChunk ++ [.endFile] := by
      rw [(List.cons.inj heq).2]
      simp
    simp at hm

mutual
theorem bodiesAt_node : ∀ (node : Node) (depth : ℕ) (before after : Bytes),
    input = before ++ node.encode ++ after → BodiesAt input (nodeEvents depth before.length node)
  | .regular executable contents, depth, before, after, h => by
    have hi : input = before ++ fileHeader executable contents.length ++
        (fileChunks contents).flatten ++ (fileTrailer contents.length ++ after) := by
      rw [h, Node.encode, fileChunks_flatten]
      simp only [List.append_assoc]
    have hf := bodiesAt_file executable (fileChunks contents) _ _ hi
    rw [List.length_append, fileChunks_flatten] at hf
    rw [nodeEvents]
    exact hf
  | .symlink target, depth, before, after, h => bodiesAt_of_no_file (by simp [nodeEvents])
  | .directory entries, depth, before, after, h => by
    have ih := bodiesAt_entries entries (depth + 1) (before ++ nodeHeader directoryToken)
      (paddedString closeToken ++ after) (by simp only [h, Node.encode, List.append_assoc])
    rw [List.length_append] at ih
    have hb : BodiesAt input [.beginDirectory depth] := bodiesAt_of_no_file (by simp)
    have he : BodiesAt input [.endDirectory] := bodiesAt_of_no_file (by simp)
    rw [nodeEvents, List.cons_append, ← List.singleton_append]
    exact hb.append (ih.append he)
theorem bodiesAt_entries : ∀ (entries : List (Bytes × Node)) (depth : ℕ) (before after : Bytes),
    input = before ++ encodeEntries entries ++ after →
    BodiesAt input (entriesEvents depth before.length entries)
  | [], depth, before, after, h => bodiesAt_of_no_file (by simp [entriesEvents])
  | (name, node) :: entries, depth, before, after, h => by
    have ihn := bodiesAt_node node depth (before ++ entryHeader name)
      (paddedString closeToken ++ encodeEntries entries ++ after)
      (by simp only [h, encodeEntries, List.append_assoc])
    have ih := bodiesAt_entries entries depth
      (before ++ entryHeader name ++ node.encode ++ paddedString closeToken) after
      (by simp only [h, encodeEntries, List.append_assoc])
    simp only [List.length_append] at ihn ih
    have he : BodiesAt input [.entry name] := bodiesAt_of_no_file (by simp)
    rw [entriesEvents, List.cons_append, ← List.singleton_append]
    exact he.append (ihn.append ih)
end

end Bodies

def isEntry : Event → Bool
  | .entry _ => true
  | _ => false

def isFile : Event → Bool
  | .beginFile _ _ _ => true
  | _ => false

def isSymlink : Event → Bool
  | .symlink _ => true
  | _ => false

/-- The entries, files and symlinks among the events. -/
structure Counted (events : List Event) (entries files symlinks : ℕ) : Prop where
  entries : events.countP isEntry = entries
  files : events.countP isFile = files
  symlinks : events.countP isSymlink = symlinks

theorem Counted.append
    (hf : Counted first e f l) (hs : Counted second e' f' l') :
    Counted (first ++ second) (e + e') (f + f') (l + l') := by
  constructor
  · rw [List.countP_append, hf.entries, hs.entries]
  · rw [List.countP_append, hf.files, hs.files]
  · rw [List.countP_append, hf.symlinks, hs.symlinks]

theorem counted_chunks (chunks : List Bytes) : Counted (chunks.map .fileChunk) 0 0 0 := by
  constructor <;> simp [isEntry, isFile, isSymlink]

theorem counted_file (executable : Bool) (size offset : ℕ) (chunks : List Bytes) :
    Counted (.beginFile executable size offset :: chunks.map .fileChunk ++ [.endFile]) 0 1 0 := by
  have hb : Counted [.beginFile executable size offset] 0 1 0 := ⟨rfl, rfl, rfl⟩
  have he : Counted [.endFile] 0 0 0 := ⟨rfl, rfl, rfl⟩
  exact hb.append ((counted_chunks chunks).append he)

theorem Counted.congr (h : Counted events e f l)
    (he : e = e') (hf : f = f') (hl : l = l') : Counted events e' f' l' := by
  subst he hf hl
  exact h

mutual
theorem counted_node : ∀ (node : Node) (depth offset : ℕ),
    Counted (nodeEvents depth offset node) node.entryCount node.fileCount node.symlinkCount
  | .regular executable contents, depth, offset => by
    rw [nodeEvents]
    exact counted_file executable _ _ (fileChunks contents)
  | .symlink target, depth, offset => ⟨rfl, rfl, rfl⟩
  | .directory entries, depth, offset => by
    have hb : Counted [Event.beginDirectory depth] 0 0 0 := ⟨rfl, rfl, rfl⟩
    have he : Counted [Event.endDirectory] 0 0 0 := ⟨rfl, rfl, rfl⟩
    have ih := counted_entries entries (depth + 1) (offset + (nodeHeader directoryToken).length)
    rw [nodeEvents, List.cons_append, ← List.singleton_append]
    exact (hb.append (ih.append he)).congr (Nat.zero_add _) (Nat.zero_add _) (Nat.zero_add _)
theorem counted_entries : ∀ (entries : List (Bytes × Node)) (depth offset : ℕ),
    Counted (entriesEvents depth offset entries) (countEntries entries) (countFiles entries)
      (countSymlinks entries)
  | [], depth, offset => ⟨rfl, rfl, rfl⟩
  | (name, node) :: entries, depth, offset => by
    have he : Counted [Event.entry name] 1 0 0 := ⟨rfl, rfl, rfl⟩
    have ihn := counted_node node depth (offset + (entryHeader name).length)
    have ih := counted_entries entries depth (offset + (entryHeader name).length +
      node.encode.length + (paddedString closeToken).length)
    rw [entriesEvents, List.cons_append, ← List.singleton_append]
    exact (he.append (ihn.append ih)).congr (Nat.add_assoc _ _ _).symm (Nat.zero_add _)
      (Nat.zero_add _)
end

/-- What the decoder reports beside the tree agrees with the input and with the events: the
place of every file body, the nesting, the size and the hashed bytes, and the counts. -/
theorem decoded_reports_faithful {δ : Type} (sha256 : Bytes → δ) (L : Limits) (reader : Bytes)
    (summary : DecodeSummary δ) (events : List Event)
    (h : decodeEvents L sha256 reader = .ok (summary, events)) :
    BodiesAt reader events ∧ Balanced events ∧
      summary.rawSize = reader.length ∧ summary.rawSha256 = sha256 reader ∧
      Counted events summary.entries summary.files summary.symlinks ∧
      ∃ node : Node, reader = encodeNar node ∧ Traverses node (events.map toEncoder) ∧
        summary.root = node.kind ∧ summary.entries = node.entryCount ∧
        summary.files = node.fileCount ∧ summary.symlinks = node.symlinkCount := by
  obtain ⟨node, -, -, rfl, rfl, rfl⟩ := (decodeEvents_eq_ok_iff ..).1 h
  have ho : BodiesAt (encodeNar node) (archiveEvents node) :=
    bodiesAt_node node 0 (paddedString magic) [] (by simp [encodeNar])
  have hb : Balanced (archiveEvents node) := track_nodeEvents node [] _ (by simp)
  exact ⟨ho, hb, rfl, rfl, counted_node node 0 _, node, rfl,
    traverses_nodeEvents 0 _ node, rfl, rfl, rfl, rfl⟩

theorem sampleTree_bodies :
    BodiesAt (encodeNar sampleTree) (archiveEvents sampleTree) ∧
      Balanced (archiveEvents sampleTree) ∧ (archiveEvents sampleTree).countP isFile = 2 := by
  obtain ⟨ho, hb, -, -, hc, -⟩ :=
    decoded_reports_faithful id Limits.default _ _ _ sampleTree_decodes
  exact ⟨ho, hb, hc.files⟩

end NarPositions
