import Narjar.NarDecoderGrammar
import Narjar.NarEncoderGrammar

/-!
# The NAR codec

Decoder and encoder meet at the canonical trees. What the decoder accepts is re-encoded to
the same bytes, and what the encoder writes is decoded to the same events.
-/
namespace NarCodec

open ByteCodecs NarFormat NarDecoderEffects NarDecoderGrammar NarEncoderGrammar
open NarEncoder (Event encodeEvents EncodeSummary)
open NarDecoder (decodeEvents DecodeSummary)

def toEncoder : NarDecoder.Event → Event
  | .beginDirectory _ => .beginDirectory
  | .entry name => .entry name
  | .beginFile executable size _ => .beginFile executable size
  | .fileChunk bytes => .fileChunk bytes
  | .endFile => .endFile
  | .symlink target => .symlink target
  | .endDirectory => .endDirectory

def prependChunk (bytes : Bytes) : List Event → List Event
  | .fileChunk more :: rest => .fileChunk (bytes ++ more) :: rest
  | rest => .fileChunk bytes :: rest

/-- The events with the chunks of each file concatenated to one. -/
def concatChunks : List Event → List Event
  | [] => []
  | .beginFile executable size :: rest =>
    .beginFile executable size :: prependChunk [] (concatChunks rest)
  | .fileChunk bytes :: rest => prependChunk bytes (concatChunks rest)
  | .beginDirectory :: rest => .beginDirectory :: concatChunks rest
  | .entry name :: rest => .entry name :: concatChunks rest
  | .endFile :: rest => .endFile :: concatChunks rest
  | .symlink target :: rest => .symlink target :: concatChunks rest
  | .endDirectory :: rest => .endDirectory :: concatChunks rest

mutual
def nodeTraversal : Node → List Event
  | .regular executable contents =>
    [.beginFile executable contents.length, .fileChunk contents, .endFile]
  | .symlink target => [.symlink target]
  | .directory entries => .beginDirectory :: entriesTraversal entries ++ [.endDirectory]
def entriesTraversal : List (Bytes × Node) → List Event
  | [] => []
  | (name, node) :: entries => .entry name :: nodeTraversal node ++ entriesTraversal entries
end

theorem prependChunk_prependChunk (a b : Bytes) (events : List Event) :
    prependChunk a (prependChunk b events) = prependChunk (a ++ b) events := by
  cases events with
  | nil => rfl
  | cons event rest => cases event <;> simp [prependChunk]

theorem prependChunk_concat_chunks (bytes : Bytes) (chunks : List Bytes) (rest : List Event) :
    prependChunk bytes (concatChunks (chunks.map .fileChunk ++ .endFile :: rest)) =
      .fileChunk (bytes ++ chunks.flatten) :: .endFile :: concatChunks rest := by
  induction chunks generalizing bytes with
  | nil => simp [concatChunks, prependChunk]
  | cons chunk chunks ih =>
    rw [List.map_cons, List.cons_append, concatChunks, prependChunk_prependChunk, ih,
      List.flatten_cons, List.append_assoc]

mutual
theorem concatChunks_of_traverses : ∀ (node : Node) {first : List Event} (rest : List Event),
    Traverses node first → concatChunks (first ++ rest) = nodeTraversal node ++ concatChunks rest
  | .regular executable contents, first, rest, h => by
    obtain ⟨chunks, rfl, rfl⟩ := h
    simp [concatChunks, prependChunk_concat_chunks, nodeTraversal]
  | .symlink target, first, rest, h => by
    subst h
    rfl
  | .directory entries, first, rest, h => by
    obtain ⟨inner, hi, rfl⟩ := h
    have ih := concatChunks_of_traversesEntries entries (.endDirectory :: rest) hi
    simp [concatChunks, nodeTraversal, ih]
theorem concatChunks_of_traversesEntries : ∀ (entries : List (Bytes × Node))
    {inner : List Event} (rest : List Event), TraversesEntries entries inner →
    concatChunks (inner ++ rest) = entriesTraversal entries ++ concatChunks rest
  | [], inner, rest, h => by
    subst h
    rfl
  | (name, node) :: entries, inner, rest, h => by
    obtain ⟨first, tail, hf, ht, rfl⟩ := h
    have ihn := concatChunks_of_traverses node (tail ++ rest) hf
    have ih := concatChunks_of_traversesEntries entries rest ht
    simp [concatChunks, entriesTraversal, ihn, ih]
end

theorem prependChunk_head (bytes : Bytes) (events : List Event) :
    ∃ more rest, prependChunk bytes events = .fileChunk (bytes ++ more) :: rest := by
  cases events with
  | nil => exact ⟨[], [], by simp [prependChunk]⟩
  | cons event rest =>
    cases event with
    | fileChunk more => exact ⟨more, rest, rfl⟩
    | _ => exact ⟨[], _, by simp [prependChunk]; rfl⟩

theorem concatChunks_eq_nil (h : concatChunks events = []) : events = [] := by
  cases events with
  | nil => rfl
  | cons event events =>
    cases event with
    | fileChunk bytes =>
      obtain ⟨more, rest, heq⟩ := prependChunk_head bytes (concatChunks events)
      simp [concatChunks, heq] at h
    | _ => simp [concatChunks] at h

theorem concatChunks_eq_cons
    (hc : ∀ bytes, event ≠ .fileChunk bytes) (hf : ∀ x n, event ≠ .beginFile x n)
    (h : concatChunks events = event :: rest) :
    ∃ tail, events = event :: tail ∧ concatChunks tail = rest := by
  cases events with
  | nil => cases h
  | cons first tail =>
    cases first with
    | fileChunk bytes =>
      obtain ⟨more, rest', heq⟩ := prependChunk_head bytes (concatChunks tail)
      rw [concatChunks, heq] at h
      exact absurd (List.cons.inj h).1.symm (hc _)
    | beginFile x n => exact absurd (List.cons.inj h).1.symm (hf x n)
    | _ =>
      obtain ⟨rfl, rfl⟩ := List.cons.inj h
      exact ⟨tail, rfl, rfl⟩

theorem chunks_of_concatChunks
    (h : prependChunk bytes (concatChunks events) = .fileChunk contents :: .endFile :: rest) :
    ∃ (chunks : List Bytes) (tail : List Event),
      events = chunks.map .fileChunk ++ .endFile :: tail ∧ bytes ++ chunks.flatten = contents ∧
        concatChunks tail = rest := by
  induction events generalizing bytes with
  | nil => simp [concatChunks, prependChunk] at h
  | cons event events ih =>
    cases event with
    | fileChunk chunk =>
      rw [concatChunks, prependChunk_prependChunk] at h
      obtain ⟨chunks, tail, rfl, hc, ht⟩ := ih h
      exact ⟨chunk :: chunks, tail, rfl, by simpa using hc, ht⟩
    | endFile =>
      simp only [concatChunks, prependChunk, List.cons.injEq, Event.fileChunk.injEq, true_and] at h
      exact ⟨[], events, rfl, by simpa using h.1, h.2⟩
    | _ => simp [concatChunks, prependChunk] at h

mutual
theorem traverses_of_concatChunks : ∀ (node : Node) {events rest : List Event},
    concatChunks events = nodeTraversal node ++ rest →
    ∃ first tail, events = first ++ tail ∧ Traverses node first ∧ concatChunks tail = rest
  | .regular executable contents, events, rest, h => by
    cases events with
    | nil => cases h
    | cons event events =>
      cases event with
      | beginFile x n =>
        simp only [nodeTraversal, concatChunks, List.cons_append, List.nil_append,
          List.cons.injEq, Event.beginFile.injEq] at h
        obtain ⟨⟨rfl, rfl⟩, h⟩ := h
        obtain ⟨chunks, tail, rfl, hc, ht⟩ := chunks_of_concatChunks h
        rw [List.nil_append] at hc
        exact ⟨.beginFile x contents.length :: chunks.map .fileChunk ++ [.endFile], tail, by simp,
          ⟨chunks, hc, rfl⟩, ht⟩
      | fileChunk bytes =>
        obtain ⟨more, rest', heq⟩ := prependChunk_head bytes (concatChunks events)
        simp [concatChunks, heq, nodeTraversal] at h
      | _ => simp [concatChunks, nodeTraversal] at h
  | .symlink target, events, rest, h => by
    obtain ⟨tail, rfl, ht⟩ := concatChunks_eq_cons (by simp) (by simp) h
    exact ⟨[.symlink target], tail, rfl, rfl, ht⟩
  | .directory entries, events, rest, h => by
    simp only [nodeTraversal, List.cons_append, List.append_assoc, List.nil_append] at h
    obtain ⟨events, rfl, hv⟩ := concatChunks_eq_cons (by simp) (by simp) h
    obtain ⟨inner, _, rfl, hi, he⟩ := traversesEntries_of_concatChunks entries hv
    obtain ⟨tail, rfl, ht⟩ := concatChunks_eq_cons (by simp) (by simp) he
    exact ⟨.beginDirectory :: inner ++ [.endDirectory], tail, by simp, ⟨inner, hi, rfl⟩, ht⟩
theorem traversesEntries_of_concatChunks : ∀ (entries : List (Bytes × Node))
    {events rest : List Event}, concatChunks events = entriesTraversal entries ++ rest →
    ∃ inner tail, events = inner ++ tail ∧ TraversesEntries entries inner ∧ concatChunks tail = rest
  | [], events, rest, h => ⟨[], events, rfl, rfl, h⟩
  | (name, node) :: entries, events, rest, h => by
    simp only [entriesTraversal, List.cons_append, List.append_assoc] at h
    obtain ⟨events, rfl, he⟩ := concatChunks_eq_cons (by simp) (by simp) h
    obtain ⟨first, events, rfl, hf, hr⟩ := traverses_of_concatChunks node he
    obtain ⟨inner, tail, rfl, hi, ht⟩ := traversesEntries_of_concatChunks entries hr
    exact ⟨.entry name :: first ++ inner, tail, by simp, ⟨first, inner, hf, hi, rfl⟩, ht⟩
end

/-- The traversals of a tree are the event lists that concatenate to its traversal. -/
theorem traverses_iff :
    Traverses node events ↔ concatChunks events = nodeTraversal node := by
  constructor
  · intro h
    simpa [concatChunks] using concatChunks_of_traverses node [] h
  · intro h
    rw [← List.append_nil (nodeTraversal node)] at h
    obtain ⟨first, tail, rfl, hf, ht⟩ := traverses_of_concatChunks node h
    rw [concatChunks_eq_nil ht, List.append_nil]
    exact hf

mutual
theorem nodeTraversal_injective : ∀ (node node' : Node) {rest rest' : List Event},
    nodeTraversal node ++ rest = nodeTraversal node' ++ rest' → node = node' ∧ rest = rest'
  | .regular executable contents, node', rest, rest', h => by
    cases node' with
    | regular executable' contents' =>
      simp only [nodeTraversal, List.cons_append, List.nil_append, List.cons.injEq,
        Event.beginFile.injEq, Event.fileChunk.injEq, true_and] at h
      obtain ⟨⟨rfl, -⟩, rfl, rfl⟩ := h
      exact ⟨rfl, rfl⟩
    | symlink | directory => simp [nodeTraversal] at h
  | .symlink target, node', rest, rest', h => by
    cases node' with
    | regular executable contents => simp [nodeTraversal] at h
    | symlink target' =>
      simp only [nodeTraversal, List.cons_append, List.nil_append, List.cons.injEq,
        Event.symlink.injEq] at h
      obtain ⟨rfl, rfl⟩ := h
      exact ⟨rfl, rfl⟩
    | directory entries => simp [nodeTraversal] at h
  | .directory entries, node', rest, rest', h => by
    cases node' with
    | regular | symlink => simp [nodeTraversal] at h
    | directory entries' =>
      simp only [nodeTraversal, List.cons_append, List.append_assoc, List.nil_append,
        List.cons.injEq, true_and] at h
      obtain ⟨rfl, rfl⟩ := entriesTraversal_injective entries entries' h
      exact ⟨rfl, rfl⟩
theorem entriesTraversal_injective : ∀ (entries entries' : List (Bytes × Node))
    {rest rest' : List Event},
    entriesTraversal entries ++ .endDirectory :: rest =
      entriesTraversal entries' ++ .endDirectory :: rest' → entries = entries' ∧ rest = rest'
  | [], entries', rest, rest', h => by
    cases entries' with
    | nil => exact ⟨rfl, (List.cons.inj h).2⟩
    | cons entry entries' => simp [entriesTraversal] at h
  | (name, node) :: entries, entries', rest, rest', h => by
    cases entries' with
    | nil => simp [entriesTraversal] at h
    | cons entry entries' =>
      obtain ⟨name', node'⟩ := entry
      simp only [entriesTraversal, List.cons_append, List.append_assoc, List.cons.injEq,
        Event.entry.injEq] at h
      obtain ⟨rfl, hn⟩ := h
      obtain ⟨rfl, he⟩ := nodeTraversal_injective node node' hn
      obtain ⟨rfl, rfl⟩ := entriesTraversal_injective entries entries' he
      exact ⟨rfl, rfl⟩
end

theorem splitChunks_flatten (count : ℕ) (bytes : Bytes)
    (h : bytes.length ≤ count * NarDecoder.chunkSize) :
    (splitChunks count bytes).flatten = bytes := by
  induction count generalizing bytes with
  | zero =>
    have : bytes = [] := List.length_eq_zero_iff.1 (by omega)
    simp [splitChunks, this]
  | succ count ih =>
    have hd : (bytes.drop NarDecoder.chunkSize).length ≤ count * NarDecoder.chunkSize := by
      rw [Nat.succ_mul] at h
      rw [List.length_drop]
      omega
    simp only [splitChunks, List.flatten_cons, ih _ hd, List.take_append_drop]

theorem fileChunks_flatten (contents : Bytes) : (fileChunks contents).flatten = contents := by
  apply splitChunks_flatten
  unfold NarDecoder.chunkCount NarDecoder.chunkSize
  omega

private theorem map_toEncoder_chunks (chunks : List Bytes) :
    (chunks.map NarDecoder.Event.fileChunk).map toEncoder = chunks.map .fileChunk := by
  simp [toEncoder, Function.comp_def]

mutual
theorem traverses_nodeEvents (depth offset : ℕ) : ∀ node : Node,
    Traverses node ((nodeEvents depth offset node).map toEncoder)
  | .regular executable contents =>
    ⟨fileChunks contents, fileChunks_flatten contents, by
      rw [nodeEvents, List.cons_append, List.map_cons, List.map_append, map_toEncoder_chunks,
        List.map_singleton, toEncoder, toEncoder, List.cons_append]⟩
  | .symlink target => rfl
  | .directory entries =>
    ⟨_, traverses_entriesEvents (depth + 1) (offset + (nodeHeader directoryToken).length) entries,
      by simp only [nodeEvents, List.cons_append, List.map_cons, List.map_append, List.map_nil,
        toEncoder]⟩
theorem traverses_entriesEvents (depth offset : ℕ) : ∀ entries : List (Bytes × Node),
    TraversesEntries entries ((entriesEvents depth offset entries).map toEncoder)
  | [] => rfl
  | (name, node) :: entries =>
    ⟨_, _, traverses_nodeEvents depth (offset + (entryHeader name).length) node,
      traverses_entriesEvents depth (offset + (entryHeader name).length + node.encode.length +
        (paddedString closeToken).length) entries,
      by simp only [entriesEvents, List.cons_append, List.map_cons, List.map_append, toEncoder]⟩
end

theorem concatChunks_archiveEvents (node : Node) :
    concatChunks ((archiveEvents node).map toEncoder) = nodeTraversal node :=
  traverses_iff.1 (traverses_nodeEvents 0 _ node)

mutual
theorem work_le_of_traverses : ∀ (node : Node) {events : List Event}, Traverses node events →
    node.work ≤ events.length
  | .regular executable contents, events, h => by
    obtain ⟨chunks, -, rfl⟩ := h
    simp [Node.work]
  | .symlink target, events, h => by
    subst h
    simp [Node.work]
  | .directory entries, events, h => by
    obtain ⟨inner, hi, rfl⟩ := h
    have := work_le_of_traversesEntries entries hi
    simp only [Node.work, List.length_append, List.length_cons, List.length_nil]
    omega
theorem work_le_of_traversesEntries : ∀ (entries : List (Bytes × Node)) {events : List Event},
    TraversesEntries entries events → workEntries entries ≤ events.length
  | [], events, h => by simp [workEntries]
  | (name, node) :: entries, events, h => by
    obtain ⟨first, rest, hf, hr, rfl⟩ := h
    have := work_le_of_traverses node hf
    have := work_le_of_traversesEntries entries hr
    simp only [workEntries, List.cons_append, List.length_cons, List.length_append]
    omega
end

def sampleTree : Node :=
  .directory [(ascii ['a'], .regular true [1, 2, 3]), (ascii ['b'], .regular false []),
    (ascii ['c'], .symlink (ascii ['a']))]

theorem sampleTree_canonical : sampleTree.Canonical := by
  simp only [sampleTree, Node.Canonical, CanonicalEntries]
  decide

theorem sampleTree_within : WithinLimits Limits.default sampleTree where
  fits := by
    simp only [sampleTree, Node.Fits, FitEntries]
    decide
  entries := by decide
  total := by decide +kernel
  work := by decide

theorem sampleTree_decodes :
    decodeEvents Limits.default id (encodeNar sampleTree) =
      .ok (NarDecoderGrammar.summarize id sampleTree, archiveEvents sampleTree) :=
  (decodeEvents_eq_ok_iff ..).2 ⟨sampleTree, sampleTree_canonical, sampleTree_within, rfl, rfl, rfl⟩

theorem sampleTree_encodes :
    encodeEvents Limits.default id (nodeTraversal sampleTree) =
      .ok (encodeNar sampleTree, NarEncoderGrammar.summarize id sampleTree) :=
  (encode_finishes_iff_traversal ..).2 ⟨sampleTree, traverses_iff.2 rfl, sampleTree_canonical,
    ⟨sampleTree_within.fits, sampleTree_within.entries, sampleTree_within.total, by decide⟩,
    rfl, rfl⟩

section Codec

variable {δ : Type} (sha256 : Bytes → δ) (L : Limits)

/-- The decoder accepts exactly the complete encodings of canonical trees within the limits;
the tree is unique, and the events are its preorder traversal. -/
theorem decode_accepts_exactly_canonical_archives (reader : Bytes) (summary : DecodeSummary δ)
    (events : List NarDecoder.Event) :
    decodeEvents L sha256 reader = .ok (summary, events) ↔
      ∃! node : Node, node.Canonical ∧ WithinLimits L node ∧ reader = encodeNar node ∧
        events = archiveEvents node ∧ summary = NarDecoderGrammar.summarize sha256 node := by
  rw [decodeEvents_eq_ok_iff]
  constructor
  · rintro ⟨node, h⟩
    refine ⟨node, h, fun other ho => ?_⟩
    have heq : nodeTraversal other = nodeTraversal node := by
      rw [← concatChunks_archiveEvents, ← concatChunks_archiveEvents, ← h.2.2.2.1, ← ho.2.2.2.1]
    exact (nodeTraversal_injective other node (congrArg (· ++ []) heq)).1
  · rintro ⟨node, h, -⟩
    exact ⟨node, h⟩

/-- All pushes and the finish succeed exactly on the traversals of one canonical tree within the
limits. -/
theorem encoder_accepts_exactly_traversals (events : List Event) :
    (∃ out summary, encodeEvents L sha256 events = .ok (out, summary)) ↔
      ∃! node : Node, Traverses node events ∧ node.Canonical ∧ Encodable L node events.length := by
  constructor
  · rintro ⟨out, summary, h⟩
    obtain ⟨node, ht, hc, he, -, -⟩ := (encode_finishes_iff_traversal ..).1 h
    refine ⟨node, ⟨ht, hc, he⟩, ?_⟩
    intro other ho
    have heq : nodeTraversal other = nodeTraversal node := by
      rw [← traverses_iff.1 ho.1, ← traverses_iff.1 ht]
    exact (nodeTraversal_injective other node (congrArg (· ++ []) heq)).1
  · rintro ⟨node, ⟨ht, hc, he⟩, -⟩
    exact ⟨_, _, (encode_finishes_iff_traversal ..).2 ⟨node, ht, hc, he, rfl, rfl⟩⟩

/-- An accepted archive is re-encoded to the same bytes from its events, however their file
bodies are cut, and no other accepted byte string describes the same tree. -/
theorem decoded_archive_reencodes (reader : Bytes) (summary : DecodeSummary δ)
    (events : List NarDecoder.Event) (h : decodeEvents L sha256 reader = .ok (summary, events)) :
    (∀ (work : UInt64) (pushed : List Event),
      concatChunks pushed = concatChunks (events.map toEncoder) →
      (pushed.length ≤ work.toNat ∨ work.toNat = u64Max) →
      ∃ encoded, encodeEvents { L with maxWork := work } sha256 pushed = .ok (reader, encoded)) ∧
    ∀ (L' : Limits) (reader' : Bytes) (summary' : DecodeSummary δ)
      (events' : List NarDecoder.Event),
      decodeEvents L' sha256 reader' = .ok (summary', events') →
      concatChunks (events'.map toEncoder) = concatChunks (events.map toEncoder) →
      reader' = reader := by
  obtain ⟨node, hc, hl, rfl, rfl, -⟩ := (decodeEvents_eq_ok_iff ..).1 h
  rw [concatChunks_archiveEvents]
  constructor
  · intro work pushed hp hw
    refine ⟨_, (encode_finishes_iff_traversal ..).2
      ⟨node, traverses_iff.2 hp, hc, ⟨?_, hl.entries, hl.total, ?_⟩, rfl, rfl⟩⟩
    · exact (node.fits_maxWork work).2 hl.fits
    · simp only
      omega
  · intro L' reader' summary' events' h' hs
    obtain ⟨node', -, -, rfl, rfl, -⟩ := (decodeEvents_eq_ok_iff ..).1 h'
    rw [concatChunks_archiveEvents] at hs
    rw [(nodeTraversal_injective node' node (congrArg (· ++ []) hs)).1]

theorem sampleTree_reencodes :
    ∃ encoded, encodeEvents { Limits.default with maxWork := 64 } id (nodeTraversal sampleTree) =
      .ok (encodeNar sampleTree, encoded) :=
  (decoded_archive_reencodes id Limits.default _ _ _ sampleTree_decodes).1 64
    (nodeTraversal sampleTree) (by rw [concatChunks_archiveEvents]; rfl) (.inl (by decide))

/-- A finished encoding is accepted under the same limits, with the same events and counts. -/
theorem encoded_archive_decodes (events : List Event) (out : Bytes) (summary : EncodeSummary δ)
    (h : encodeEvents L sha256 events = .ok (out, summary)) :
    ∃ (decoded : DecodeSummary δ) (emitted : List NarDecoder.Event),
      decodeEvents L sha256 out = .ok (decoded, emitted) ∧
      concatChunks (emitted.map toEncoder) = concatChunks events ∧
      decoded.root = summary.root ∧ decoded.rawSize = summary.rawSize ∧
      decoded.rawSha256 = summary.rawSha256 ∧ decoded.entries = summary.entries ∧
      decoded.files = summary.files ∧ decoded.symlinks = summary.symlinks := by
  obtain ⟨node, ht, hc, he, rfl, rfl⟩ := (encode_finishes_iff_traversal ..).1 h
  have hw : node.work ≤ L.maxWork.toNat := by
    have hv := work_le_of_traverses node ht
    have hx := (counts_exact he.total).2.2
    have hl := he.work
    omega
  refine ⟨_, _, (decodeEvents_eq_ok_iff ..).2 ⟨node, hc,
    ⟨he.fits, he.entries, he.total, hw⟩, rfl, rfl, rfl⟩, ?_, rfl, rfl, rfl, rfl, rfl, rfl⟩
  rw [concatChunks_archiveEvents, traverses_iff.1 ht]

theorem sampleTree_roundTrips :
    ∃ decoded emitted,
      decodeEvents Limits.default id (encodeNar sampleTree) = .ok (decoded, emitted) ∧
        concatChunks (emitted.map toEncoder) = nodeTraversal sampleTree ∧ decoded.files = 2 := by
  obtain ⟨decoded, emitted, hd, he, -, -, -, -, hf, -⟩ :=
    encoded_archive_decodes id Limits.default _ _ _ sampleTree_encodes
  exact ⟨decoded, emitted, hd, he, hf⟩

end Codec

end NarCodec
