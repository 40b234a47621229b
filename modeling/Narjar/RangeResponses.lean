import Narjar.ChunkRoundTrip
import Narjar.NarRanges

/-!
# Range responses are exact

Which header values ask for a range, and that a response sends exactly the bytes it announces,
from a file or from chunks.
-/
namespace RangeResponses

open ByteCodecs NarFormat ManifestFormat StreamChunking TextFields FaultyPrograms ByteStreams
open HttpRequests HttpResponses ResponseFraming NarRanges ChunkIngest ChunkIngestProgress
open ChunkReader ChunkRoundTrip List

/-- The values that ask for the bytes from the first to the last position, when `number` says what
a number looks like. -/
inductive RangeSpecification (number : Bytes → ℕ → Prop) (length : ℕ) : Bytes → ℕ → ℕ → Prop where
  | closed {first last : Bytes} {a b : ℕ} (hfirst : number first a) (hlast : number last b)
      (hordered : a ≤ b) (hwithin : a < length) :
      RangeSpecification number length (bytesUnit ++ (first ++ ([45] ++ last))) a (min b (length - 1))
  | fromFirst {first : Bytes} {a : ℕ} (hfirst : number first a) (hwithin : a < length) :
      RangeSpecification number length (bytesUnit ++ (first ++ ([45] ++ []))) a (length - 1)
  | suffix {count : Bytes} {n : ℕ} (hcount : number count n) (hpositive : 0 < n)
      (hlength : 0 < length) :
      RangeSpecification number length (bytesUnit ++ ([] ++ ([45] ++ count))) (length - n) (length - 1)

abbrev Unsigned : Bytes → ℕ → Prop := IsNumber u64Max

def PossiblySigned (text : Bytes) (n : ℕ) : Prop :=
  Unsigned text n ∨ ∃ digits, text = 43 :: digits ∧ Unsigned digits n

section Parser

variable {value text : Bytes} {length first last n : ℕ}

theorem RangeSpecification.selects
    (h : RangeSpecification number length value first last) : first ≤ last ∧ last < length := by
  cases h with
  | closed | fromFirst | suffix => omega

theorem PossiblySigned.ne_nil (h : PossiblySigned text n) : text ≠ [] := by
  rcases h with hn | ⟨digits, rfl, -⟩
  · exact hn.1
  · exact cons_ne_nil _ _

theorem PossiblySigned.notMem (h : PossiblySigned text n)
    (hb : isDigit byte = false) (hp : byte ≠ 43) : byte ∉ text := by
  rcases h with hn | ⟨digits, rfl, hn⟩
  · exact hn.notMem hb
  · intro hm
    rcases mem_cons.1 hm with heq | hd
    · exact hp heq
    · exact hn.notMem hb hd

theorem parseRangeValue_parts {start stop : Bytes} (hd : 45 ∉ start)
    (hc : 44 ∉ start ∧ 44 ∉ stop) :
    parseRangeValue (bytesUnit ++ (start ++ ([45] ++ stop))) length =
      if start = [] then parseSuffixRange stop length else parseStartingRange start stop length := by
  have hn : 44 ∉ start ++ ([45] ++ stop) := by
    simp only [mem_append, not_or]
    exact ⟨hc.1, by decide, hc.2⟩
  have hs : splitOnce [45] (start ++ ([45] ++ stop)) = some (start, stop) :=
    splitOnce_append hd stop
  simp only [parseRangeValue, dropPrefix?_append, if_neg hn, hs]

theorem parseRangeValue_eq_portion_iff :
    parseRangeValue value length = .portion first last ↔
      RangeSpecification PossiblySigned length value first last := by
  constructor
  · intro h
    unfold parseRangeValue at h
    split at h
    · cases h
    rename_i specification hu
    rw [dropPrefix?_eq_some hu]
    split_ifs at h with hm
    split at h
    · cases h
    rename_i start stop hs
    rw [splitOnce_eq_some hs]
    split_ifs at h with ht
    · rw [ht]
      unfold parseSuffixRange at h
      split at h
      · cases h
      rename_i n hn
      split_ifs at h with hz
      cases h
      exact .suffix (parseUnsigned_iff.1 hn) (by omega) (by omega)
    · unfold parseStartingRange at h
      split at h
      · cases h
      rename_i a ha
      split_ifs at h with he
      unfold parseRangeEnd at h
      split_ifs at h with hp
      · cases h
        rw [hp]
        exact .fromFirst (parseUnsigned_iff.1 ha) (by omega)
      · split at h
        · cases h
        rename_i b hb
        split_ifs at h with hr
        cases h
        exact .closed (parseUnsigned_iff.1 ha) (parseUnsigned_iff.1 hb) (by omega) (by omega)
  · intro h
    cases h with
    | @closed start stop a b hf hl ho hw =>
      rw [parseRangeValue_parts (hf.notMem rfl (by decide))
        ⟨hf.notMem rfl (by decide), hl.notMem rfl (by decide)⟩, if_neg hf.ne_nil,
        parseStartingRange, parseUnsigned_iff.2 hf]
      simp only [if_neg (Nat.not_le.2 hw), parseRangeEnd, if_neg hl.ne_nil,
        parseUnsigned_iff.2 hl, if_neg (Nat.not_lt.2 ho)]
    | @fromFirst start a hf hw =>
      rw [parseRangeValue_parts (hf.notMem rfl (by decide))
        ⟨hf.notMem rfl (by decide), not_mem_nil⟩, if_neg hf.ne_nil,
        parseStartingRange, parseUnsigned_iff.2 hf]
      simp only [if_neg (Nat.not_le.2 hw), parseRangeEnd, if_true]
    | @suffix count n hc hi hg =>
      rw [parseRangeValue_parts not_mem_nil
        ⟨not_mem_nil, hc.notMem rfl (by decide)⟩, if_pos rfl, parseSuffixRange,
        parseUnsigned_iff.2 hc]
      simp only
      rw [if_neg (by omega)]

theorem parseRangeValue_ne_full : parseRangeValue value length ≠ .full := by
  intro h
  unfold parseRangeValue at h
  split at h
  · cases h
  split_ifs at h with hc
  split at h
  · cases h
  split_ifs at h with hs
  · unfold parseSuffixRange at h
    split at h
    · cases h
    · split_ifs at h
  · unfold parseStartingRange at h
    split at h
    · cases h
    split_ifs at h with hb
    unfold parseRangeEnd at h
    split_ifs at h with ht
    split at h
    · cases h
    · split_ifs at h

/-- A value that asks for a range with a plus sign before a number. -/
def SignedRange (value : Bytes) (length : ℕ) : Prop :=
  43 ∈ value ∧ ∃ first last, RangeSpecification PossiblySigned length value first last

theorem PossiblySigned.unsigned (h : PossiblySigned text n) (hp : 43 ∉ text) : Unsigned text n := by
  rcases h with hn | ⟨digits, rfl, -⟩
  · exact hn
  · exact absurd mem_cons_self hp

theorem RangeSpecification.unsigned
    (h : RangeSpecification PossiblySigned length value first last) (hp : 43 ∉ value) :
    RangeSpecification Unsigned length value first last := by
  cases h with
  | closed hf hl ho hw =>
    simp only [mem_append, not_or] at hp
    exact .closed (hf.unsigned hp.2.1) (hl.unsigned hp.2.2.2) ho hw
  | fromFirst hf hw =>
    simp only [mem_append, not_or] at hp
    exact .fromFirst (hf.unsigned hp.2.1) hw
  | suffix hc hs he =>
    simp only [mem_append, not_or] at hp
    exact .suffix (hc.unsigned hp.2.2.2) hs he

theorem RangeSpecification.possiblySigned
    (h : RangeSpecification Unsigned length value first last) :
    43 ∉ value ∧ RangeSpecification PossiblySigned length value first last := by
  have hn : ∀ {text : Bytes} {n : ℕ}, Unsigned text n → 43 ∉ text := fun h => h.notMem rfl
  cases h with
  | closed hf hl ho hw =>
    refine ⟨?_, .closed (.inl hf) (.inl hl) ho hw⟩
    simp only [mem_append, not_or]
    exact ⟨by decide, hn hf, by decide, hn hl⟩
  | fromFirst hf hw =>
    refine ⟨?_, .fromFirst (.inl hf) hw⟩
    simp only [mem_append, not_or]
    exact ⟨by decide, hn hf, by decide, not_mem_nil⟩
  | suffix hc hp he =>
    refine ⟨?_, .suffix (.inl hc) hp he⟩
    simp only [mem_append, not_or]
    exact ⟨by decide, not_mem_nil, by decide, hn hc⟩

/-- The parser asks for a range exactly for the values of digits, unless there is a plus sign. -/
theorem portion_iff_unsigned :
    ((∃ first last, parseRangeValue value length = .portion first last) ↔
      ∃ first last, RangeSpecification Unsigned length value first last) ↔
      ¬SignedRange value length := by
  simp only [parseRangeValue_eq_portion_iff, SignedRange]
  constructor
  · rintro hi ⟨hp, hs⟩
    obtain ⟨first, last, hu⟩ := hi.1 hs
    exact hu.possiblySigned.1 hp
  · intro hp
    constructor
    · rintro ⟨first, last, hs⟩
      refine ⟨first, last, hs.unsigned fun hm => hp ⟨hm, first, last, hs⟩⟩
    · rintro ⟨first, last, hu⟩
      exact ⟨first, last, hu.possiblySigned.2⟩

end Parser

def chunkAnswers (sha256 : Bytes → Digest) (store : ChunkStore) :
    ChunkedNarReader → List ReadCall → Body
  | _, [] => []
  | reader, call :: calls =>
    match ChunkReader.read sha256 store call reader with
    | .error error => [.failed ⟨.other, error.message⟩]
    | .ok (output, reader) => .bytes output :: chunkAnswers sha256 store reader calls

def manifestIdentity (store : ChunkStore) (hash : Digest) :
    Except ManifestError (Option ChunkManifest) :=
  match store.manifests hash with
  | none => .ok none
  | some file => (ManifestReader.new file maxChunkManifestBytes).map fun reader => some reader.manifest

def openChunkedRange (sha256 : Bytes → Digest) (store : ChunkStore) (hash : Digest)
    (calls : List ReadCall) (start stop : ℕ) : Except ChunkStoreError (Option NarReadBody) :=
  match validateManifest sha256 store hash with
  | .error error => .error (.manifest error)
  | .ok none => .ok none
  | .ok (some _) =>
    (openReaderWithMode store hash start stop maxChunkManifestBytes .verified).map fun reader =>
      some (.chunked (chunkAnswers sha256 store reader calls))

def chunkedLookups (sha256 : Bytes → Digest) (store : ChunkStore) (hash : Digest)
    (calls : List ReadCall) : NarLookups ChunkStoreError :=
  ⟨((manifestIdentity store hash).map fun manifest =>
      manifest.map fun manifest => manifest.identity.size).mapError .manifest,
    openChunkedRange sha256 store hash calls⟩

def flatLookups (file : OpenFile) : NarLookups ChunkStoreError :=
  ⟨.ok (some file.content.length), fun _ _ => .ok (some (.file file))⟩

/-- A NAR is stored in a file that can be read, or in chunks under a manifest that can be opened.
The reads of the chunks go on until nothing comes any more. -/
inductive Stores (nar : Bytes) : NarLookups ChunkStoreError → Prop where
  | flat {reads : List (Acceptance SocketError)} (hoffset : nar.length ≤ i64Max)
      (hreads : ∀ error, .failed error ∉ reads) : Stores nar (flatLookups ⟨nar, .ok (), reads⟩)
  | chunked {sha256 : Bytes → Digest} {store : ChunkStore}
      {chunker : ∀ profile : ChunkProfile, Chunker UInt8 profile.minSize profile.maxSize}
      {profile : ChunkProfile} {calls : List ReadCall}
      (hmanifest : Encodable (manifestOf sha256 chunker profile nar))
      (hfile : store.manifests (sha256 nar) = some (manifestFileOf sha256 chunker profile nar))
      (hstored : Stored sha256 store ((chunker profile).cuts nar))
      (hlimit : (manifestFileOf sha256 chunker profile nar).length ≤ maxChunkManifestBytes)
      (hroom : ∀ call ∈ calls, 0 < call.bufferLength) (hcalls : nar.length < calls.length) :
      Stores nar (chunkedLookups sha256 store (sha256 nar) calls)

section Stored

variable {nar : Bytes}

theorem supplied_chunkAnswers
    (h : Serves sha256 store reader data) (ho : ∀ call ∈ calls, 0 < call.bufferLength)
    (hc : data.length < calls.length) :
    supplied (chunkAnswers sha256 store reader calls) = data ∧
      ends (chunkAnswers sha256 store reader calls) = true := by
  induction calls generalizing reader data with
  | nil =>
    rw [length_nil] at hc
    omega
  | cons call calls ih =>
    obtain ⟨ha, hs⟩ := forall_mem_cons.1 ho
    obtain ⟨output, rest, reader', hr, rfl, -, he, hv⟩ := @read_serves sha256 store call reader _ h
    rw [chunkAnswers, hr]
    cases output with
    | nil =>
      have hi := (he.1 rfl).resolve_right (by omega)
      rw [hi]
      exact ⟨rfl, rfl⟩
    | cons byte output =>
      rw [length_append, length_cons, length_cons] at hc
      obtain ⟨hu, hn⟩ := ih hv hs (by omega)
      refine ⟨?_, hn⟩
      exact congrArg ((byte :: output) ++ ·) hu

variable {linux : Bool} {request : Request} {lookups : NarLookups ChunkStoreError}
variable {range : NarResponseRange} {visibility : ReadVisibility} {body : Bytes} {reply : Reply}

theorem Stores.narSize (h : Stores nar lookups) : lookups.narSize = .ok (some nar.length) := by
  cases h with
  | flat ho he => rfl
  | chunked hm hf hs hl hro hc =>
    obtain ⟨reader, hn, hr, -⟩ := manifestFileOf_opens hm hl
    simp only [chunkedLookups, manifestIdentity, hf, hn, Except.map, Option.map_some, hr,
      Except.mapError]
    rfl

def Supplies (range : NarResponseRange) (visibility : ReadVisibility) (linux : Bool) (body : Bytes) :
    Reply → Prop
  | .reader response => ends response.body = true ∧ supplied response.body = body ∧
      response = narRangeResponse range range.contentLength visibility response.body
  | .file response file offset length => Deliverable linux file offset length ∧
      requested file offset length = body ∧
      response = narRangeResponse range range.contentLength visibility []

theorem Stores.respondNarBytes (h : Stores nar lookups) {start stop : ℕ} (hr : start ≤ stop)
    (hst : stop < nar.length) (visibility : ReadVisibility) (linux : Bool) :
    Supplies (.portion start stop nar.length) visibility linux
      ((nar.drop start).take (stop - start + 1))
      (NarRanges.respondNarBytes visibility lookups (.portion start stop nar.length)) := by
  cases h with
  | @flat reads hof ha =>
    refine ⟨?_, rfl, rfl⟩
    have hl : (requested ⟨nar, .ok (), reads⟩ start (stop - start + 1)).length =
        stop - start + 1 := by
      rw [requested, length_take, length_drop]
      simp only
      omega
    cases linux with
    | true => exact ⟨by simp only [NarResponseRange.byteRange]; omega, hl⟩
    | false =>
      exact ⟨rfl, ends_limitedReads ha, hl⟩
  | @chunked sha256 store chunker profile calls hm hf hso hi hro hca =>
    obtain ⟨manifest, hw, hsa, ht⟩ := manifestFileOf_opens hm hi
    have hva : validateManifest sha256 store (sha256 nar) = .ok (some manifest.manifest) := by
      have hn : manifest.finishRemaining sha256 = .ok () := finishRemaining_ok.2 ⟨_, ht⟩
      simp only [validateManifest, hf, hw, hn, bind, Except.bind]
    obtain ⟨reader, ho, hv⟩ := openReader_serves hm hf hso hi
      (Nat.le_succ_of_le hr) (Nat.succ_le_of_lt hst) .verified
    have hd : ((nar.drop start).take (stop + 1 - start)).length < calls.length := by
      rw [length_take, length_drop]
      omega
    obtain ⟨hs, he⟩ := supplied_chunkAnswers hv hro hd
    have hc : stop + 1 - start = stop - start + 1 := by omega
    rw [hc] at hs
    have hp : NarRanges.respondNarBytes visibility
        (chunkedLookups sha256 store (sha256 nar) calls) (.portion start stop nar.length) =
        .reader (narRangeResponse (.portion start stop nar.length) (stop - start + 1) visibility
          (chunkAnswers sha256 store reader calls)) := by
      simp only [NarRanges.respondNarBytes, chunkedLookups, openChunkedRange, hva,
        NarResponseRange.byteRange, ho, Except.map, NarResponseRange.contentLength]
    rw [hp, Supplies, narRangeResponse_body]
    exact ⟨he, hs, rfl⟩

/-- A reply that sends a body: what it writes is the head and the body, or a beginning of them if
the client stops it, and a client that accepts everything gets all. -/
def Sends (linux : Bool) (request : Request) (body : Bytes) (reply : Reply) : Prop :=
  ∀ answers faults,
    (reply.send linux request ⟨[], answers⟩ faults).Meets
      (fun _ sink => sink.written =
        responseHead reply.response request.responseConnectionDisposition ++ body)
      (fun _ sink => sink.written <+:
          responseHead reply.response request.responseConnectionDisposition ++ body ∧
        ¬∀ answer ∈ answers, answer.proceeds)
      fun _ => False

theorem sends_reader (hm : request.head.method ≠ .head)
    (he : ends response.body = true) :
    Sends linux request (supplied response.body) (.reader response) := by
  intro answers faults
  have hs : Triple (Wrote (∀ answer ∈ answers, answer.proceeds) [])
      (HttpResponses.respond request response) _ _ fun _ => False := respond_spec
  refine (hs.consequence (fun _ => id) ?_ ?_ fun _ => id) ⟨[], answers⟩ faults ⟨rfl, id⟩
  · rintro result sink ⟨-, -, hw⟩
    rw [sentBody, if_neg hm] at hw
    exact hw
  · rintro failure sink ⟨hf, hb⟩
    refine ⟨hb.isPrefix, fun ha => ?_⟩
    rw [(hf ha).2] at he
    cases he

theorem sends_file {offset length : ℕ}
    (hm : request.head.method ≠ .head) (hd : Deliverable linux file offset length) :
    Sends linux request (requested file offset length) (.file response file offset length) := by
  intro answers faults
  have hs : Triple (Wrote (∀ answer ∈ answers, answer.proceeds) [])
      (respondFile linux request response file offset length) _ _ fun _ => False :=
    respondFile_spec linux file offset length
  refine (hs.consequence (fun _ => id) ?_ ?_ fun _ => id) ⟨[], answers⟩ faults ⟨rfl, id⟩
  · rintro result sink ⟨-, -, hw⟩
    rw [sentBody, if_neg hm] at hw
    exact hw
  · rintro failure sink ⟨hf, hb⟩
    exact ⟨hb.isPrefix, fun ha => (hf ha).2 hd⟩

theorem Supplies.sends (hm : request.head.method ≠ .head)
    (h : Supplies range visibility linux body reply) : Sends linux request body reply := by
  cases reply with
  | reader response =>
    obtain ⟨he, rfl, -⟩ := h
    exact sends_reader hm he
  | file response file offset length =>
    obtain ⟨hd, rfl, -⟩ := h
    exact sends_file hm hd

theorem Supplies.response (h : Supplies range visibility linux body reply) :
    ∃ reader, reply.response = narRangeResponse range range.contentLength visibility reader := by
  cases reply with
  | reader | file => exact ⟨_, h.2.2⟩

end Stored

def contentRanges (response : Response Body) : List Bytes :=
  response.headers.filterMap fun header =>
    if header.name = contentRangeName then some header.value else none

section Replies

variable {request : Request} {value nar : Bytes} {lookups : NarLookups ChunkStoreError}

theorem requestedRange_get (length : ℕ) (hg : request.head.method = .get)
    (hr : (request.head.headers.filter (named "Range")).map RequestHeader.value = [value]) :
    requestedRange request length = parseRangeValue value length := by
  obtain ⟨header, hh, hv⟩ := map_eq_singleton_iff.1 hr
  rw [requestedRange, if_neg (not_not.2 hg), hh, ← hv]

theorem respondNar_portion (visibility : ReadVisibility) (hs : Stores nar lookups)
    (hp : requestedRange request nar.length = .portion first last) :
    respondNar request visibility lookups =
      NarRanges.respondNarBytes visibility lookups (.portion first last nar.length) := by
  simp only [respondNar, hs.narSize, hp]

theorem respondNar_refused (visibility : ReadVisibility) (hg : request.head.method = .get)
    (hr : (request.head.headers.filter (named "Range")).map RequestHeader.value = [value])
    (hs : Stores nar lookups)
    (hn : ¬∃ first last, parseRangeValue value nar.length = .portion first last) :
    ∃ response, respondNar request visibility lookups = .reader response ∧
      (response.status = 416 ∨ response.status = 400) ∧ response.contentLength = 0 ∧
      response.body = [] := by
  have hp := requestedRange_get nar.length hg hr
  cases hv : parseRangeValue value nar.length with
  | full => exact absurd hv parseRangeValue_ne_full
  | portion first last => exact absurd ⟨first, last, hv⟩ hn
  | unsatisfiable =>
    refine ⟨_, by simp only [respondNar, hs.narSize, hp, hv]; rfl, .inl rfl, rfl, rfl⟩
  | invalid =>
    refine ⟨_, by simp only [respondNar, hs.narSize, hp, hv]; rfl, .inr rfl, rfl, rfl⟩

/-- The answer is 206 exactly for the values made of digits that select a byte, unless a number has
a plus sign. A 206 response announces and sends exactly the selected bytes, and every other answer
is a refusal without any of them. -/
theorem range_responses_exact_iff_unsigned (hget : request.head.method = .get)
    (hrange : (request.head.headers.filter (named "Range")).map RequestHeader.value = [value])
    (hstored : Stores nar lookups) (visibility : ReadVisibility) (linux : Bool) :
    (((respondNar request visibility lookups).response.status = 206 ↔
        ∃ first last, RangeSpecification Unsigned nar.length value first last) ↔
      ¬SignedRange value nar.length) ∧
    ((respondNar request visibility lookups).response.status = 206 →
      ∃ first last, first ≤ last ∧ last < nar.length ∧
        RangeSpecification PossiblySigned nar.length value first last ∧
        contentRanges (respondNar request visibility lookups).response =
          [contentRangeValue first last nar.length] ∧
        (respondNar request visibility lookups).response.contentLength = last - first + 1 ∧
        Sends linux request ((nar.drop first).take (last - first + 1))
          (respondNar request visibility lookups)) ∧
    ((respondNar request visibility lookups).response.status ≠ 206 →
      ((respondNar request visibility lookups).response.status = 416 ∨
        (respondNar request visibility lookups).response.status = 400) ∧
      Sends linux request [] (respondNar request visibility lookups)) := by
  have hm : request.head.method ≠ .head := by
    rw [hget]
    exact Method.noConfusion
  by_cases ho : ∃ first last, parseRangeValue value nar.length = .portion first last
  · obtain ⟨first, last, hp⟩ := ho
    have hc := parseRangeValue_eq_portion_iff.1 hp
    obtain ⟨hd, hw⟩ := hc.selects
    have hr := respondNar_portion visibility hstored
      ((requestedRange_get nar.length hget hrange).trans hp)
    have hu := hstored.respondNarBytes hd hw visibility linux
    obtain ⟨reader, he⟩ := hu.response
    have hs : (respondNar request visibility lookups).response.status = 206 := by
      rw [hr, he, narRangeResponse_portion_status]
    refine ⟨?_, fun _ => ⟨first, last, hd, hw, hc, ?_, ?_, ?_⟩, ?_⟩
    · have ht : (respondNar request visibility lookups).response.status = 206 ↔
          ∃ first last, parseRangeValue value nar.length = .portion first last :=
        iff_of_true hs ⟨first, last, hp⟩
      rw [ht]
      exact portion_iff_unsigned
    · rw [hr, he, contentRanges, narRangeResponse_contentRange]
    · rw [hr, he, narRangeResponse_contentLength]
      rfl
    · rw [hr]
      exact hu.sends hm
    · exact fun hh => absurd hs hh
  · obtain ⟨response, hr, hs, -, hb⟩ :=
      respondNar_refused visibility hget hrange hstored ho
    have hn : (respondNar request visibility lookups).response.status ≠ 206 := by
      rw [hr]
      intro heq
      have ha : response.status = 206 := heq
      omega
    refine ⟨?_, fun heq => absurd heq hn, fun _ => ⟨?_, ?_⟩⟩
    · have hi : (respondNar request visibility lookups).response.status = 206 ↔
          ∃ first last, parseRangeValue value nar.length = .portion first last :=
        iff_of_false hn ho
      rw [hi]
      exact portion_iff_unsigned
    · rw [hr]
      exact hs
    · have hse : Sends linux request (supplied response.body) (.reader response) :=
        sends_reader hm (by rw [hb]; rfl)
      rw [hb] at hse
      rw [hr]
      exact hse

end Replies

def rangeGet (value : String) : Request :=
  { keptGet with
    head := { keptGet.head with headers := [⟨ascii "range".toList, ascii value.toList⟩] } }

def tenBytes : Bytes := [0, 1, 2, 3, 4, 5, 6, 7, 8, 9]

def tenBytesFile : NarLookups ChunkStoreError := flatLookups ⟨tenBytes, .ok (), []⟩

theorem tenBytes_suffix : ∃ first last, first ≤ last ∧ last < tenBytes.length ∧
    contentRanges (respondNar (rangeGet "bytes=-3") .isPublic tenBytesFile).response =
      [contentRangeValue first last tenBytes.length] ∧
    Sends true (rangeGet "bytes=-3") ((tenBytes.drop first).take (last - first + 1))
      (respondNar (rangeGet "bytes=-3") .isPublic tenBytesFile) := by
  have hg : (rangeGet "bytes=-3").head.method = .get := rfl
  have hr : ((rangeGet "bytes=-3").head.headers.filter (named "Range")).map RequestHeader.value =
      [ascii "bytes=-3".toList] := by decide
  have ht : Stores tenBytes tenBytesFile := .flat (by decide) fun _ => not_mem_nil
  obtain ⟨first, last, ho, hw, -, ha, -, hs⟩ :=
    (range_responses_exact_iff_unsigned hg hr ht .isPublic true).2.1 (by decide)
  exact ⟨first, last, ho, hw, ha, hs⟩

theorem tenBytes_plus_sign :
    (respondNar (rangeGet "bytes=+5-7") .isPublic tenBytesFile).response.status = 206 ∧
      ¬∃ first last, RangeSpecification Unsigned tenBytes.length (ascii "bytes=+5-7".toList)
        first last := by
  refine ⟨by decide, ?_⟩
  rintro ⟨first, last, hu⟩
  exact hu.possiblySigned.1 (by decide)

end RangeResponses
