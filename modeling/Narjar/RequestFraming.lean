import Narjar.HttpRequests
import Narjar.LabelledRuns

/-!
# The framing of requests

The search for the end of the head goes on where the last one stopped, three bytes earlier. It
finds the first delimiter of everything the client sends, however the bytes arrive. From there on
the position in the stream is followed through the buffered part of the body and the reads of the
handler.
-/
namespace RequestFraming

open ByteCodecs NarFormat TextFields ByteStreams HttpRequests List

section Head

variable {received data : Bytes} {scannedUntil : ℕ} {stream : Connection}

/-- Nothing that ends within the scanned bytes is a delimiter. -/
def Scanned (received : Bytes) (scannedUntil : ℕ) : Prop :=
  ∀ front back, received = front ++ (headerDelimiter ++ back) → scannedUntil < front.length + 4

theorem splitOnce_scanned (h : Scanned received scannedUntil) :
    splitOnce headerDelimiter received =
      (splitOnce headerDelimiter (received.drop (scannedUntil - 3))).map fun p =>
        (received.take (scannedUntil - 3) ++ p.1, p.2) := by
  apply splitOnce_drop
  intro front back hr
  have hl := h front back hr
  omega

theorem Scanned.extend (h : splitOnce headerDelimiter received = none) (bytes : Bytes) :
    Scanned (received ++ bytes) received.length := by
  intro front back heq
  by_contra he
  have ht := congrArg (List.take received.length) heq
  rw [take_left, take_append, take_append, take_of_length_le (by omega),
    take_of_length_le (by simp only [headerDelimiter, length_cons, length_nil]; omega)] at ht
  exact splitOnce_eq_none h _ _ ht

/-- What reading a head comes to when `data` is everything the client sends. -/
def HeadRead (data : Bytes) (delivering : Prop) :
    Except SocketError BufferedHead × Connection → Prop
  | (.ok buffered, stream) => ∃ front back,
      splitOnce headerDelimiter buffered.bytes = some (front, back) ∧
        buffered.boundary = front.length + 4 ∧ buffered.bytes.length ≤ maxHeaderBytes ∧
        data = buffered.bytes ++ stream.data ∧
        (delivering → ∀ answer ∈ stream.answers, answer.delivers)
  | (.error _, _) => delivering →
      splitOnce headerDelimiter (data.take maxHeaderBytes) = none

theorem readHeadWith_spec {delivering : Prop} (hc : Scanned received scannedUntil)
    (hsc : scannedUntil ≤ received.length) (hl : received.length ≤ maxHeaderBytes)
    (hu : maxHeaderBytes - received.length < rounds)
    (hd : delivering → ∀ answer ∈ stream.answers, answer.delivers) :
    HeadRead (received ++ stream.data) delivering
      (readHeadWith rounds received scannedUntil stream) := by
  induction rounds generalizing received scannedUntil stream with
  | zero => omega
  | succ rounds ih =>
    have hs := splitOnce_scanned hc
    rw [readHeadWith]
    cases ho : splitOnce headerDelimiter (received.drop (scannedUntil - 3)) with
    | some found =>
      obtain ⟨front, back⟩ := found
      rw [ho, Option.map_some] at hs
      refine ⟨_, _, hs, ?_, hl, rfl, hd⟩
      have ht : (received.take (scannedUntil - 3)).length = scannedUntil - 3 :=
        length_take_of_le (by omega)
      simp only [length_append, ht]
    | none =>
      rw [ho, Option.map_none] at hs
      have hn : ∀ more, received.length = maxHeaderBytes ∨ more = [] →
          splitOnce headerDelimiter ((received ++ more).take maxHeaderBytes) = none := by
        intro more hm
        have ht : (received ++ more).take maxHeaderBytes = received := by
          rcases hm with hf | rfl
          · rw [← hf, take_left]
          · rw [append_nil, take_of_length_le hl]
        rw [ht, hs]
      by_cases hf : received.length = maxHeaderBytes
      · simp only [hf, if_true]
        exact fun _ => hn _ (.inl hf)
      simp only [hf, if_false]
      have hp := read_step (maxHeaderBytes - received.length) stream
      generalize read (maxHeaderBytes - received.length) stream = answered at hp ⊢
      cases hp with
      | interrupted ha =>
        intro hy
        have hi := hd hy .interrupted (ha ▸ mem_cons_self)
        cases hi
      | @failed error answers ha =>
        intro hy
        have hi := hd hy (.failed error) (ha ▸ mem_cons_self)
        cases hi
      | @bytes bytes rest hda hro hen =>
        cases bytes with
        | nil =>
          have he : stream.data = [] := (hen rfl).resolve_right (by omega)
          simp only
          split_ifs with hr
          · exact fun _ => hn _ (.inr he)
          · exact fun _ => hn _ (.inr he)
        | cons byte bytes =>
          have hm := @ih (received ++ byte :: bytes) received.length
            ⟨rest, stream.answers.tail⟩ (.extend hs _) (by simp) ?_ ?_ ?_
          · rw [append_assoc, ← hda] at hm
            exact hm
          · rw [length_append]
            omega
          · rw [length_append, length_cons]
            omega
          · exact fun hy answer hw => hd hy answer (mem_of_mem_tail hw)

theorem readHead_spec (stream : Connection) :
    HeadRead stream.data (∀ answer ∈ stream.answers, answer.delivers) (readHead stream) := by
  have hs : Scanned [] 0 := by
    intro front back hn
    have hl := congrArg List.length hn
    simp [headerDelimiter] at hl
  exact readHeadWith_spec hs le_rfl (Nat.zero_le _) (by simp) id

end Head

/-- The parser's result for a complete head depends only on the bytes of the head. -/
def HeadOnly (httparse : Bytes → HttparseStatus) : Prop :=
  ∀ bytes bytes' stop head, httparse bytes = .complete stop head →
    bytes'.take stop = bytes.take stop → httparse bytes' = .complete stop head

section Parsing

variable {httparse : Bytes → HttparseStatus} {data : Bytes}
  {answers answers' : List (Acceptance SocketError)} {request request' : Request}

theorem parseHead_complete {buffered head}
    (h : parseHead httparse buffered = .ok head) :
    ∃ parsed, httparse buffered.bytes = .complete buffered.boundary parsed := by
  unfold parseHead at h
  split at h
  · cases h
  · cases h
  · rename_i stop method target version headers hp
    by_cases hs : stop = buffered.boundary
    · exact ⟨_, hs ▸ hp⟩
    · rw [if_pos hs] at h
      cases h
  · rename_i stop parsed _ hp
    split_ifs at h

theorem parseHead_headOnly (hl : HeadOnly httparse) {bytes bytes' : Bytes} {boundary : ℕ}
    {head} (h : parseHead httparse ⟨bytes, boundary⟩ = .ok head)
    (hb : bytes'.take boundary = bytes.take boundary) :
    parseHead httparse ⟨bytes', boundary⟩ = .ok head := by
  obtain ⟨parsed, hp⟩ := parseHead_complete h
  have hp' := hl _ _ _ _ hp hb
  simp only [parseHead, hp, hp'] at h ⊢
  exact h

/-- A request as it was read: how its parts lie in what the client sends. -/
structure Accepted (httparse : Bytes → HttparseStatus) (data : Bytes)
    (answers : List (Acceptance SocketError)) (request : Request) : Prop where
  boundary : ∃ front back, splitOnce headerDelimiter data = some (front, back) ∧
    request.boundary = front.length + 4
  within : request.boundary ≤ request.buffer.length
  limit : request.buffer.length ≤ maxHeaderBytes
  whole : data = request.buffer ++ request.stream.data
  parsed : parseHead httparse ⟨request.buffer, request.boundary⟩ = .ok request.head
  opened : request.bodyState = if request.head.bodyLength.isSome then .unread else .complete
  delivering : (∀ answer ∈ answers, answer.delivers) →
    ∀ answer ∈ request.stream.answers, answer.delivers

theorem readRequest_spec (h : readRequest httparse ⟨data, answers⟩ = .ok request) :
    Accepted httparse data answers request := by
  have hr := readHead_spec ⟨data, answers⟩
  unfold readRequest at h
  generalize readHead ⟨data, answers⟩ = answered at hr h
  obtain ⟨result, stream⟩ := answered
  cases result with
  | error error => cases h
  | ok buffered =>
    obtain ⟨front, back, hs, hb, hi, hw, he⟩ := hr
    cases hp : parseHead httparse buffered with
    | error error =>
      simp only [hp] at h
      cases h
    | ok head =>
      simp only [hp] at h
      cases h
      have hl := congrArg List.length (splitOnce_eq_some hs)
      simp only [headerDelimiter, length_append, length_cons, length_nil] at hl
      have hd : data = buffered.bytes ++ stream.data := hw
      refine ⟨⟨front, back ++ stream.data, ?_, hb⟩, ?_, hi, hd, hp, rfl, he⟩
      · rw [hd]
        exact splitOnce_more hs _
      · simp only [hb]
        omega

theorem Accepted.take_boundary (h : Accepted httparse data answers request) :
    request.buffer.take request.boundary = data.take request.boundary := by
  rw [h.whole, take_append_of_le_length h.within]

theorem Accepted.boundary_eq (h : Accepted httparse data answers request)
    (h' : Accepted httparse data answers' request') : request'.boundary = request.boundary := by
  obtain ⟨front, back, hs, hb⟩ := h.boundary
  obtain ⟨front', back', hs', hb'⟩ := h'.boundary
  rw [hs] at hs'
  cases hs'
  rw [hb, hb']

theorem head_eq (hl : HeadOnly httparse) (h : Accepted httparse data answers request)
    (h' : Accepted httparse data answers' request') : request'.head = request.head := by
  have hb := h.boundary_eq h'
  have ht := h'.take_boundary
  rw [hb, ← h.take_boundary] at ht
  have hp := parseHead_headOnly hl h.parsed ht
  rw [← hb, h'.parsed] at hp
  exact Except.ok.inj hp

theorem readRequest_delivering (ho : HeadOnly httparse)
    (h : Accepted httparse data answers request)
    (he : ∀ answer ∈ answers', answer.delivers) :
    ∃ request', readRequest httparse ⟨data, answers'⟩ = .ok request' := by
  have hr := readHead_spec ⟨data, answers'⟩
  unfold readRequest
  generalize readHead ⟨data, answers'⟩ = answered at hr ⊢
  obtain ⟨result, stream⟩ := answered
  obtain ⟨front, back, hs, hb⟩ := h.boundary
  cases result with
  | error error =>
    -- the delimiter lies within the limit, so it cannot be missed
    exfalso
    have hd := splitOnce_eq_some hs
    have hh : front.length + 4 ≤ maxHeaderBytes := by
      have hwi := h.within
      have hi := h.limit
      omega
    have ht : data.take maxHeaderBytes =
        front ++ (headerDelimiter ++ back.take (maxHeaderBytes - front.length - 4)) := by
      rw [hd, take_append, take_append, take_of_length_le (by omega),
        take_of_length_le (by simp only [headerDelimiter, length_cons, length_nil]; omega)]
      rfl
    exact splitOnce_eq_none (hr he) _ _ ht
  | ok buffered =>
    obtain ⟨front', back', hs', hb', -, hw, -⟩ := hr
    have hd : data = buffered.bytes ++ stream.data := hw
    have hm := splitOnce_more hs' stream.data
    rw [← hd, hs] at hm
    cases hm
    have heq : buffered.boundary = request.boundary := hb'.trans hb.symm
    have hl := congrArg List.length (splitOnce_eq_some hs')
    simp only [headerDelimiter, length_append, length_cons, length_nil] at hl
    have ht : buffered.bytes.take request.boundary = request.buffer.take request.boundary := by
      rw [h.take_boundary, hd, take_append_of_le_length (by omega)]
    have hp := parseHead_headOnly ho h.parsed ht
    rw [← heq] at hp
    exact ⟨_, by simp only [hp]; rfl⟩

end Parsing

def handedOut (answers : List (Answer UInt8 SocketError)) : Bytes :=
  answers.flatMap fun
    | .bytes bytes => bytes
    | .interrupted => []
    | .failed _ => []

section Body

variable {declared : ℕ}

/-- The position of a reader when `body` is everything after the head: what it has delivered, and
what is left in the buffer and in the stream. -/
structure ReaderAt (body : Bytes) (declared : ℕ) (delivered : Bytes) (reader : BodyReader) :
    Prop where
  count : delivered.length + reader.remaining = declared
  whole : body = delivered ++ (reader.buffered.drop reader.offset ++ reader.stream.data)
  offset : reader.offset = min delivered.length reader.buffered.length
  complete : reader.state = .complete ↔ reader.remaining = 0
  opened : reader.state ≠ .unread

/-- What a read can do to a reader. -/
inductive BodyStep (reader : BodyReader) (capacity : ℕ) :
    Answer UInt8 SocketError × BodyReader → Prop where
  | nothing (h : reader.remaining = 0 ∨ capacity = 0) : BodyStep reader capacity (.bytes [], reader)
  | buffered {bytes rest : Bytes} {state : BodyState} (hremaining : reader.remaining ≠ 0)
      (hbytes : bytes ≠ []) (hsplit : reader.buffered.drop reader.offset = bytes ++ rest)
      (hroom : bytes.length ≤ reader.remaining)
      (hstate : state = if reader.remaining - bytes.length = 0 then .complete else reader.state) :
      BodyStep reader capacity (.bytes bytes, { reader with
        offset := reader.offset + bytes.length
        remaining := reader.remaining - bytes.length
        state := state })
  | received {bytes rest : Bytes} {state : BodyState} (hremaining : reader.remaining ≠ 0)
      (hbuffered : reader.buffered.drop reader.offset = [])
      (hdata : reader.stream.data = bytes ++ rest) (hroom : bytes.length ≤ reader.remaining)
      (hend : bytes = [] → rest = [])
      (hstate : state = if reader.remaining - bytes.length = 0 then .complete
        else if bytes = [] then .failed else reader.state) :
      BodyStep reader capacity (.bytes bytes, { reader with
        stream := ⟨rest, reader.stream.answers.tail⟩
        remaining := reader.remaining - bytes.length
        state := state })
  | interrupted {answers : List (Acceptance SocketError)} (hremaining : reader.remaining ≠ 0)
      (hanswers : reader.stream.answers = .interrupted :: answers) :
      BodyStep reader capacity (.interrupted, { reader with
        stream := ⟨reader.stream.data, answers⟩
        state := .failed })
  | failed {error : SocketError} {answers : List (Acceptance SocketError)}
      (hremaining : reader.remaining ≠ 0)
      (hanswers : reader.stream.answers = .failed error :: answers) :
      BodyStep reader capacity (.failed error, { reader with
        stream := ⟨reader.stream.data, answers⟩
        state := .failed })

theorem read_bodyStep (reader : BodyReader) (capacity : ℕ) :
    BodyStep reader capacity (reader.read capacity) := by
  unfold BodyReader.read
  by_cases hn : reader.remaining = 0 ∨ capacity = 0
  · rw [if_pos hn]
    exact .nothing hn
  obtain ⟨hr, hp⟩ := not_or.1 hn
  rw [if_neg hn]
  by_cases hv : reader.buffered.length - reader.offset = 0
  · have hb : reader.buffered.drop reader.offset = [] := drop_eq_nil_of_le (by omega)
    simp only [hv, ne_eq, not_true_eq_false, if_false]
    have hs := read_step (min capacity reader.remaining) reader.stream
    generalize ByteStreams.read (min capacity reader.remaining) reader.stream = answered at hs ⊢
    cases hs with
    | bytes hd ho hen =>
      refine .received hr hb hd (by omega) ?_ rfl
      intro hi
      have he := (hen hi).resolve_right (by omega)
      rw [he] at hd
      exact (append_eq_nil_iff.1 hd.symm).2
    | interrupted ha => exact .interrupted hr ha
    | failed ha => exact .failed hr ha
  · simp only [hv, ne_eq, not_false_eq_true, if_true]
    have hc : ∃ count, min (min (reader.buffered.length - reader.offset) capacity)
        reader.remaining = count := ⟨_, rfl⟩
    obtain ⟨count, hc⟩ := hc
    have hl : ((reader.buffered.drop reader.offset).take count).length = count := by
      rw [length_take, length_drop]
      omega
    have hs : BodyStep reader capacity (.bytes ((reader.buffered.drop reader.offset).take count),
        { reader with
          offset := reader.offset + ((reader.buffered.drop reader.offset).take count).length
          remaining := reader.remaining - ((reader.buffered.drop reader.offset).take count).length
          state := if reader.remaining -
            ((reader.buffered.drop reader.offset).take count).length = 0 then .complete
            else reader.state }) := by
      refine .buffered hr ?_ (take_append_drop count _).symm (by omega) rfl
      rw [← length_pos_iff, hl]
      omega
    rw [hl] at hs
    rw [hc]
    exact hs

section

variable (h : ReaderAt body declared delivered reader)
include h

theorem ReaderAt.step (capacity : ℕ) :
    ReaderAt body declared (delivered ++ handedOut [(reader.read capacity).1])
      (reader.read capacity).2 := by
  have ht := read_bodyStep reader capacity
  generalize reader.read capacity = answered at ht ⊢
  have ho := h.count
  have hf := h.offset
  cases ht with
  | nothing hh =>
    rw [handedOut, flatMap_singleton, append_nil]
    exact h
  | @buffered bytes rest state hr hy hp hm hs =>
    have hl := congrArg List.length hp
    have hi := length_pos_iff.2 hy
    rw [length_drop, length_append] at hl
    rw [handedOut, flatMap_singleton]
    refine ⟨?_, ?_, ?_, ?_, ?_⟩
    · rw [length_append]
      simp only
      omega
    · have hdr : reader.buffered.drop (reader.offset + bytes.length) = rest := by
        rw [← drop_drop, hp, drop_left]
      simp only [hdr]
      rw [h.whole, hp, append_assoc, append_assoc]
    · rw [length_append]
      simp only
      omega
    · simp only [hs]
      split_ifs with he
      · exact ⟨fun _ => he, fun _ => rfl⟩
      · exact ⟨fun hc => absurd (h.complete.1 hc) hr, fun hz => absurd hz he⟩
    · simp only [hs]
      split_ifs with he
      · exact BodyState.noConfusion
      · exact h.opened
  | @received bytes rest state hr hb hd hm hen hs =>
    have hl := congrArg List.length hb
    rw [length_drop, length_nil] at hl
    rw [handedOut, flatMap_singleton]
    refine ⟨?_, ?_, ?_, ?_, ?_⟩
    · rw [length_append]
      simp only
      omega
    · rw [h.whole]
      simp only [hb, hd, nil_append, append_assoc]
    · rw [length_append]
      simp only
      omega
    · simp only [hs]
      split_ifs with he hn
      · exact ⟨fun _ => he, fun _ => rfl⟩
      · exact ⟨False.elim, fun hz => absurd hz he⟩
      · exact ⟨fun hc => absurd (h.complete.1 hc) hr, fun hz => absurd hz he⟩
    · simp only [hs]
      split_ifs with he hn
      · exact BodyState.noConfusion
      · exact BodyState.noConfusion
      · exact h.opened
  | interrupted hr ha | failed hr ha =>
    rw [handedOut, flatMap_singleton, append_nil]
    exact ⟨ho, h.whole, hf, ⟨BodyState.noConfusion, fun hz => absurd hz hr⟩, BodyState.noConfusion⟩

theorem ReaderAt.reads (capacities : List ℕ) :
    ReaderAt body declared (delivered ++ handedOut (reader.reads capacities).1)
      (reader.reads capacities).2 := by
  induction capacities generalizing delivered reader with
  | nil =>
    rw [BodyReader.reads, handedOut, flatMap_nil, append_nil]
    exact h
  | cons capacity capacities ih =>
    have hl := ih (h.step capacity)
    rw [append_assoc, handedOut, handedOut, ← flatMap_append] at hl
    exact hl

theorem ReaderAt.read_delivering
    (hse : declared ≤ body.length) (hd : ∀ answer ∈ reader.stream.answers, answer.delivers)
    (capacity : ℕ) :
    (reader.read capacity).2.remaining ≤ reader.remaining - (if 0 < capacity then 1 else 0) ∧
      ∀ answer ∈ (reader.read capacity).2.stream.answers, answer.delivers := by
  have hs := read_bodyStep reader capacity
  generalize reader.read capacity = answered at hs ⊢
  cases hs with
  | nothing ho =>
    refine ⟨?_, hd⟩
    rcases ho with hr | hc
    · simp only
      omega
    · rw [if_neg (by omega)]
      exact le_rfl
  | buffered hr hb hi hm hst =>
    have hp := length_pos_iff.2 hb
    refine ⟨?_, hd⟩
    simp only
    split_ifs <;> omega
  | @received bytes rest state hr hu ht hm he hst =>
    refine ⟨?_, fun answer hw => hd answer (mem_of_mem_tail hw)⟩
    have hb : 0 < bytes.length := by
      apply length_pos_iff.2
      intro hn
      -- the body would end here, before the declared length
      have hl := congrArg List.length h.whole
      rw [hu, ht, hn, he hn, append_nil, append_nil, append_nil]
        at hl
      have hco := h.count
      omega
    simp only
    split_ifs <;> omega
  | interrupted hr ha =>
    have hf := hd .interrupted (ha ▸ mem_cons_self)
    cases hf
  | @failed error answers hr ha =>
    have hf := hd (.failed error) (ha ▸ mem_cons_self)
    cases hf

theorem ReaderAt.reads_delivering
    (hs : declared ≤ body.length) (hd : ∀ answer ∈ reader.stream.answers, answer.delivers) (he : reader.remaining ≤ (capacities.filter (0 < ·)).length) :
    (reader.reads capacities).2.remaining = 0 := by
  induction capacities generalizing delivered reader with
  | nil =>
    rw [filter_nil, length_nil] at he
    exact Nat.le_zero.1 he
  | cons capacity capacities ih =>
    obtain ⟨hl, hr⟩ := h.read_delivering hs hd capacity
    refine ih (h.step capacity) hr ?_
    rw [filter_cons] at he
    by_cases hc : 0 < capacity
    · rw [if_pos hc] at hl
      rw [if_pos (decide_eq_true hc), length_cons] at he
      omega
    · rw [if_neg hc] at hl
      rw [if_neg (by simpa using hc)] at he
      omega

end

end Body

section Handler

variable {request : Request}

/-- The position of a request between the steps of its handler. -/
structure RequestAt (body : Bytes) (outputs : Bytes) (request : Request) : Prop where
  handed : outputs <+: body.take request.declared
  idle : request.bodyState ≠ .reading
  unread : request.bodyState = .unread →
    outputs = [] ∧ body = request.bodyPrefix ++ request.stream.data
  complete : request.bodyState = .complete → request.bodyPrefix.length ≤ request.declared →
    ∃ taken, body = taken ++ request.stream.data ∧ taken.length = request.declared

theorem RequestAt.reader {reader} (h : RequestAt body outputs request)
    (hr : request.asReader = some reader) :
    outputs = [] ∧ reader.buffered = request.bodyPrefix ∧ reader.remaining = request.declared ∧
      reader.stream = request.stream ∧ ReaderAt body request.declared [] reader := by
  unfold Request.asReader at hr
  split_ifs at hr with hp he
  · cases hr
    obtain ⟨ho, hb⟩ := h.unread (not_not.1 hp)
    refine ⟨ho, rfl, rfl, rfl, Nat.zero_add _, ?_, (Nat.zero_min _).symm,
      ⟨fun _ => he, fun _ => rfl⟩, BodyState.noConfusion⟩
    exact hb
  · cases hr
    obtain ⟨ho, hb⟩ := h.unread (not_not.1 hp)
    refine ⟨ho, rfl, rfl, rfl, Nat.zero_add _, ?_, (Nat.zero_min _).symm,
      ⟨BodyState.noConfusion, fun hz => absurd hz he⟩, BodyState.noConfusion⟩
    exact hb

theorem reads_buffered (capacities : List ℕ) (reader : BodyReader) :
    (reader.reads capacities).2.buffered = reader.buffered := by
  induction capacities generalizing reader with
  | nil => rfl
  | cons capacity capacities ih =>
    have hs := read_bodyStep reader capacity
    have hb : (reader.read capacity).2.buffered = reader.buffered := by
      generalize reader.read capacity = answered at hs ⊢
      cases hs <;> rfl
    exact (ih _).trans hb

theorem ReaderAt.handed
    (h : ReaderAt body declared delivered reader) : delivered <+: body.take declared := by
  have hc := h.count
  apply prefix_take_iff.2
  rw [h.whole]
  exact ⟨prefix_append _ _, by omega⟩

theorem ReaderAt.taken
    (h : ReaderAt body declared delivered reader) (hr : reader.remaining = 0)
    (hb : reader.buffered.length ≤ declared) :
    body = delivered ++ reader.stream.data ∧ delivered.length = declared := by
  have hc := h.count
  have ho := h.offset
  have hd : reader.buffered.drop reader.offset = [] := drop_eq_nil_of_le (by omega)
  refine ⟨?_, by omega⟩
  have hw := h.whole
  rw [hd, nil_append] at hw
  exact hw

theorem RequestAt.readBody {reader} (h : RequestAt body outputs request)
    (he : request.asReader = some reader) (capacities : List ℕ) :
    RequestAt body (handedOut (reader.reads capacities).1)
      (request.dropReader (reader.reads capacities).2) := by
  obtain ⟨-, hf, -, -, hat⟩ := h.reader he
  have ha := hat.reads capacities
  have hs := reads_buffered capacities reader
  rw [nil_append] at ha
  generalize reader.reads capacities = answered at ha hs ⊢
  refine ⟨ha.handed, ?_, ?_, ?_⟩
  · unfold Request.dropReader
    simp only
    split_ifs with hr
    · exact BodyState.noConfusion
    · exact hr
  · unfold Request.dropReader
    simp only
    intro hu
    split_ifs at hu with hr
    exact absurd hu ha.opened
  · unfold Request.dropReader
    simp only
    intro hc hl
    split_ifs at hc with hr
    have hm := ha.complete.1 hc
    have ho : answered.2.buffered.length ≤ request.declared := by
      rw [hs, hf]
      exact hl
    obtain ⟨hb, ht⟩ := ha.taken hm ho
    exact ⟨_, hb, ht⟩

theorem acknowledgeBody_request (request : Request) :
    request.acknowledgeBody.2 = { request with expectation := .none } := by
  unfold Request.acknowledgeBody
  cases request.expectation with
  | none => rfl
  | proceed =>
    simp only
    split_ifs <;> rfl
  | unsupported => rfl

theorem RequestAt.step (h : RequestAt body outputs request) (step : HandlerStep) :
    RequestAt body (outputs ++ handedOut (request.step step).1) (request.step step).2 := by
  cases step with
  | acknowledgeBody =>
    rw [Request.step, acknowledgeBody_request, handedOut, flatMap_nil, append_nil]
    exact ⟨h.handed, h.idle, h.unread, h.complete⟩
  | closeAfterResponse =>
    rw [Request.step, handedOut, flatMap_nil, append_nil]
    exact ⟨h.handed, h.idle, h.unread, h.complete⟩
  | readBody capacities =>
    rw [Request.step]
    cases hr : request.asReader with
    | none =>
      rw [handedOut, flatMap_nil, append_nil]
      exact h
    | some reader =>
      rw [(h.reader hr).1, nil_append]
      exact h.readBody hr capacities

theorem RequestAt.run (h : RequestAt body outputs request) (steps : List HandlerStep) :
    RequestAt body (outputs ++ handedOut (request.run steps).1) (request.run steps).2 := by
  induction steps generalizing outputs request with
  | nil =>
    rw [Request.run, handedOut, flatMap_nil, append_nil]
    exact h
  | cons step steps ih =>
    have hl := ih (h.step step)
    rw [append_assoc, handedOut, handedOut, ← flatMap_append] at hl
    exact hl

theorem step_frame (request : Request) (step : HandlerStep) :
    (request.step step).2.buffer = request.buffer ∧
      (request.step step).2.boundary = request.boundary ∧
      (request.step step).2.head = request.head := by
  cases step with
  | acknowledgeBody =>
    rw [Request.step, acknowledgeBody_request]
    exact ⟨rfl, rfl, rfl⟩
  | closeAfterResponse => exact ⟨rfl, rfl, rfl⟩
  | readBody capacities =>
    rw [Request.step]
    cases request.asReader with
    | none | some => exact ⟨rfl, rfl, rfl⟩

theorem run_frame (request : Request) (steps : List HandlerStep) :
    (request.run steps).2.buffer = request.buffer ∧
      (request.run steps).2.boundary = request.boundary ∧
      (request.run steps).2.head = request.head := by
  induction steps generalizing request with
  | nil => exact ⟨rfl, rfl, rfl⟩
  | cons step steps ih =>
    obtain ⟨hu, hb, hh⟩ := step_frame request step
    obtain ⟨hu', hb', hh'⟩ := ih (request.step step).2
    exact ⟨hu'.trans hu, hb'.trans hb, hh'.trans hh⟩

theorem RequestAt.kept (h : RequestAt body outputs request)
    (hk : request.responseConnectionDisposition = .keepAlive) :
    ∃ taken, body = taken ++ request.stream.data ∧ taken.length = request.declared := by
  simp only [Request.responseConnectionDisposition] at hk
  split_ifs at hk with hn
  obtain ⟨-, hc, ha⟩ := hn
  have hr : request.bodyPrefix.length ≤ request.declared := by
    rw [Request.bodyPrefix, length_drop]
    omega
  unfold Request.requestBodyDisposition at hc
  split_ifs at hc with he
  rcases he with ⟨hm, hu⟩ | ho
  · have hd : request.declared = 0 := by
      rw [Request.declared, hm]
      rfl
    have hi : request.bodyPrefix = [] := eq_nil_of_length_eq_zero (by omega)
    refine ⟨[], ?_, hd.symm⟩
    have hb := (h.unread hu).2
    rw [hi, nil_append] at hb
    exact hb
  · exact h.complete ho hr

theorem run_append (request : Request) (before after : List HandlerStep) :
    request.run (before ++ after) =
      ((request.run before).1 ++ ((request.run before).2.run after).1,
        ((request.run before).2.run after).2) := by
  induction before generalizing request with
  | nil => rfl
  | cons step before ih =>
    rw [cons_append, Request.run, ih, Request.run, append_assoc]

theorem handedOut_append (first second : List (Answer UInt8 SocketError)) :
    handedOut (first ++ second) = handedOut first ++ handedOut second := flatMap_append

theorem run_unopened (request : Request)
    (h : ∀ capacities, .readBody capacities ∉ steps) :
    (request.run steps).2.stream = request.stream ∧
      (request.run steps).2.bodyState = request.bodyState := by
  induction steps generalizing request with
  | nil => exact ⟨rfl, rfl⟩
  | cons step steps ih =>
    obtain ⟨ht, hs⟩ := ih (request.step step).2 fun capacities hm =>
      h capacities (mem_cons_of_mem _ hm)
    rw [Request.run, ht, hs]
    cases step with
    | acknowledgeBody =>
      rw [Request.step, acknowledgeBody_request]
      exact ⟨rfl, rfl⟩
    | closeAfterResponse => exact ⟨rfl, rfl⟩
    | readBody capacities => exact absurd mem_cons_self (h capacities)

theorem RequestAt.readBody_whole (h : RequestAt body outputs request)
    (hs : request.declared ≤ body.length) (hd : ∀ answer ∈ request.stream.answers, answer.delivers)
    (ho : request.bodyState = .unread ∨ request.declared = 0) (capacities : List ℕ)
    (he : request.declared ≤ (capacities.filter (0 < ·)).length) : body.take request.declared <+:
      outputs ++ handedOut (request.step (.readBody capacities)).1 := by
  rcases ho with hu | hz
  · obtain ⟨reader, hr⟩ : ∃ reader, request.asReader = some reader := by
      unfold Request.asReader
      rw [if_neg (not_not.2 hu)]
      exact ⟨_, rfl⟩
    obtain ⟨-, -, hm, hst, hat⟩ := h.reader hr
    have hn := hat.reads_delivering hs (hst ▸ hd) (hm ▸ he)
    have ha := hat.reads capacities
    have hc := ha.count
    rw [nil_append] at ha hc
    have ht : (request.step (.readBody capacities)).1 = (reader.reads capacities).1 := by
      rw [Request.step, hr]
    rw [ht, (h.unread hu).1, nil_append, ha.whole, take_append_of_le_length (by omega)]
    exact take_prefix _ _
  · rw [hz, take_zero]
    exact nil_prefix

end Handler

theorem addContentLength_ok
    (h : headers.foldlM addContentLength found = .ok (some n)) :
    (headers = [] ∧ found = some n) ∨
      ∃ header, headers = [header] ∧ parseUnsigned u64Max header.value = some n := by
  induction headers generalizing found with
  | nil => exact .inl ⟨rfl, Except.ok.inj h⟩
  | cons header headers ih =>
    rw [foldlM_cons, addContentLength] at h
    cases hp : parseUnsigned u64Max header.value with
    | none =>
      rw [hp] at h
      cases h
    | some length =>
      rw [hp] at h
      cases found with
      | some first => cases h
      | none =>
        rcases ih h with ⟨hl, he⟩ | ⟨second, hs, hv⟩
        · cases he
          exact .inr ⟨header, by rw [hl], hp⟩
        · -- a second length is refused, whatever it is
          exfalso
          rw [hs] at h
          change (addContentLength (some length) second >>= pure) = .ok (some n) at h
          rw [addContentLength, hv] at h
          cases h

theorem requestContentLength_ok {length : Option ℕ}
    (h : requestContentLength headers = .ok length) :
    headers.find? (named "Transfer-Encoding") = none ∧
      ∀ n, length = some n → ∃ header, headers.filter (named "Content-Length") = [header] ∧
        parseUnsigned u64Max header.value = some n := by
  unfold requestContentLength rejectUnsupportedTransferEncoding at h
  cases he : headers.find? (named "Transfer-Encoding") with
  | some header =>
    rw [he] at h
    cases h
  | none =>
    rw [he] at h
    refine ⟨rfl, ?_⟩
    rintro n rfl
    rcases addContentLength_ok h with ⟨-, hn⟩ | ho
    · cases hn
    · exact ho

theorem parseHead_bodyLength {httparse : Bytes → HttparseStatus} {buffered}
    {head} (h : parseHead httparse buffered = .ok head) :
    requestContentLength head.headers = .ok head.bodyLength := by
  unfold parseHead at h
  split at h
  · cases h
  · cases h
  · rename_i stop method target version headers hp
    split_ifs at h with hs
    cases hr : headerRanges headers with
    | error error =>
      rw [hr] at h
      cases h
    | ok ranges =>
      rw [hr] at h
      cases hl : requestContentLength ranges with
      | error error =>
        simp only [hl, bind, Except.bind] at h
        cases h
      | ok length =>
        simp only [hl, bind, Except.bind] at h
        cases h
        exact hl
  · split_ifs at h

section Framing

variable {httparse : Bytes → HttparseStatus} {data : Bytes}
  {answers : List (Acceptance SocketError)} {request : Request}

section

variable (h : Accepted httparse data answers request)
include h

theorem Accepted.requestAt : RequestAt (data.drop request.boundary) [] request := by
  have hb : data.drop request.boundary = request.bodyPrefix ++ request.stream.data := by
    rw [h.whole, drop_append_of_le_length h.within, Request.bodyPrefix]
  have ho := h.opened
  refine ⟨List.nil_prefix, ?_, fun _ => ⟨rfl, hb⟩, ?_⟩
  · rw [ho]
    split_ifs <;> exact BodyState.noConfusion
  · intro hc hr
    rw [ho] at hc
    split_ifs at hc with hl
    have hd : request.declared = 0 := by
      rw [Request.declared, Option.not_isSome_iff_eq_none.1 hl]
      rfl
    have hn : request.bodyPrefix = [] := eq_nil_of_length_eq_zero (by omega)
    rw [hn] at hb
    exact ⟨[], hb, hd.symm⟩

theorem Accepted.opened_or_empty : request.bodyState = .unread ∨ request.declared = 0 := by
  have ho := h.opened
  split_ifs at ho with hl
  · exact .inl ho
  · right
    rw [Request.declared, Option.not_isSome_iff_eq_none.1 hl]
    rfl

/-- What the handler gets of the body, and where the connection stands if it is kept. -/
theorem Accepted.run (steps : List HandlerStep) :
    handedOut (request.run steps).1 <+: (data.drop request.boundary).take request.declared ∧
      ((request.run steps).2.responseConnectionDisposition = .keepAlive →
        ∃ taken, data = taken ++ (request.run steps).2.stream.data ∧
          taken.length = request.boundary + request.declared) := by
  have ha := h.requestAt.run steps
  obtain ⟨-, -, hh⟩ := run_frame request steps
  have hd : (request.run steps).2.declared = request.declared := by
    rw [Request.declared, hh, Request.declared]
  rw [nil_append] at ha
  refine ⟨hd ▸ ha.handed, fun hk => ?_⟩
  obtain ⟨taken, hb, hl⟩ := ha.kept hk
  refine ⟨data.take request.boundary ++ taken, ?_, ?_⟩
  · rw [append_assoc, ← hb, take_append_drop]
  · have ht := congrArg List.length h.whole
    have hw := h.within
    rw [length_append] at ht
    rw [length_append, hl, hd, length_take_of_le (by omega)]

theorem Accepted.run_whole (hse : request.boundary + request.declared ≤ data.length)
    (he : ∀ answer ∈ answers, answer.delivers) {before after}
    {capacities : List ℕ} (hb : ∀ earlier, .readBody earlier ∉ before)
    (hn : request.declared ≤ (capacities.filter (0 < ·)).length) :
    handedOut (request.run (before ++ .readBody capacities :: after)).1 =
      (data.drop request.boundary).take request.declared := by
  have hat := h.requestAt.run before
  obtain ⟨-, -, hh⟩ := run_frame request before
  have hd : (request.run before).2.declared = request.declared := by
    rw [Request.declared, hh, Request.declared]
  obtain ⟨ht, hs⟩ := run_unopened request hb
  have ho : request.declared ≤ (data.drop request.boundary).length := by
    rw [length_drop]
    omega
  have hw := hat.readBody_whole (hd ▸ ho) (ht ▸ h.delivering he)
    (hs ▸ hd ▸ h.opened_or_empty) capacities (hd ▸ hn)
  rw [hd, nil_append, ← handedOut_append] at hw
  have hm : handedOut ((request.run before).1 ++
      ((request.run before).2.step (.readBody capacities)).1) <+:
      handedOut (request.run (before ++ .readBody capacities :: after)).1 := by
    rw [run_append, Request.run]
    simp only [handedOut_append, ← append_assoc]
    exact prefix_append _ _
  have ha := (h.run (before ++ .readBody capacities :: after)).1
  exact ha.eq_of_length_le (hw.trans hm).length_le

end

end Framing

/-- The head of a request does not depend on the pieces in which it arrives; the handler gets a
beginning of the declared body, all of it if it reads on; and a connection is kept only right
behind the declared body. The one length of an accepted body is made of digits if and only if it
has no plus sign. -/
theorem request_framing_iff_unsigned {httparse : Bytes → HttparseStatus} (hparser : HeadOnly httparse)
    {data : Bytes} {answers : List (Acceptance SocketError)} {request : Request}
    (h : readRequest httparse ⟨data, answers⟩ = .ok request) :
    (∃ front back, splitOnce headerDelimiter data = some (front, back) ∧
      request.boundary = front.length + 4) ∧
    (∀ answers' request', readRequest httparse ⟨data, answers'⟩ = .ok request' →
      request'.head = request.head ∧ request'.boundary = request.boundary) ∧
    (∀ answers' : List (Acceptance SocketError), (∀ answer ∈ answers', answer.delivers) →
      ∃ request', readRequest httparse ⟨data, answers'⟩ = .ok request') ∧
    (∀ steps,
      handedOut (request.run steps).1 <+: (data.drop request.boundary).take request.declared ∧
      ((request.run steps).2.responseConnectionDisposition = .keepAlive →
        ∃ taken, data = taken ++ (request.run steps).2.stream.data ∧
          taken.length = request.boundary + request.declared)) ∧
    (request.boundary + request.declared ≤ data.length → (∀ answer ∈ answers, answer.delivers) →
      ∀ before capacities after, (∀ earlier, .readBody earlier ∉ before) →
        request.declared ≤ (capacities.filter (0 < ·)).length →
        handedOut (request.run (before ++ .readBody capacities :: after)).1 =
          (data.drop request.boundary).take request.declared) ∧
    request.head.headers.find? (named "Transfer-Encoding") = none ∧
    (request.head.bodyLength.isSome →
      ∃ header, request.head.headers.filter (named "Content-Length") = [header] ∧
        header.value ≠ [] ∧
        ((∀ byte ∈ header.value, isDigit byte) ↔ header.value.head? ≠ some 43)) := by
  have ha := readRequest_spec h
  obtain ⟨he, hl⟩ := requestContentLength_ok (parseHead_bodyLength ha.parsed)
  refine ⟨ha.boundary, ?_, ?_, ha.run, ?_, he, ?_⟩
  · intro answers' request' h'
    have ha' := readRequest_spec h'
    exact ⟨head_eq hparser ha ha', ha.boundary_eq ha'⟩
  · intro answers' hd
    exact readRequest_delivering hparser ha hd
  · intro hs hd before capacities after hb ho
    exact ha.run_whole hs hd hb ho
  · intro hm
    obtain ⟨n, hn⟩ := Option.isSome_iff_exists.1 hm
    obtain ⟨header, hh, hv⟩ := hl n hn
    refine ⟨header, hh, ?_, digits_iff_of_parseUnsigned hv⟩
    intro hi
    rw [hi] at hv
    cases hv

/-- A parser that knows heads of one length only. -/
def parserOf (length : ℕ) (parse : Bytes → Option HttparseHead) (bytes : Bytes) : HttparseStatus :=
  match parse (bytes.take length) with
  | some head => .complete length head
  | none => .malformed

theorem headOnly_parserOf (length : ℕ) (parse : Bytes → Option HttparseHead) :
    HeadOnly (parserOf length parse) := by
  intro bytes bytes' stop found hf ht
  unfold parserOf at hf ⊢
  split at hf
  · rename_i head hp
    cases hf
    rw [ht, hp]
  · cases hf

def putHead (length : String) : Bytes :=
  ascii ("PUT /x HTTP/1.1\r\nContent-Length: " ++ length ++ "\r\n\r\n").toList

def putParsed (length : String) : HttparseHead :=
  ⟨some (ascii "PUT".toList), some (ascii "/x".toList), some 1,
    [⟨ascii "Content-Length".toList, ascii length.toList⟩]⟩

def putAnswers : List (Acceptance SocketError) := [.upTo 20, .upTo 17, .upTo 2]

def putParser (lengths : List String) : Bytes → HttparseStatus :=
  parserOf (putHead (lengths.headD "")).length fun bytes =>
    (lengths.find? fun length => putHead length = bytes).map putParsed

/-- The pieces end within the head and within the body. -/
def readPut (length : String) : Except SocketError Request :=
  readRequest (putParser [length])
    ⟨putHead length ++ ascii "hello".toList, putAnswers⟩

theorem readPut_digits : ∃ request, readPut "5" = .ok request ∧
    ∃ header, request.head.headers.filter (named "Content-Length") = [header] ∧
      ∀ byte ∈ header.value, isDigit byte := by
  cases hr : readPut "5" with
  | error error =>
    have hn : (readPut "5").toOption.isSome = true := by decide +kernel
    rw [hr] at hn
    cases hn
  | ok request =>
    have hf := request_framing_iff_unsigned (headOnly_parserOf _ _) hr
    have ha : ((readPut "5").toOption.map fun request =>
        (request.head.bodyLength, request.head.headers.map RequestHeader.value)) =
        some (some 5, [ascii "5".toList]) := by decide +kernel
    rw [hr] at ha
    obtain ⟨hl, he⟩ := Prod.mk.inj (Option.some.inj ha)
    obtain ⟨header, hh, -, hd⟩ := hf.2.2.2.2.2.2 (by rw [hl]; rfl)
    refine ⟨request, rfl, header, hh, hd.2 ?_⟩
    have hm := mem_of_mem_filter (hh ▸ mem_singleton_self header)
    have hv := mem_map_of_mem (f := RequestHeader.value) hm
    rw [he, mem_singleton] at hv
    rw [hv]
    decide

theorem readPut_plus_sign : ((readPut "+5").toOption.map fun request =>
    (request.head.bodyLength, request.head.headers.map RequestHeader.value)) =
      some (some 5, [ascii "+5".toList]) := by
  decide +kernel

open LabelledRuns

/-- A round of `process_next_request` that returns the connection. -/
structure Round (httparse : Bytes → HttparseStatus) (stream : Connection)
    (round : Request × List HandlerStep) (stream' : Connection) : Prop where
  read : readRequest httparse stream = .ok round.1
  kept : (round.1.run round.2).2.responseConnectionDisposition = .keepAlive
  left : stream' = (round.1.run round.2).2.stream

/-- A head and a body behind it, of which the handler has got a beginning. -/
def Carries (round : Request × List HandlerStep) (frame : Bytes) : Prop :=
  frame.length = round.1.boundary + round.1.declared ∧
    handedOut (round.1.run round.2).1 <+: frame.drop round.1.boundary

theorem Round.carries (h : Round httparse stream turn stream') :
    ∃ frame, stream.data = frame ++ stream'.data ∧ Carries turn frame := by
  obtain ⟨hh, hk⟩ := (readRequest_spec h.read).run turn.2
  obtain ⟨frame, hf, hl⟩ := hk h.kept
  rw [h.left]
  refine ⟨frame, hf, hl, ?_⟩
  rwa [hf, drop_append_of_le_length (by omega), take_left' (by rw [length_drop]; omega)] at hh

/-- Over any number of rounds, what the client sends falls apart into the requests that are read,
and their heads depend on nothing but these bytes, whatever pieces they arrive in. -/
theorem rounds_split_the_stream (hl : HeadOnly httparse)
    (hr : Run (Round httparse) stream rounds stream') :
    (∃ frames, stream.data = frames.flatten ++ stream'.data ∧ Forall₂ Carries rounds frames) ∧
    ∀ other other' rounds', Run (Round httparse) other rounds' other' →
      other.data = stream.data → rounds'.length = rounds.length →
      rounds'.map (fun r => r.1.head) = rounds.map (fun r => r.1.head) ∧
        other'.data = stream'.data := by
  induction rounds generalizing stream with
  | nil =>
    cases run_nil.1 hr
    refine ⟨⟨[], rfl, .nil⟩, fun other other' rounds' hu hd hn => ?_⟩
    rw [eq_nil_of_length_eq_zero hn] at hu ⊢
    cases run_nil.1 hu
    exact ⟨rfl, hd⟩
  | cons round rounds ih =>
    obtain ⟨middle, hs, hr⟩ := run_cons.1 hr
    obtain ⟨⟨frames, hf, hc⟩, hd⟩ := ih hr
    obtain ⟨frame, he, hx, hy⟩ := hs.carries
    refine ⟨⟨frame :: frames, ?_, .cons ⟨hx, hy⟩ hc⟩, fun other other' rounds' hu hm hn => ?_⟩
    · rw [he, hf, flatten_cons, append_assoc]
    cases rounds' with
    | nil => cases hn
    | cons round' rounds' =>
      obtain ⟨middle', ht, hu⟩ := run_cons.1 hu
      obtain ⟨frame', he', hx', -⟩ := ht.carries
      have ha := readRequest_spec ht.read
      rw [hm] at ha
      have hh := head_eq hl (readRequest_spec hs.read) ha
      have hq : frame'.length = frame.length := by
        rw [hx, hx', (readRequest_spec hs.read).boundary_eq ha, Request.declared, hh,
          Request.declared]
      rw [he, he'] at hm
      obtain ⟨hi, hj⟩ := hd middle' other' rounds' hu (append_inj hm hq).2 (Nat.succ.inj hn)
      exact ⟨by rw [map_cons, map_cons, hh, hi], hj⟩

def putRequest (length : String) (declared : ℕ) (read : Bytes) (stream : Connection) : Request :=
  ⟨stream, putHead length ++ read, 38, ⟨ascii "PUT".toList, .put, ascii "/x".toList,
    [⟨ascii "Content-Length".toList, ascii length.toList⟩], some declared, .keepAlive, .none⟩,
    .unread, .keepAlive, .none⟩

def lateStream : Connection := ⟨putHead "3" ++ ascii "abc".toList, [.upTo 38, .upTo 1, .upTo 2]⟩

/-- The first piece ends within the head, the second one within the body. -/
def sampleStream : Connection :=
  ⟨putHead "5" ++ ascii "hello".toList ++ lateStream.data,
    [.upTo 20, .upTo 20, .upTo 3] ++ lateStream.answers⟩

/-- Two requests, with handlers that read their bodies. -/
def sampleRounds : List (Request × List HandlerStep) :=
  [(putRequest "5" 5 (ascii "he".toList)
      ⟨ascii "llo".toList ++ lateStream.data, .upTo 3 :: lateStream.answers⟩,
      [.acknowledgeBody, .readBody [4, 4]]),
    (putRequest "3" 3 [] ⟨ascii "abc".toList, [.upTo 1, .upTo 2]⟩, [.readBody [8, 8]])]

theorem sampleRounds_split_the_stream :
    Run (Round (putParser ["5", "3"])) sampleStream sampleRounds ⟨[], []⟩ ∧
    (∃ frames, sampleStream.data = frames.flatten ∧ Forall₂ Carries sampleRounds frames) ∧
    sampleRounds.map (fun round => handedOut (round.1.run round.2).1) =
      [ascii "hello".toList, ascii "abc".toList] := by
  have hr : Run (Round (putParser ["5", "3"])) sampleStream sampleRounds ⟨[], []⟩ :=
    run_cons.2 ⟨lateStream, ⟨rfl, rfl, rfl⟩, .single ⟨rfl, rfl, rfl⟩⟩
  obtain ⟨⟨frames, hf, hc⟩, -⟩ := rounds_split_the_stream (headOnly_parserOf _ _) hr
  exact ⟨hr, ⟨frames, by rwa [append_nil] at hf, hc⟩, by decide +kernel⟩

end RequestFraming
