import Narjar.ByteStreams
import Narjar.ChunkedCoding
import Narjar.NarFormat

/-!
# The NAR proxy of the store mesh

A NAR that a mesh host sends in HTTP/2 data frames is passed on to a local client as an HTTP/1.1
body in chunks, one for each frame. A client that sees the end of such a body takes it as whole.
-/
namespace MeshProxy

open ByteCodecs NarFormat FaultyPrograms ByteStreams ChunkedCoding List

/-- A data frame, and whether its share of the flow-control window could be given back. -/
structure DataFrame where
  bytes : Bytes
  released : Except String Unit

/-- How a body ends: with a last data frame, without one, or never. -/
inductive BodyEnd where
  | data (frame : DataFrame)
  | trailers
  | failed (error : String)
  | stalled

structure H2Body where
  frames : List DataFrame
  ending : BodyEnd

/-- What `RecvStream::data` yields. The body ends normally after the last event. -/
inductive BodyEvent where
  | data (bytes : Bytes) (released : Except String Unit)
  | failed (error : String)
  | stalled

def DataFrame.event (frame : DataFrame) : BodyEvent := .data frame.bytes frame.released

/-- An empty frame is dropped, unless it ends the stream. -/
def H2Body.events (body : H2Body) : List BodyEvent :=
  (body.frames.filter fun frame => !frame.bytes.isEmpty).map DataFrame.event ++
    match body.ending with
    | .data frame => [frame.event]
    | .trailers => []
    | .failed error => [.failed error]
    | .stalled => [.stalled]

structure H2Response where
  status : ℕ
  body : H2Body

abbrev Writing := Faulty (Sink UInt8 String) String

def writeErrorText : WriteError String → String
  | .writeZero => "write zero"
  | .failed error => error

def write (bytes : Bytes) : Writing Unit := mapError writeErrorText (writeAll bytes)

def chunkedHeaders : Bytes :=
  ascii ("HTTP/1.1 200 OK\r\ncontent-type: application/x-nix-nar\r\n" ++
    "transfer-encoding: chunked\r\nconnection: close\r\n\r\n").toList

def writeChunkedHeaders : Writing Unit := write chunkedHeaders

def writeHttpChunk (data : Bytes) : Writing Unit := do
  write (hexadecimal data.length ++ crlf)
  write data
  write crlf

def writeChunkEnd : Writing Unit := write lastChunk

def passOn : BodyEvent → Writing Unit
  | .data bytes released => do
    writeHttpChunk bytes
    ofExcept released
  | .failed error => stop error
  | .stalled => stop "mesh body stalled"

def writeH2Body (body : List BodyEvent) : Writing Unit := forEach body passOn

inductive Proxied where
  | missing
  | sent
  | failed (error : String)
  deriving DecidableEq

def proxyNar (host path : String) (opened : Except String H2Response) : Writing Proxied := do
  let opened ← ofExcept opened
  if opened.status = 404 then pure .missing
  else if opened.status ≠ 200 then
    stop s!"mesh host {host} returned {opened.status} for {path}"
  else do
    writeChunkedHeaders
    handle (writeH2Body opened.body.events)
      (fun _ => handle writeChunkEnd (fun _ => pure .sent) fun error => pure (.failed error))
      fun error => pure (.failed error)

/-- The frames up to the end of the body or the first failure. -/
def received : List BodyEvent → List Bytes
  | .data bytes (.ok _) :: body => bytes :: received body
  | .data bytes (.error _) :: _ => [bytes]
  | .failed _ :: _ => []
  | .stalled :: _ => []
  | [] => []

def endsNormally : List BodyEvent → Bool
  | .data _ (.ok _) :: body => endsNormally body
  | .data _ (.error _) :: _ => false
  | .failed _ :: _ => false
  | .stalled :: _ => false
  | [] => true

section Writes

variable {accepting : Prop} {before : Bytes} {C : Sink UInt8 String → Prop}

theorem write_spec (bytes : Bytes) :
    Triple (Wrote accepting before) (write bytes) (fun _ => Wrote accepting (before ++ bytes))
      (fun _ => CutShort accepting before bytes) C := by
  unfold write
  exact Triple.mapError (writeAll_spec bytes)

theorem writeHttpChunk_spec (data : Bytes) :
    Triple (Wrote accepting before) (writeHttpChunk data)
      (fun _ => Wrote accepting (before ++ chunk data))
      (fun _ => CutShort accepting before (chunk data)) C := by
  have hc : chunk data = hexadecimal data.length ++ crlf ++ (data ++ crlf) := by
    rw [chunk, append_assoc]
  rw [hc]
  refine .bind ((write_spec _).relax (fun _ _ h => h.left)
    fun _ => id) fun _ => .bind ((write_spec _).relax (fun _ _ h => h.left.right) fun _ => id) fun _ => ?_
  refine (write_spec crlf).consequence (fun _ => id) (fun _ sink h => ?_) (fun _ _ h => ?_)
    fun _ => id
  · rw [← append_assoc, ← append_assoc]
    exact h
  · exact h.right.right

/-- The body stopped at a failure of the host, or the client stopped it within a chunk. -/
def Stopped (accepting : Prop) (before : Bytes) (body : List BodyEvent) (sink : Sink UInt8 String) :
    Prop :=
  (endsNormally body = false ∧ sink.written = before ++ (received body).flatMap chunk) ∨
    ∃ frames next later, received body = frames ++ next :: later ∧
      CutShort accepting (before ++ frames.flatMap chunk) (chunk next) sink

theorem writeH2Body_spec (body : List BodyEvent) :
    Triple (Wrote accepting before) (writeH2Body body)
      (fun _ sink => endsNormally body = true ∧
        Wrote accepting (before ++ (received body).flatMap chunk) sink)
      (fun _ => Stopped accepting before body) C := by
  induction body generalizing before with
  | nil =>
    refine .pure fun sink hs => ⟨rfl, ?_⟩
    rw [received, flatMap_nil, append_nil]
    exact hs
  | cons event body ih =>
    cases event with
    | failed | stalled =>
      refine .bind (Q := fun _ _ => False) (.stop fun sink hs => .inl ⟨rfl, ?_⟩) fun _ => ?_
      · rw [received, flatMap_nil, append_nil]
        exact hs.1
      · exact fun _ _ h => h.elim
    | data bytes released =>
      have hc : ∀ later sink, received (.data bytes released :: body) = bytes :: later →
          CutShort accepting before (chunk bytes) sink →
          Stopped accepting before (.data bytes released :: body) sink := by
        intro later sink hr hs
        refine .inr ⟨[], bytes, later, hr, ?_⟩
        rw [flatMap_nil, append_nil]
        exact hs
      cases released with
      | error error =>
        refine .bind (Q := fun _ _ => False) (.bind ((writeHttpChunk_spec bytes).relax (fun _ sink hs => hc [] sink rfl hs) fun _ => id)
          fun _ => .stop fun sink hs => .inl ⟨rfl, ?_⟩) fun _ => ?_
        · rw [received, flatMap_singleton]
          exact hs.1
        · exact fun _ _ h => h.elim
      | ok released =>
        refine .bind (Q := fun _ => Wrote accepting (before ++ chunk bytes)) (.bind
          ((writeHttpChunk_spec bytes).relax (fun _ sink hs => hc _ sink rfl hs) fun _ => id) fun _ => .pure fun _ => id) fun _ => ?_
        refine (@ih (before ++ chunk bytes)).consequence (fun _ => id) ?_ ?_ fun _ => id
        · intro _ sink hs
          rw [append_assoc, ← flatMap_cons] at hs
          exact hs
        · intro _ sink hs
          rcases hs with ⟨hf, hw⟩ | ⟨frames, next, later, hr, hh⟩
          · left
            rw [append_assoc, ← flatMap_cons] at hw
            exact ⟨hf, hw⟩
          · right
            refine ⟨bytes :: frames, next, later, ?_, ?_⟩
            · rw [received, hr]
              rfl
            · rw [flatMap_cons, ← append_assoc]
              exact hh

end Writes

/-- A client that has read the body has the beginning of what was received, and it has seen the
end only if it has everything and nothing follows. -/
structure Framed (body : List BodyEvent) (exit : Exit String Proxied) (sent : Bytes) : Prop where
  data : (decode sent).data <+: (received body).flatten
  ended : (decode sent).rest ≠ none → exit = .done .sent
  whole : exit = .done .sent →
    endsNormally body = true ∧ decode sent = ⟨(received body).flatten, some []⟩

/-- What a client that accepts everything should understand. -/
def faithful (body : List BodyEvent) : Decoded :=
  ⟨(received body).flatten, if endsNormally body then some [] else none⟩

section Decoding

variable {body : List BodyEvent} {frames later : List Bytes} {next taken rest : Bytes}

section

variable (hf : ∀ frame ∈ received body, frame ≠ [])
include hf

theorem decode_sent :
    decode ((received body).flatMap chunk ++ lastChunk) = ⟨(received body).flatten, some []⟩ := by
  rw [← append_nil lastChunk, ← chunk_nil, decode_chunks_nil hf]

theorem decode_stopped :
    decode ((received body).flatMap chunk) = ⟨(received body).flatten, none⟩ := by
  rw [← append_nil ((received body).flatMap chunk), decode_chunks_append hf]
  exact congrArg (Decoded.mk · none) (append_nil _)

theorem decode_within (he : received body = frames ++ next :: later) (hs : rest ≠ [])
    (hc : chunk next = taken ++ rest) :
    (decode (frames.flatMap chunk ++ taken)).rest = none ∧
      (decode (frames.flatMap chunk ++ taken)).data <+: (received body).flatten := by
  rw [he] at hf ⊢
  rw [decode_chunks_append fun frame hr => hf frame (mem_append_left _ hr)]
  obtain ⟨hn, hd⟩ := decode_cut hs hc
  refine ⟨hn, ?_⟩
  rw [flatten_append, flatten_cons]
  exact (prefix_append_right_inj _).2 (hd.trans (prefix_append _ _))

end

theorem decode_eq_faithful_iff :
    decode ((received body).flatMap chunk ++ if endsNormally body then lastChunk else []) =
      faithful body ↔ ∀ frame ∈ received body, frame ≠ [] := by
  constructor
  · intro hf frame ha hn
    obtain ⟨before, after, -, hd⟩ := decode_of_nil_mem (hn ▸ ha)
      (if endsNormally body then lastChunk else [])
    rw [hd, faithful] at hf
    have hr := congrArg Decoded.rest hf
    -- an end where none is due, or the due end after it
    split_ifs at hr with ho
    have hl := (append_eq_nil_iff.1 (Option.some.inj hr)).2
    cases hl
  · intro hu
    rw [faithful]
    split_ifs with ho
    · exact decode_sent hu
    · rw [append_nil]
      exact decode_stopped hu

end Decoding

section Proxy

variable {accepting : Prop} {body : List BodyEvent} {C : Sink UInt8 String → Prop}

def Returned (accepting : Prop) (body : List BodyEvent) (sink : Sink UInt8 String) :
    Proxied → Prop
  | .missing => False
  | .sent => endsNormally body = true ∧
      sink.written = chunkedHeaders ++ (received body).flatMap chunk ++ lastChunk
  | .failed _ => Stopped accepting chunkedHeaders body sink ∨
      CutShort accepting (chunkedHeaders ++ (received body).flatMap chunk) lastChunk sink

theorem proxyNar_spec (accepting : Prop) (host path : String) (body : H2Body) :
    Triple (Wrote accepting []) (proxyNar host path (.ok ⟨200, body⟩))
      (fun result sink => Returned accepting body.events sink result)
      (fun _ => CutShort accepting [] chunkedHeaders) C := by
  refine .bind (Q := fun opened sink => opened = ⟨200, body⟩ ∧ Wrote accepting [] sink)
    (.pure fun _ hs => ⟨rfl, hs⟩) fun opened => .assuming fun ho => ?_
  rw [ho]
  refine .bind (write_spec chunkedHeaders) fun _ => ?_
  refine .handle (writeH2Body_spec body.events) (fun _ => .assuming fun hn => ?_) fun error => ?_
  · refine .handle (write_spec lastChunk) (fun _ => ?_) fun error => ?_
    · exact .pure fun sink hs => ⟨hn, hs.1⟩
    · exact .pure fun sink hs => .inr hs
  · exact .pure fun sink hs => .inl hs

/-- The body that a cut of the end leaves is understood as what was received, without an end. -/
theorem decode_end_cut (hf : ∀ frame ∈ received body, frame ≠ [])
    (hr : rest ≠ []) (hc : lastChunk = taken ++ rest) :
    decode ((received body).flatMap chunk ++ taken) = ⟨(received body).flatten, none⟩ := by
  rw [← chunk_nil] at hc
  obtain ⟨hn, hd⟩ := decode_cut hr hc
  rw [decode_chunks_append hf, hn, prefix_nil.1 hd, append_nil]

theorem framed_failed (hn : (decode sent).rest = none)
    (hd : (decode sent).data <+: (received body).flatten) :
    Framed body (.done (.failed error)) sent := by
  refine ⟨hd, fun he => absurd hn he, fun hs => ?_⟩
  cases hs

theorem Returned.framed
    (h : Returned accepting body sink result) (hf : ∀ frame ∈ received body, frame ≠ []) :
    ∃ sent, sink.written = chunkedHeaders ++ sent ∧ Framed body (.done result) sent := by
  cases result with
  | missing => exact h.elim
  | sent =>
    obtain ⟨hm, hw⟩ := h
    rw [append_assoc] at hw
    refine ⟨_, hw, ?_, fun _ => rfl, fun _ => ⟨hm, decode_sent hf⟩⟩
    rw [decode_sent hf]
  | failed error =>
    rcases h with (⟨-, hw⟩ | ⟨frames, next, later, he, hc⟩) | hc
    · refine ⟨_, hw, framed_failed ?_ ?_⟩
      · rw [decode_stopped hf]
      · rw [decode_stopped hf]
    · obtain ⟨-, taken, rest, hr, hn, hw⟩ := hc
      rw [append_assoc] at hw
      obtain ⟨ho, hd⟩ := decode_within hf he hr hn
      exact ⟨_, hw, framed_failed ho hd⟩
    · obtain ⟨-, taken, rest, hr, hl, hw⟩ := hc
      rw [append_assoc] at hw
      refine ⟨_, hw, framed_failed ?_ ?_⟩
      · rw [decode_end_cut hf hr hl]
      · rw [decode_end_cut hf hr hl]

theorem Returned.written (ha : accepting)
    (h : Returned accepting body sink result) :
    sink.written = chunkedHeaders ++ ((received body).flatMap chunk ++
      if endsNormally body then lastChunk else []) := by
  cases result with
  | missing => exact h.elim
  | sent =>
    obtain ⟨ho, hw⟩ := h
    rw [hw, append_assoc, if_pos ho]
  | failed error =>
    rcases h with (⟨hf, hw⟩ | ⟨frames, next, later, -, hn, -⟩) | ⟨hn, -⟩
    · rw [hw, hf, if_neg Bool.false_ne_true, append_nil]
    · exact absurd ha hn
    · exact absurd ha hn

end Proxy

/-- If no frame that the body yields is empty, then whatever the client accepts, it has the
beginning of what was received, and an end only after the whole body. A client that accepts
everything understands exactly what was received if no frame is empty, and only then. -/
theorem proxied_body_faithful_iff (host path : String) (body : H2Body)
    (answers : List (Acceptance String)) (faults : List Fault) :
    ((∀ frame ∈ received body.events, frame ≠ []) →
      ((∃ error, (proxyNar host path (.ok ⟨200, body⟩) ⟨[], answers⟩ faults).exit = .failed error) ∧
        (proxyNar host path (.ok ⟨200, body⟩) ⟨[], answers⟩ faults).state.written <+:
          chunkedHeaders) ∨
      ∃ sent, (proxyNar host path (.ok ⟨200, body⟩) ⟨[], answers⟩ faults).state.written =
          chunkedHeaders ++ sent ∧
        Framed body.events (proxyNar host path (.ok ⟨200, body⟩) ⟨[], answers⟩ faults).exit sent) ∧
    ((∀ answer ∈ answers, answer.proceeds) →
      ((∃ sent, (proxyNar host path (.ok ⟨200, body⟩) ⟨[], answers⟩ faults).state.written =
          chunkedHeaders ++ sent ∧ decode sent = faithful body.events) ↔
        ∀ frame ∈ received body.events, frame ≠ [])) := by
  have hs := proxyNar_spec (∀ answer ∈ answers, answer.proceeds) host path body
    (C := fun _ => False) ⟨[], answers⟩ faults ⟨rfl, id⟩
  generalize proxyNar host path (.ok ⟨200, body⟩) ⟨[], answers⟩ faults = outcome at hs ⊢
  obtain ⟨exit, sink, rest⟩ := outcome
  cases exit with
  | crashed => exact hs.elim
  | failed error =>
    obtain ⟨hn, taken, later, -, hh, hw⟩ := hs
    refine ⟨fun _ => .inl ⟨⟨error, rfl⟩, ?_⟩, fun ha => absurd ha hn⟩
    exact ⟨later, hw ▸ hh.symm⟩
  | done result =>
    have hr := hs
    refine ⟨fun hf => .inr (hr.framed hf), fun ha => ?_⟩
    rw [hr.written ha, ← decode_eq_faithful_iff]
    constructor
    · rintro ⟨sent, hw, hd⟩
      rw [append_cancel_left hw]
      exact hd
    · intro hd
      exact ⟨_, rfl, hd⟩

/-- Two frames with data and an empty one between them. -/
def twoFrames : H2Body := ⟨[⟨[1, 2], .ok ()⟩, ⟨[], .ok ()⟩], .data ⟨[3], .ok ()⟩⟩

theorem twoFrames_faithful : ∃ sent,
    (proxyNar "host" "/nar/x" (.ok ⟨200, twoFrames⟩) ⟨[], [.interrupted, .upTo 3]⟩ []).state.written =
      chunkedHeaders ++ sent ∧ decode sent = faithful twoFrames.events := by
  have hi := (proxied_body_faithful_iff "host" "/nar/x" twoFrames [.interrupted, .upTo 3] []).2
    (by decide)
  exact hi.2 (by decide)

/-- Two bytes of a NAR and an empty frame that ends the stream. -/
def emptyLast : H2Body := ⟨[⟨[1, 2], .ok ()⟩], .data ⟨[], .ok ()⟩⟩

theorem emptyLast_ends_twice :
    (proxyNar "host" "/nar/x" (.ok ⟨200, emptyLast⟩) ⟨[], []⟩ []).exit = .done .sent ∧
      decode ((proxyNar "host" "/nar/x" (.ok ⟨200, emptyLast⟩) ⟨[], []⟩ []).state.written.drop
        chunkedHeaders.length) = ⟨[1, 2], some lastChunk⟩ ∧
      faithful emptyLast.events = ⟨[1, 2], some []⟩ := by
  decide +kernel

end MeshProxy
