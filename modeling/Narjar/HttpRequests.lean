import Narjar.ByteStreams
import Narjar.NarFormat
import Narjar.TextFields

/-!
# Requests on a kept connection

The server reads the head of a request together with whatever follows it in the same reads, hands
the body to the handler and keeps the connection for the next request only if nothing of this one
is left in it. The parser of the head is a parameter.
-/
namespace HttpRequests

open ByteCodecs NarFormat TextFields ByteStreams

inductive SocketErrorKind where
  | interrupted
  | invalidData
  | invalidInput
  | unexpectedEof
  | unsupported
  | writeZero
  | other
  deriving DecidableEq, Repr

structure SocketError where
  kind : SocketErrorKind
  message : String
  deriving DecidableEq, Repr

def invalidData (message : String) : SocketError := ⟨.invalidData, message⟩

def interruptedError : SocketError := ⟨.interrupted, "operation interrupted"⟩

abbrev Connection := Source UInt8 SocketError

def maxHeaderBytes : ℕ := 16 * 1024

def maxHeaders : ℕ := 64

def headerDelimiter : Bytes := [13, 10, 13, 10]

structure BufferedHead where
  bytes : Bytes
  boundary : ℕ
  deriving DecidableEq

/-- The loop of `BufferedHead::read`; every round but the last receives at least one byte. -/
def readHeadWith : ℕ → Bytes → ℕ → Connection → Except SocketError BufferedHead × Connection
  | 0, _, _, stream => (.error (invalidData "request headers exceed 16 KiB"), stream)
  | rounds + 1, received, scannedUntil, stream =>
    let searchStart := scannedUntil - 3
    match splitOnce headerDelimiter (received.drop searchStart) with
    | some (front, _) => (.ok ⟨received, searchStart + front.length + 4⟩, stream)
    | none =>
      if received.length = maxHeaderBytes then
        (.error (invalidData "request headers exceed 16 KiB"), stream)
      else
        match read (maxHeaderBytes - received.length) stream with
        | (.bytes [], stream) =>
          if received = [] then (.error ⟨.unexpectedEof, "unexpected end of file"⟩, stream)
          else (.error (invalidData "request ended early"), stream)
        | (.bytes (byte :: bytes), stream) =>
          readHeadWith rounds (received ++ byte :: bytes) received.length stream
        | (.interrupted, stream) => (.error interruptedError, stream)
        | (.failed error, stream) => (.error error, stream)

def readHead (stream : Connection) : Except SocketError BufferedHead × Connection :=
  readHeadWith (maxHeaderBytes + 1) [] 0 stream

structure RequestHeader where
  name : Bytes
  value : Bytes
  deriving DecidableEq

/-- What the parser of another crate has found in a head. -/
structure HttparseHead where
  method : Option Bytes
  path : Option Bytes
  version : Option ℕ
  headers : List RequestHeader
  deriving DecidableEq

inductive HttparseStatus where
  | complete (stop : ℕ) (head : HttparseHead)
  | incomplete
  | malformed
  deriving DecidableEq

inductive Method where
  | get
  | head
  | put
  | other
  deriving DecidableEq, Repr

inductive ConnectionDisposition where
  | keepAlive
  | close
  deriving DecidableEq, Repr

inductive RequestExpectation where
  | none
  | proceed
  | unsupported
  deriving DecidableEq, Repr

structure ParsedHead where
  httpMethod : Bytes
  method : Method
  url : Bytes
  headers : List RequestHeader
  bodyLength : Option ℕ
  connection : ConnectionDisposition
  expectation : RequestExpectation
  deriving DecidableEq

def fromHttp (method : Bytes) : Method :=
  if method = ascii "GET".toList then .get
  else if method = ascii "HEAD".toList then .head
  else if method = ascii "PUT".toList then .put
  else .other

def named (name : String) (header : RequestHeader) : Bool :=
  equalsIgnoringCase header.name (ascii name.toList)

def headerRanges (headers : List RequestHeader) : Except SocketError (List RequestHeader) :=
  if maxHeaders < headers.length then .error (invalidData "too many request headers")
  else
    headers.mapM fun header =>
      if validUtf8 header.value then .ok header
      else .error (invalidData "request header is not UTF-8")

def rejectUnsupportedTransferEncoding (headers : List RequestHeader) : Except SocketError Unit :=
  match headers.find? (named "Transfer-Encoding") with
  | some _ => .error (invalidData "Transfer-Encoding is not supported")
  | none => .ok ()

def addContentLength (found : Option ℕ) (header : RequestHeader) :
    Except SocketError (Option ℕ) :=
  match parseUnsigned u64Max header.value with
  | none => .error (invalidData "invalid Content-Length")
  | some length =>
    match found with
    | some _ => .error (invalidData "duplicate Content-Length")
    | none => .ok (some length)

def requestContentLength (headers : List RequestHeader) : Except SocketError (Option ℕ) := do
  rejectUnsupportedTransferEncoding headers
  (headers.filter (named "Content-Length")).foldlM addContentLength none

def isWord (word : String) (value : Bytes) : Bool :=
  equalsIgnoringCase (trim value) (ascii word.toList)

def requestConnectionDisposition (version : ℕ) (headers : List RequestHeader) :
    ConnectionDisposition :=
  let hasCloseDirective := headers.any fun header =>
    named "Connection" header && (header.value.splitOn 44).any (isWord "close")
  if version = 1 ∧ hasCloseDirective = false then .keepAlive else .close

def requestExpectation (version : ℕ) (headers : List RequestHeader) : RequestExpectation :=
  if version = 0 then .none
  else
    ((headers.filter (named "Expect")).flatMap fun header => header.value.splitOn 44).foldl
      (fun expectation value =>
        if expectation = .unsupported ∨ isWord "100-continue" value = false then .unsupported
        else .proceed) .none

section Parser

variable (httparse : Bytes → HttparseStatus)

def parseHead (buffered : BufferedHead) : Except SocketError ParsedHead :=
  match httparse buffered.bytes with
  | .incomplete => .error (invalidData "incomplete HTTP request")
  | .malformed => .error (invalidData "malformed HTTP request")
  | .complete stop ⟨some method, some target, some version, headers⟩ =>
    if stop ≠ buffered.boundary then
      .error (invalidData "HTTP parser disagrees with header boundary")
    else do
      let headers ← headerRanges headers
      let bodyLength ← requestContentLength headers
      pure ⟨method, fromHttp method, target, headers, bodyLength,
        requestConnectionDisposition version headers, requestExpectation version headers⟩
  | .complete stop _ =>
    if stop ≠ buffered.boundary then
      .error (invalidData "HTTP parser disagrees with header boundary")
    else .error (invalidData "incomplete HTTP request")

inductive BodyState where
  | unread
  | reading
  | complete
  | failed
  deriving DecidableEq, Repr

structure Request where
  stream : Connection
  buffer : Bytes
  boundary : ℕ
  head : ParsedHead
  bodyState : BodyState
  connection : ConnectionDisposition
  expectation : RequestExpectation

def readRequest (stream : Connection) : Except SocketError Request :=
  match readHead stream with
  | (.error error, _) => .error error
  | (.ok buffered, stream) => do
    let head ← parseHead httparse buffered
    pure ⟨stream, buffered.bytes, buffered.boundary, head,
      if head.bodyLength.isSome then .unread else .complete, head.connection, head.expectation⟩

end Parser

def Request.bodyPrefix (request : Request) : Bytes := request.buffer.drop request.boundary

def Request.declared (request : Request) : ℕ := request.head.bodyLength.getD 0

/-- What is sent to a client that waits for it, and the request that waits no more. -/
def Request.acknowledgeBody (request : Request) : Except SocketError Bytes × Request :=
  let acknowledged := { request with expectation := .none }
  match request.expectation with
  | .none => (.ok [], acknowledged)
  | .proceed =>
    if request.head.bodyLength.any fun length => request.bodyPrefix.length < length then
      (.ok (ascii "HTTP/1.1 100 Continue\r\n\r\n".toList), acknowledged)
    else (.ok [], acknowledged)
  | .unsupported => (.error ⟨.invalidInput, "unsupported request expectation"⟩, acknowledged)

structure BodyReader where
  stream : Connection
  buffered : Bytes
  offset : ℕ
  remaining : ℕ
  state : BodyState

def Request.asReader (request : Request) : Option BodyReader :=
  if request.bodyState ≠ .unread then none
  else some ⟨request.stream, request.bodyPrefix, 0, request.declared,
    if request.declared = 0 then .complete else .reading⟩

def BodyReader.read (capacity : ℕ) (reader : BodyReader) : Answer UInt8 SocketError × BodyReader :=
  if reader.remaining = 0 ∨ capacity = 0 then (.bytes [], reader)
  else
    let available := reader.buffered.length - reader.offset
    if available ≠ 0 then
      let count := min (min available capacity) reader.remaining
      (.bytes ((reader.buffered.drop reader.offset).take count),
        { reader with
          offset := reader.offset + count
          remaining := reader.remaining - count
          state := if reader.remaining - count = 0 then .complete else reader.state })
    else
      match ByteStreams.read (min capacity reader.remaining) reader.stream with
      | (.bytes bytes, stream) =>
        let state := if bytes = [] then .failed else reader.state
        (.bytes bytes,
          { reader with
            stream := stream
            remaining := reader.remaining - bytes.length
            state := if reader.remaining - bytes.length = 0 then .complete else state })
      | (.interrupted, stream) => (.interrupted, { reader with stream := stream, state := .failed })
      | (.failed error, stream) =>
        (.failed error, { reader with stream := stream, state := .failed })

def BodyReader.reads : List ℕ → BodyReader → List (Answer UInt8 SocketError) × BodyReader
  | [], reader => ([], reader)
  | capacity :: capacities, reader =>
    let later := BodyReader.reads capacities (reader.read capacity).2
    ((reader.read capacity).1 :: later.1, later.2)

def Request.dropReader (request : Request) (reader : BodyReader) : Request :=
  { request with
    stream := reader.stream
    bodyState := if reader.state = .reading then .failed else reader.state }

inductive HandlerStep where
  | acknowledgeBody
  | readBody (capacities : List ℕ)
  | closeAfterResponse
  deriving DecidableEq

def Request.step (request : Request) : HandlerStep → List (Answer UInt8 SocketError) × Request
  | .acknowledgeBody => ([], request.acknowledgeBody.2)
  | .readBody capacities =>
    match request.asReader with
    | none => ([], request)
    | some reader =>
      ((reader.reads capacities).1, request.dropReader (reader.reads capacities).2)
  | .closeAfterResponse => ([], { request with connection := .close })

def Request.run (request : Request) : List HandlerStep → List (Answer UInt8 SocketError) × Request
  | [] => ([], request)
  | step :: steps =>
    let later := (request.step step).2.run steps
    ((request.step step).1 ++ later.1, later.2)

inductive RequestBodyDisposition where
  | fullyConsumed
  | stillOutstanding
  deriving DecidableEq

def Request.requestBodyDisposition (request : Request) : RequestBodyDisposition :=
  if request.head.bodyLength = some 0 ∧ request.bodyState = .unread ∨
      request.bodyState = .complete then .fullyConsumed
  else .stillOutstanding

def Request.responseConnectionDisposition (request : Request) : ConnectionDisposition :=
  let bufferedBytesAfterBody := request.buffer.length - request.boundary - request.declared
  if request.connection = .keepAlive ∧ request.requestBodyDisposition = .fullyConsumed ∧
      bufferedBytesAfterBody = 0 then .keepAlive
  else .close

end HttpRequests
