import Narjar.HttpRequests

/-!
# Responses on a kept connection

A response is its head and a body, which is copied from a reader or sent from a file. When it has
been written the connection is handed back for another request, or closed.
-/
namespace HttpResponses

open ByteCodecs NarFormat TextFields FaultyPrograms ByteStreams HttpRequests

inductive HeaderError where
  | invalidName
  | invalidValue
  deriving DecidableEq, Repr

def isAlphanumeric (byte : UInt8) : Bool :=
  isDigit byte || (65 ≤ byte ∧ byte ≤ 90) || (97 ≤ byte ∧ byte ≤ 122)

/-- The other characters of a token: `!#$%&'*+-.^_|~` and the backtick. -/
def tokenMarks : Bytes := [33, 35, 36, 37, 38, 39, 42, 43, 45, 46, 94, 95, 96, 124, 126]

def validateHeader (name value : Bytes) : Except HeaderError Unit :=
  if name = [] ∨ name.any fun byte => !(isAlphanumeric byte || tokenMarks.contains byte) then
    .error .invalidName
  else if value.any fun byte => (byte < 0x20 ∧ byte ≠ 9) ∨ byte = 0x7f then .error .invalidValue
  else .ok ()

/-- A header is built only after it was validated. -/
structure ResponseHeader where
  name : Bytes
  value : Bytes
  valid : validateHeader name value = .ok ()

structure Response (ρ : Type) where
  status : ℕ
  headers : List ResponseHeader
  body : ρ
  contentLength : ℕ

def Response.empty (status : ℕ) : Response (List (Answer UInt8 SocketError)) := ⟨status, [], [], 0⟩

def Response.withHeader {ρ : Type} (response : Response ρ) (header : ResponseHeader) : Response ρ :=
  { response with headers := response.headers ++ [header] }

def reason : ℕ → String
  | 200 => "OK"
  | 201 => "Created"
  | 206 => "Partial Content"
  | 409 => "Conflict"
  | 400 => "Bad Request"
  | 401 => "Unauthorized"
  | 404 => "Not Found"
  | 405 => "Method Not Allowed"
  | 411 => "Length Required"
  | 413 => "Payload Too Large"
  | 415 => "Unsupported Media Type"
  | 416 => "Range Not Satisfiable"
  | 417 => "Expectation Failed"
  | 422 => "Unprocessable Entity"
  | 429 => "Too Many Requests"
  | 500 => "Internal Server Error"
  | 503 => "Service Unavailable"
  | 507 => "Insufficient Storage"
  | _ => "Unknown Status"

def statusLine (status : ℕ) : Bytes :=
  ascii "HTTP/1.1 ".toList ++ decimal status ++ [32] ++ ascii (reason status).toList

def headerLine (header : ResponseHeader) : Bytes := header.name ++ [58, 32] ++ header.value

def contentLengthLine (length : ℕ) : Bytes := ascii "Content-Length: ".toList ++ decimal length

def connectionLine : ConnectionDisposition → Bytes
  | .keepAlive => ascii "Connection: keep-alive".toList
  | .close => ascii "Connection: close".toList

section Responses

variable {ρ : Type}

def headLines (response : Response ρ) (connection : ConnectionDisposition) : List Bytes :=
  statusLine response.status :: response.headers.map headerLine ++
    [contentLengthLine response.contentLength, connectionLine connection]

def responseHead (response : Response ρ) (connection : ConnectionDisposition) : Bytes :=
  (headLines response connection).flatMap (· ++ [13, 10]) ++ [13, 10]

end Responses

structure TransferFailure where
  error : SocketError
  bodyBytes : ℕ
  deriving DecidableEq, Repr

def truncatedBody (bodyBytes : ℕ) : TransferFailure :=
  ⟨⟨.unexpectedEof, "file ended before the declared response length"⟩, bodyBytes⟩

abbrev Transfer := Faulty (Sink UInt8 SocketError) TransferFailure

def writeError : WriteError SocketError → SocketError
  | .writeZero => ⟨.writeZero, "failed to write whole buffer"⟩
  | .failed error => error

def writeHeaders {ρ : Type} (response : Response ρ) (connection : ConnectionDisposition) :
    Transfer Unit :=
  mapError (fun error => ⟨writeError error, 0⟩) (writeAll (responseHead response connection))

/-- Write a buffer through the body writer, which counts what the stream accepts. -/
def writeBody (bodyBytes : ℕ) (buffer : Bytes) : Transfer ℕ :=
  FaultyPrograms.respond fun sink =>
    (match (accept sink.answers buffer).1 with
      | .ok _ => .ok (bodyBytes + (accept sink.answers buffer).2.1.length)
      | .error error =>
        .error ⟨writeError error, bodyBytes + (accept sink.answers buffer).2.1.length⟩,
      ⟨sink.written ++ (accept sink.answers buffer).2.1, (accept sink.answers buffer).2.2⟩)

/-- `io::copy` from a reader, given by its answers, to the body writer. -/
def copyFrom : ℕ → List (Answer UInt8 SocketError) → Transfer ℕ
  | bodyBytes, [] => pure bodyBytes
  | bodyBytes, .bytes [] :: _ => pure bodyBytes
  | bodyBytes, .bytes (byte :: bytes) :: answers => do
    let bodyBytes ← writeBody bodyBytes (byte :: bytes)
    copyFrom bodyBytes answers
  | bodyBytes, .interrupted :: answers => copyFrom bodyBytes answers
  | bodyBytes, .failed error :: _ => stop ⟨error, bodyBytes⟩

def writeTo (response : Response (List (Answer UInt8 SocketError))) (head : Bool)
    (connection : ConnectionDisposition) : Transfer ℕ := do
  writeHeaders response connection
  if head then pure 0 else copyFrom 0 response.body

/-- An open file: its contents, whether it can be positioned, and how it answers reads. -/
structure OpenFile where
  content : Bytes
  seek : Except SocketError Unit
  reads : List (Acceptance SocketError)

def copyCapacity : ℕ := 8 * 1024

def fileReads (file : OpenFile) (offset length : ℕ) : List (Answer UInt8 SocketError) :=
  limitedReads copyCapacity ((file.content.drop offset).length + file.reads.length + 1) length
    ⟨file.content.drop offset, file.reads⟩

def copyFileToStreamPortable (file : OpenFile) (offset length : ℕ) : Transfer ℕ := do
  mapError (fun error => ⟨error, 0⟩) (ofExcept file.seek)
  let copied ← copyFrom 0 (fileReads file offset length)
  if copied = length then pure copied else stop (truncatedBody copied)

inductive SendEnd where
  | complete
  | truncated
  | failed (error : SocketError)
  deriving DecidableEq, Repr

/-- The loop over `sendfile`: how it ended, what was sent, and the answers that are left. -/
def sendLoop : List (Acceptance SocketError) → Bytes → ℕ →
    SendEnd × Bytes × List (Acceptance SocketError)
  | answers, _, 0 => (.complete, [], answers)
  | [], data, remaining + 1 =>
    if remaining + 1 ≤ data.length then (.complete, data.take (remaining + 1), [])
    else (.truncated, data, [])
  | .interrupted :: answers, data, remaining + 1 => sendLoop answers data (remaining + 1)
  | .failed error :: answers, _, _ + 1 => (.failed error, [], answers)
  | .upTo count :: answers, data, remaining + 1 =>
    let sent := data.take (min count (remaining + 1))
    if sent = [] then (.truncated, [], answers)
    else
      let later := sendLoop answers (data.drop sent.length) (remaining + 1 - sent.length)
      (later.1, sent ++ later.2.1, later.2.2)

def sendfileUnavailable (error : SocketError) : Bool :=
  error.kind = .invalidInput ∨ error.kind = .unsupported

def i64Max : ℕ := 2 ^ 63 - 1

def sendFile (file : OpenFile) (offset length : ℕ) : Transfer (SendEnd × ℕ) :=
  update fun sink =>
    let sending := sendLoop sink.answers (file.content.drop offset) length
    ((sending.1, sending.2.1.length), ⟨sink.written ++ sending.2.1, sending.2.2⟩)

def copyFileToStreamLinux (file : OpenFile) (offset length : ℕ) : Transfer ℕ :=
  if i64Max < offset then stop ⟨⟨.invalidInput, "file offset is too large"⟩, 0⟩
  else do
    match ← sendFile file offset length with
    | (.complete, _) => pure length
    | (.truncated, sent) => stop (truncatedBody sent)
    | (.failed error, sent) =>
      if sendfileUnavailable error ∧ sent = 0 then copyFileToStreamPortable file offset length
      else stop ⟨error, sent⟩

def copyFileToStream (linux : Bool) (file : OpenFile) (offset length : ℕ) : Transfer ℕ :=
  if linux then copyFileToStreamLinux file offset length
  else copyFileToStreamPortable file offset length

structure CompletedTransfer where
  handedBack : Bool
  bodyBytes : ℕ
  deriving DecidableEq, Repr

def completed (connection : ConnectionDisposition) (bodyBytes : ℕ) : CompletedTransfer :=
  ⟨connection = .keepAlive, bodyBytes⟩

def respond (request : Request) (response : Response (List (Answer UInt8 SocketError))) :
    Transfer CompletedTransfer := do
  let connection := request.responseConnectionDisposition
  let bodyBytes ← writeTo response (request.head.method = .head) connection
  pure (completed connection bodyBytes)

def respondFile (linux : Bool) (request : Request)
    (response : Response (List (Answer UInt8 SocketError))) (file : OpenFile)
    (offset length : ℕ) : Transfer CompletedTransfer := do
  let connection := request.responseConnectionDisposition
  writeHeaders response connection
  let copy := if request.head.method = .head then pure 0 else copyFileToStream linux file offset length
  let bodyBytes ← copy
  pure (completed connection bodyBytes)

end HttpResponses
