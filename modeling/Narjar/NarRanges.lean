import Narjar.ResponseFraming

/-!
# Ranges of a NAR

A request for a NAR may ask for a range of its bytes. The length that the range is checked against
comes from one lookup, the body from another; both are parameters here.
-/
namespace NarRanges

open ByteCodecs NarFormat TextFields FaultyPrograms ByteStreams HttpRequests HttpResponses

inductive RequestedRange where
  | full
  | portion (start stop : ℕ)
  | unsatisfiable
  | invalid
  deriving DecidableEq, Repr

def parseRangeEnd (start : ℕ) (stop : Bytes) (length : ℕ) : RequestedRange :=
  if stop = [] then .portion start (length - 1)
  else
    match parseUnsigned u64Max stop with
    | none => .invalid
    | some stop => if stop < start then .unsatisfiable else .portion start (min stop (length - 1))

def parseStartingRange (start stop : Bytes) (length : ℕ) : RequestedRange :=
  match parseUnsigned u64Max start with
  | none => .invalid
  | some start => if length ≤ start then .unsatisfiable else parseRangeEnd start stop length

def parseSuffixRange (suffix : Bytes) (length : ℕ) : RequestedRange :=
  match parseUnsigned u64Max suffix with
  | none => .invalid
  | some suffixLength =>
    if suffixLength = 0 ∨ length = 0 then .unsatisfiable
    else .portion (length - suffixLength) (length - 1)

def bytesUnit : Bytes := ascii "bytes=".toList

def parseRangeValue (value : Bytes) (length : ℕ) : RequestedRange :=
  match value.dropPrefix? bytesUnit with
  | none => .invalid
  | some specification =>
    if 44 ∈ specification then .invalid
    else
      match splitOnce [45] specification with
      | none => .invalid
      | some (start, stop) =>
        if start = [] then parseSuffixRange stop length else parseStartingRange start stop length

def requestedRange (request : Request) (length : ℕ) : RequestedRange :=
  if request.head.method ≠ .get then .full
  else
    match request.head.headers.filter (named "Range") with
    | [] => .full
    | [header] => parseRangeValue header.value length
    | _ :: _ :: _ => .invalid

inductive NarResponseRange where
  | full (length : ℕ)
  | portion (start stop narLength : ℕ)
  deriving DecidableEq, Repr

def NarResponseRange.byteRange : NarResponseRange → ℕ × ℕ
  | .full length => (0, length)
  | .portion start stop _ => (start, stop + 1)

def NarResponseRange.contentLength : NarResponseRange → ℕ
  | .full length => length
  | .portion start stop _ => stop - start + 1

inductive ReadVisibility where
  | isPublic
  | isPrivate
  deriving DecidableEq, Repr

abbrev Body := List (Answer UInt8 SocketError)

def textHeader (name value : String)
    (valid : validateHeader (ascii name.toList) (ascii value.toList) = .ok ()) : ResponseHeader :=
  ⟨ascii name.toList, ascii value.toList, valid⟩

theorem valid_contentType : validateHeader (ascii "Content-Type".toList)
    (ascii "application/x-nix-nar".toList) = .ok () := by decide

theorem valid_cachePrivate : validateHeader (ascii "Cache-Control".toList)
    (ascii "private, no-store".toList) = .ok () := by decide

theorem valid_cachePublic : validateHeader (ascii "Cache-Control".toList)
    (ascii "public, max-age=31536000, immutable".toList) = .ok () := by decide

theorem valid_vary : validateHeader (ascii "Vary".toList)
    (ascii "Authorization".toList) = .ok () := by decide

theorem valid_acceptRanges : validateHeader (ascii "Accept-Ranges".toList)
    (ascii "bytes".toList) = .ok () := by decide

def cachePolicy (response : Response Body) : ReadVisibility → Response Body
  | .isPrivate =>
    (response.withHeader (textHeader "Cache-Control" "private, no-store" valid_cachePrivate)).withHeader
      (textHeader "Vary" "Authorization" valid_vary)
  | .isPublic =>
    response.withHeader
      (textHeader "Cache-Control" "public, max-age=31536000, immutable" valid_cachePublic)

def narResponse (status contentLength : ℕ) (visibility : ReadVisibility) (body : Body) :
    Response Body :=
  (cachePolicy ((Response.mk status [] body contentLength).withHeader
    (textHeader "Content-Type" "application/x-nix-nar" valid_contentType)) visibility).withHeader
    (textHeader "Accept-Ranges" "bytes" valid_acceptRanges)

def contentRangeName : Bytes := ascii "Content-Range".toList

def contentRangeValue (start stop narLength : ℕ) : Bytes :=
  ascii "bytes ".toList ++ decimal start ++ [45] ++ decimal stop ++ [47] ++ decimal narLength

def unsatisfiedRangeValue (narLength : ℕ) : Bytes := ascii "bytes */".toList ++ decimal narLength

/-- The characters of a content range that are not digits. -/
def rangeMarks : Bytes := ascii "bytes */-".toList

theorem allowed_marks :
    rangeMarks.all (fun byte => decide ¬((byte < 0x20 ∧ byte ≠ 9) ∨ byte = 0x7f)) = true := by
  decide

theorem valid_contentRange
    (h : ∀ byte ∈ value, isDigit byte ∨ byte ∈ rangeMarks) :
    validateHeader contentRangeName value = .ok () := by
  unfold validateHeader
  rw [if_neg (by decide), if_neg]
  intro ha
  obtain ⟨byte, hy, hb⟩ := List.any_eq_true.1 ha
  have hb := of_decide_eq_true hb
  rcases h byte hy with hi | hm
  · obtain ⟨hl, hh⟩ := of_decide_eq_true hi
    rcases hb with ⟨hs, -⟩ | hd
    · rw [UInt8.le_iff_toNat_le] at hl
      rw [UInt8.lt_iff_toNat_lt] at hs
      exact absurd (Nat.lt_of_le_of_lt hl hs) (by decide)
    · rw [hd] at hh
      exact absurd hh (by decide)
  · have hg := List.all_eq_true.1 allowed_marks byte hm
    exact absurd hb (of_decide_eq_true hg)

theorem isDigit_decimal (h : byte ∈ decimal n) : isDigit byte :=
  decide_eq_true (decimal_digit h)

theorem valid_contentRangeValue (start stop narLength : ℕ) :
    validateHeader contentRangeName (contentRangeValue start stop narLength) = .ok () := by
  apply valid_contentRange
  intro byte hb
  simp only [contentRangeValue, List.mem_append] at hb
  rcases hb with ((((ht | hn) | hd) | hn) | hs) | hn
  · exact .inr (List.mem_of_mem_take (i := 6) ht)
  · exact .inl (isDigit_decimal hn)
  · right
    rw [List.mem_singleton.1 hd]
    decide
  · exact .inl (isDigit_decimal hn)
  · right
    rw [List.mem_singleton.1 hs]
    decide
  · exact .inl (isDigit_decimal hn)

theorem valid_unsatisfiedRangeValue (narLength : ℕ) :
    validateHeader contentRangeName (unsatisfiedRangeValue narLength) = .ok () := by
  apply valid_contentRange
  intro byte hb
  rcases List.mem_append.1 hb with ht | hn
  · exact .inr (List.mem_of_mem_take (i := 8) ht)
  · exact .inl (isDigit_decimal hn)

def narRangeResponse (range : NarResponseRange) (contentLength : ℕ) (visibility : ReadVisibility)
    (body : Body) : Response Body :=
  match range with
  | .full _ => narResponse 200 contentLength visibility body
  | .portion start stop narLength =>
    (narResponse 206 contentLength visibility body).withHeader
      ⟨contentRangeName, contentRangeValue start stop narLength, valid_contentRangeValue _ _ _⟩

section Fields

variable (range : NarResponseRange) (contentLength : ℕ) (visibility : ReadVisibility) (body : Body)

@[simp] theorem narRangeResponse_body :
    (narRangeResponse range contentLength visibility body).body = body := by
  cases range <;> cases visibility <;> rfl

@[simp] theorem narRangeResponse_contentLength :
    (narRangeResponse range contentLength visibility body).contentLength = contentLength := by
  cases range <;> cases visibility <;> rfl

@[simp] theorem narRangeResponse_portion_status (start stop narLength : ℕ) :
    (narRangeResponse (.portion start stop narLength) contentLength visibility body).status = 206 := by
  cases visibility <;> rfl

theorem narRangeResponse_contentRange (start stop narLength : ℕ) :
    (narRangeResponse (.portion start stop narLength) contentLength visibility body).headers.filterMap
      (fun header => if header.name = contentRangeName then some header.value else none) =
      [contentRangeValue start stop narLength] := by
  cases visibility <;> rfl

end Fields

inductive Reply where
  | reader (response : Response Body)
  | file (response : Response Body) (file : OpenFile) (offset length : ℕ)

def Reply.response : Reply → Response Body
  | .reader response => response
  | .file response _ _ _ => response

def Reply.send (linux : Bool) (request : Request) : Reply → Transfer CompletedTransfer
  | .reader response => HttpResponses.respond request response
  | .file response opened offset length => respondFile linux request response opened offset length

inductive NarReadBody where
  | file (file : OpenFile)
  | chunked (reader : Body)

/-- What the storage answers: the size at one lookup, the body of a range at a later one. -/
structure NarLookups (ε : Type) where
  narSize : Except ε (Option ℕ)
  openNarRange : ℕ → ℕ → Except ε (Option NarReadBody)

section Respond

variable {ε : Type} (request : Request) (visibility : ReadVisibility) (lookups : NarLookups ε)

def notFound : Reply := .reader (.empty 404)

def internalError : Reply := .reader (.empty 500)

def respondUnsatisfiableNarRange (narLength : ℕ) : Reply :=
  .reader ((Response.empty 416).withHeader
    ⟨contentRangeName, unsatisfiedRangeValue narLength, valid_unsatisfiedRangeValue _⟩)

def respondInvalidNarRange : Reply := .reader (.empty 400)

def respondNarBytes (range : NarResponseRange) : Reply :=
  match lookups.openNarRange range.byteRange.1 range.byteRange.2 with
  | .error _ => internalError
  | .ok none => notFound
  | .ok (some (.file file)) =>
    .file (narRangeResponse range range.contentLength visibility []) file range.byteRange.1
      range.contentLength
  | .ok (some (.chunked reader)) =>
    .reader (narRangeResponse range range.contentLength visibility reader)

def respondNar : Reply :=
  match lookups.narSize with
  | .error _ => internalError
  | .ok none => notFound
  | .ok (some length) =>
    match requestedRange request length with
    | .full => respondNarBytes visibility lookups (.full length)
    | .portion start stop => respondNarBytes visibility lookups (.portion start stop length)
    | .unsatisfiable => respondUnsatisfiableNarRange length
    | .invalid => respondInvalidNarRange

end Respond

end NarRanges
