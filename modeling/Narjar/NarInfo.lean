import Mathlib.Data.List.Destutter
import Mathlib.Data.List.Sort
import Narjar.ObjectNames

/-!
# Narinfo documents

A narinfo is a text of lines, each a field name, a colon with a blank, and a value. The strict
parser reads what a cache publishes, the external one what another cache answers. The error of
the source carries no data, so its results are options here. Base64, signatures and URI
references are parameters.
-/
namespace NarInfo

open ByteCodecs NarFormat ManifestFormat ObjectNames TextFields

def maxNarinfoBytes : ℕ := 1024 * 1024

def newline : UInt8 := 10

/-- What the code asks about a parsed URI reference. -/
structure UriRef where
  scheme : Option Bytes
  /-- The host of the authority, if there is an authority. -/
  host : Option Bytes
  hasFragment : Bool
  deriving DecidableEq

/-- The functions of other crates that the code calls. -/
structure Externals (Key Signature : Type) where
  decodeBase64 : Bytes → Option Bytes
  signatureFromSlice : Bytes → Option Signature
  verifyStrict : Key → Bytes → Signature → Bool
  parseUri : Bytes → Option UriRef

variable {Key Signature : Type}

def optionalValue {α : Type} (value : Option Bytes) (parse : Bytes → Option α) :
    Option (Option α) :=
  match value with
  | none => some none
  | some value => (parse value).map some

def unknownDeriver : Bytes :=
  ascii ['u', 'n', 'k', 'n', 'o', 'w', 'n', '-', 'd', 'e', 'r', 'i', 'v', 'e', 'r']

inductive Deriver where
  | unknown
  | storePath (path : NixStorePath)
  deriving DecidableEq

namespace Deriver

def narinfoValue : Deriver → Bytes
  | unknown => unknownDeriver
  | storePath path => path.basename

def fromNarinfoValue (value : Bytes) : Option Deriver :=
  if value = unknownDeriver then some .unknown
  else (NixStorePath.fromBasename value).map .storePath

end Deriver

/-- The text after the method of a content address: a hash algorithm and a hash. -/
def contentAddressRest (value : Bytes) : Option Bytes :=
  match value.dropPrefix? (ascii ['t', 'e', 'x', 't', ':']) with
  | some rest => some rest
  | none =>
    (value.dropPrefix? (ascii ['f', 'i', 'x', 'e', 'd', ':'])).map fun rest =>
      ((rest.dropPrefix? (ascii ['r', ':'])).or
        (rest.dropPrefix? (ascii ['g', 'i', 't', ':']))).getD rest

def hashBytes (algorithm : Bytes) : Option ℕ :=
  [(ascii ['m', 'd', '5'], 16), (ascii ['s', 'h', 'a', '1'], 20),
    (ascii ['b', 'l', 'a', 'k', 'e', '3'], 32), (ascii ['s', 'h', 'a', '2', '5', '6'], 32),
    (ascii ['s', 'h', 'a', '5', '1', '2'], 64)].lookup algorithm

def validHash (E : Externals Key Signature) (size : ℕ) (hash : Bytes) : Bool :=
  (hash.length == size * 2 && hash.all isAsciiHexdigit) ||
    (hash.length == (size * 8 + 4) / 5 && hash.all fun byte => nix32Alphabet.contains byte) ||
    (E.decodeBase64 hash).any fun decoded => decoded.length == size

def parseContentAddress (E : Externals Key Signature) (value : Bytes) : Bool :=
  ((contentAddressRest value).bind (splitOnce (ascii [':']))).any fun p =>
    (hashBytes p.1).any fun size => validHash E size p.2

structure ContentAddress (E : Externals Key Signature) where
  value : Bytes
  valid : parseContentAddress E value = true
  deriving DecidableEq

def ContentAddress.parse (E : Externals Key Signature) (value : Bytes) :
    Option (ContentAddress E) :=
  if h : parseContentAddress E value = true then some ⟨value, h⟩ else none

/-- References in the order of their texts, each once. -/
def sortReferences (references : List NixStorePath) : List NixStorePath :=
  (references.insertionSort fun p q => p.asStr ≤ q.asStr).destutter (· ≠ ·)

theorem sorted_sortReferences (references : List NixStorePath) :
    (sortReferences references).Pairwise fun p q => p.asStr < q.asStr := by
  have ho : Std.Total fun p q : NixStorePath => p.asStr ≤ q.asStr :=
    ⟨fun p q => List.le_total p.asStr q.asStr⟩
  have hr : IsTrans NixStorePath fun p q => p.asStr ≤ q.asStr :=
    ⟨fun _ _ _ hpq hqr => List.le_trans hpq hqr⟩
  have hs := (List.pairwise_insertionSort (fun p q : NixStorePath => p.asStr ≤ q.asStr)
    references).sublist (List.destutter_sublist (· ≠ ·) _)
  have hd := List.isChain_destutter (· ≠ ·)
    (references.insertionSort fun p q : NixStorePath => p.asStr ≤ q.asStr)
  have hl : Trans (fun p q : NixStorePath => p.asStr < q.asStr)
      (fun p q : NixStorePath => p.asStr < q.asStr)
      fun p q : NixStorePath => p.asStr < q.asStr := ⟨fun hpq hqr => List.lt_trans hpq hqr⟩
  have hc := hs.isChain
  rw [List.isChain_iff_forall_rel_of_append_cons_cons] at hc hd
  rw [← List.isChain_iff_pairwise, List.isChain_iff_forall_rel_of_append_cons_cons]
  intro p q front back heq
  exact Std.lt_of_le_of_ne (hc heq) fun ht => hd heq (NixStorePath.asStr_injective ht)

theorem sortReferences_of_sorted
    (h : references.Pairwise fun p q => p.asStr < q.asStr) :
    sortReferences references = references := by
  have hle := h.imp fun hlt => Std.le_of_lt hlt
  rw [sortReferences, hle.insertionSort_eq, List.destutter_of_isChain]
  refine h.isChain.imp fun p q hlt heq => ?_
  rw [heq] at hlt
  exact List.lt_irrefl _ hlt

@[ext] structure NarInfoClaims where
  storePath : NixStorePath
  references : List NixStorePath
  identity : NarIdentity
  sorted : references.Pairwise fun p q => p.asStr < q.asStr
  deriving DecidableEq

inductive LogicalClaimsMismatch where
  | storePath
  | narIdentity
  | references
  deriving DecidableEq

def sha256Label : Bytes := ascii ['s', 'h', 'a', '2', '5', '6', ':']

def buildFingerprint (storePath : Bytes) (narHash : Digest) (narSize : ℕ)
    (references : List Bytes) : Bytes :=
  ascii ['1', ';'] ++ storePath ++ ascii [';'] ++ sha256Label ++ encodeNix32 narHash ++
    ascii [';'] ++ decimal narSize ++ ascii [';'] ++
    (ascii [',']).intercalate (references.map fun reference => storePrefix ++ reference)

namespace NarInfoClaims

def ofReferences (storePath : NixStorePath) (references : List NixStorePath)
    (identity : NarIdentity) : NarInfoClaims :=
  ⟨storePath, sortReferences references, identity, sorted_sortReferences references⟩

def store (claims : NarInfoClaims) : StoreHash := claims.storePath.store

def referencesField (claims : NarInfoClaims) : Bytes :=
  (ascii [' ']).intercalate (claims.references.map NixStorePath.basename)

def fingerprint (claims : NarInfoClaims) : Bytes :=
  buildFingerprint claims.storePath.asStr claims.identity.hash claims.identity.size
    (claims.references.map NixStorePath.basename)

def compareLogicalClaims (claims other : NarInfoClaims) : Except LogicalClaimsMismatch Unit :=
  if claims.storePath ≠ other.storePath then .error .storePath
  else if claims.identity ≠ other.identity then .error .narIdentity
  else if claims.references ≠ other.references then .error .references
  else .ok ()

end NarInfoClaims

inductive NarInfoField where
  | storePath
  | url
  | compression
  | fileHash
  | fileSize
  | narHash
  | narSize
  | references
  | deriver
  | system
  | contentAddress
  deriving DecidableEq

def NarInfoField.name : NarInfoField → Bytes
  | storePath => ascii ['S', 't', 'o', 'r', 'e', 'P', 'a', 't', 'h']
  | url => ascii ['U', 'R', 'L']
  | compression => ascii ['C', 'o', 'm', 'p', 'r', 'e', 's', 's', 'i', 'o', 'n']
  | fileHash => ascii ['F', 'i', 'l', 'e', 'H', 'a', 's', 'h']
  | fileSize => ascii ['F', 'i', 'l', 'e', 'S', 'i', 'z', 'e']
  | narHash => ascii ['N', 'a', 'r', 'H', 'a', 's', 'h']
  | narSize => ascii ['N', 'a', 'r', 'S', 'i', 'z', 'e']
  | references => ascii ['R', 'e', 'f', 'e', 'r', 'e', 'n', 'c', 'e', 's']
  | deriver => ascii ['D', 'e', 'r', 'i', 'v', 'e', 'r']
  | system => ascii ['S', 'y', 's', 't', 'e', 'm']
  | contentAddress => ascii ['C', 'A']

inductive NarInfoLineField where
  | unique (field : NarInfoField)
  | signature
  deriving DecidableEq

namespace NarInfoLineField

def name : NarInfoLineField → Bytes
  | unique field => field.name
  | signature => ascii ['S', 'i', 'g']

def all : List NarInfoLineField :=
  [unique .storePath, unique .url, unique .compression, unique .fileHash, unique .fileSize,
    unique .narHash, unique .narSize, unique .references, unique .deriver, unique .system,
    unique .contentAddress, signature]

def parse (name : Bytes) : Option NarInfoLineField := all.find? fun field => field.name = name

end NarInfoLineField

inductive UnknownFieldHandling where
  | reject
  | ignore
  deriving DecidableEq

structure NarInfoDocument where
  fields : NarInfoField → Option Bytes
  signatureValues : List Bytes

namespace NarInfoDocument

def empty : NarInfoDocument := ⟨fun _ => none, []⟩

def recordField (document : NarInfoDocument) (field : NarInfoLineField) (value : Bytes) :
    Option NarInfoDocument :=
  match field with
  | .signature => some { document with signatureValues := document.signatureValues ++ [value] }
  | .unique field =>
    match document.fields field with
    | none => some { document with fields := Function.update document.fields field (some value) }
    | some _ => none

def fieldSeparator : Bytes := ascii [':', ' ']

def recordLine (unknownFields : UnknownFieldHandling) (document : NarInfoDocument) (line : Bytes) :
    Option NarInfoDocument := do
  let (name, value) ← splitOnce fieldSeparator line
  match NarInfoLineField.parse name, unknownFields with
  | none, .reject => none
  | none, .ignore => some document
  | some field, _ => document.recordField field value

def parseWithUnknownFields (text : Bytes) (unknownFields : UnknownFieldHandling) :
    Option NarInfoDocument := do
  let body ← text.dropSuffix? [newline]
  (body.splitOn newline).foldlM (recordLine unknownFields) empty

def parse (text : Bytes) : Option NarInfoDocument := parseWithUnknownFields text .reject

def parseExternal (text : Bytes) : Option NarInfoDocument := parseWithUnknownFields text .ignore

end NarInfoDocument

def parseNarinfoText (bytes : Bytes) : Option Bytes :=
  if bytes.length ≤ maxNarinfoBytes ∧ validUtf8 bytes = true ∧
      bytes.getLast? = some newline ∧ 13 ∉ bytes then some bytes
  else none

def parseReferences (value : Bytes) : Option (List NixStorePath) :=
  if value = [] then some []
  else ((value.splitOn 32).mapM NixStorePath.fromBasename).map sortReferences

theorem sorted_parseReferences
    (h : parseReferences value = some references) :
    references.Pairwise fun p q => p.asStr < q.asStr := by
  unfold parseReferences at h
  split_ifs at h
  · rw [← Option.some.inj h]
    exact .nil
  · obtain ⟨paths, -, hp⟩ := Option.map_eq_some_iff.1 h
    rw [← hp]
    exact sorted_sortReferences paths

inductive ReferencesFieldHandling where
  | required
  | missingMeansEmpty
  deriving DecidableEq

def referencesValue (document : NarInfoDocument) :
    ReferencesFieldHandling → Option Bytes
  | .required => document.fields .references
  | .missingMeansEmpty => some ((document.fields .references).getD [])

def parseHashField (value : Bytes) : Option Digest := do
  let hash ← value.dropPrefix? sha256Label
  decodeSha256 hash

def parsePositive (value : Bytes) : Option ℕ := (parseUnsigned u64Max value).filter (· ≠ 0)

def NarInfoClaims.fromDocumentWithReferences (route : StoreHash) (document : NarInfoDocument)
    (referencesHandling : ReferencesFieldHandling) : Option NarInfoClaims := do
  let storePath ← NixStorePath.parse (← document.fields .storePath)
  if storePath.store ≠ route then none
  else
    let narHash ← parseHashField (← document.fields .narHash)
    let narSize ← parsePositive (← document.fields .narSize)
    let value ← referencesValue document referencesHandling
    match h : parseReferences value with
    | none => none
    | some references => some ⟨storePath, references, ⟨narHash, narSize⟩, sorted_parseReferences h⟩

def NarInfoClaims.fromDocument (route : StoreHash) (document : NarInfoDocument) :
    Option NarInfoClaims :=
  fromDocumentWithReferences route document .required

def NarInfoClaims.fromExternalDocument (route : StoreHash) (document : NarInfoDocument) :
    Option NarInfoClaims :=
  fromDocumentWithReferences route document .missingMeansEmpty

def narDirectory : Bytes := ascii ['n', 'a', 'r', '/']

def validateRawNarinfoIdentity (fileHash : Digest) (fileSize : ℕ) (identity : NarIdentity) :
    Option NarRepresentation :=
  if fileHash = identity.hash ∧ fileSize = identity.size then some (.raw identity) else none

def representationFromNarinfoFields (fileName : NarFileName) (fileHash : Digest) (fileSize : ℕ)
    (identity : NarIdentity) : Option NarRepresentation :=
  if fileName.fileHash ≠ fileHash ∨ identity.size = 0 then none
  else
    match fileName.encoding with
    | .raw => validateRawNarinfoIdentity fileHash fileSize identity
    | .compressed codec => some (.compressed ⟨codec, fileHash, fileSize⟩ identity)

structure ExternalNarInfoTransport where
  downloadUrl : Bytes
  payload : NarRepresentation
  deriving DecidableEq

namespace NarInfoDocument

def publicationPayload (document : NarInfoDocument) (identity : NarIdentity) :
    Option NarRepresentation :=
  if (document.fields .system).isSome then none
  else do
    let fileName ← NarFileName.parse (← (← document.fields .url).dropPrefix? narDirectory)
    if (← document.fields .compression) ≠ fileName.encoding.compression then none
    else
      let fileHash ← parseHashField (← document.fields .fileHash)
      let fileSize ← parseUnsigned u64Max (← document.fields .fileSize)
      representationFromNarinfoFields fileName fileHash fileSize identity

def externalFileHash (document : NarInfoDocument) : Option (Option Digest) :=
  optionalValue (document.fields .fileHash) parseHashField

def externalFileSize (document : NarInfoDocument) : Option (Option ℕ) :=
  optionalValue (document.fields .fileSize) parsePositive

/-- The payload of a transport; raw payloads must repeat the identity if they state one. -/
def transportPayload (encoding : WireEncoding) (fileHash : Option Digest) (fileSize : Option ℕ)
    (identity : NarIdentity) : Option NarRepresentation :=
  match encoding, fileHash, fileSize with
  | .raw, _, _ =>
    if fileHash.any (· ≠ identity.hash) ∨ fileSize.any (· ≠ identity.size) then none
    else some (.raw identity)
  | .compressed codec, some hash, some size => some (.compressed ⟨codec, hash, size⟩ identity)
  | .compressed _, _, _ => none

def externalTransport (document : NarInfoDocument) (identity : NarIdentity) :
    Option ExternalNarInfoTransport := do
  let downloadUrl ← document.fields .url
  let encoding ← WireEncoding.fromStr (← document.fields .compression)
  let fileHash ← document.externalFileHash
  let fileSize ← document.externalFileSize
  let payload ← transportPayload encoding fileHash fileSize identity
  some ⟨downloadUrl, payload⟩

def httpSchemes : List Bytes := [ascii ['h', 't', 't', 'p'], ascii ['h', 't', 't', 'p', 's']]

/-- A relative reference, or an HTTP one with a host; never with a fragment. -/
def acceptsUri (uri : UriRef) : Bool :=
  !uri.hasFragment && uri.scheme.all (httpSchemes.contains ·) &&
    (uri.scheme.isNone || uri.host.any fun host => !host.isEmpty)

def validateExternalTransport (E : Externals Key Signature) (document : NarInfoDocument) :
    Option Unit := do
  let url ← document.fields .url
  if url = [] then none
  else
    let uri ← E.parseUri url
    if acceptsUri uri = false then none
    else
      let _ ← WireEncoding.fromStr (← document.fields .compression)
      let fileHash ← document.externalFileHash
      let fileSize ← document.externalFileSize
      if fileHash.isSome = fileSize.isSome then some () else none

end NarInfoDocument

def validName (name : Bytes) : Bool :=
  !name.isEmpty && name.all fun byte =>
    isAsciiAlphanumeric byte || (ascii ['.', '_', '-']).contains byte

structure NamedSignature (Signature : Type) where
  name : Bytes
  signature : Signature
  deriving DecidableEq

def NamedSignature.parse (E : Externals Key Signature) (value : Bytes) :
    Option (NamedSignature Signature) := do
  let (name, encoded) ← splitOnce (ascii [':']) value
  if validName name = true ∧ encoded ≠ [] then
    let bytes ← E.decodeBase64 encoded
    let signature ← E.signatureFromSlice bytes
    some ⟨name, signature⟩
  else none

def NarInfoDocument.namedSignatures (E : Externals Key Signature) (document : NarInfoDocument) :
    Option (List (NamedSignature Signature)) :=
  if document.signatureValues = [] then none
  else document.signatureValues.mapM (NamedSignature.parse E)

structure NarInfoMetadata (E : Externals Key Signature) where
  claims : NarInfoClaims
  deriver : Option Deriver
  contentAddress : Option (ContentAddress E)
  signatures : List Bytes
  deriving DecidableEq

def fieldLine (field : NarInfoLineField) (value : Bytes) : Bytes :=
  field.name ++ (NarInfoDocument.fieldSeparator ++ value)

namespace NarInfoMetadata

variable {E : Externals Key Signature}

def fromDocumentClaims (E : Externals Key Signature) (claims : NarInfoClaims)
    (document : NarInfoDocument) : Option (NarInfoMetadata E) := do
  let deriver ← optionalValue (document.fields .deriver) Deriver.fromNarinfoValue
  let contentAddress ← optionalValue (document.fields .contentAddress) (ContentAddress.parse E)
  some ⟨claims, deriver, contentAddress, document.signatureValues⟩

def fromDocument (E : Externals Key Signature) (route : StoreHash) (document : NarInfoDocument) :
    Option (NarInfoMetadata E) := do
  let claims ← NarInfoClaims.fromDocument route document
  fromDocumentClaims E claims document

def lines (metadata : NarInfoMetadata E) (representation : NarRepresentation) : List Bytes :=
  [fieldLine (.unique .storePath) metadata.claims.storePath.asStr,
    fieldLine (.unique .url) (narDirectory ++ representation.fileName.asStr),
    fieldLine (.unique .compression) representation.fileName.encoding.compression,
    fieldLine (.unique .fileHash) (sha256Label ++ encodeNix32 representation.fileName.fileHash),
    fieldLine (.unique .fileSize) (decimal representation.encodedSize),
    fieldLine (.unique .narHash) (sha256Label ++ encodeNix32 metadata.claims.identity.hash),
    fieldLine (.unique .narSize) (decimal metadata.claims.identity.size),
    fieldLine (.unique .references) metadata.claims.referencesField] ++
  metadata.signatures.map (fieldLine .signature) ++
  metadata.deriver.toList.map (fun deriver => fieldLine (.unique .deriver) deriver.narinfoValue) ++
  metadata.contentAddress.toList.map fun address =>
    fieldLine (.unique .contentAddress) address.value

def write (metadata : NarInfoMetadata E) (representation : NarRepresentation) : Option Bytes :=
  let text := unlines newline (metadata.lines representation)
  if text.length ≤ maxNarinfoBytes then some text else none

def serialize (metadata : NarInfoMetadata E) (representation : NarRepresentation) :
    Option Bytes :=
  if representation.identity ≠ metadata.claims.identity then none
  else metadata.write representation

end NarInfoMetadata

section Parsers

variable (E : Externals Key Signature)

def NarInfoClaims.parseExternalPublication (route : StoreHash) (bytes : Bytes) :
    Option (NarInfoClaims × NarRepresentation) := do
  let text ← parseNarinfoText bytes
  let document ← NarInfoDocument.parseExternal text
  document.validateExternalTransport E
  let claims ← NarInfoClaims.fromExternalDocument route document
  let payload ← document.publicationPayload claims.identity
  some (claims, payload)

def NarInfoClaims.matchesExternalPublication (claims : NarInfoClaims) (bytes : Bytes)
    (output : NarRepresentation) : Bool :=
  (NarInfoClaims.parseExternalPublication E claims.store bytes).any fun (found, payload) =>
    claims.compareLogicalClaims found = .ok () ∧ payload = output

structure UnverifiedPublicationNarInfo where
  metadata : NarInfoMetadata E
  payload : NarRepresentation
  signatures : List (NamedSignature Signature)

def UnverifiedPublicationNarInfo.parse (route : StoreHash) (bytes : Bytes) :
    Option (UnverifiedPublicationNarInfo E) := do
  let text ← parseNarinfoText bytes
  let document ← NarInfoDocument.parse text
  let metadata ← NarInfoMetadata.fromDocument E route document
  let payload ← document.publicationPayload metadata.claims.identity
  let signatures ← document.namedSignatures E
  some ⟨metadata, payload, signatures⟩

end Parsers

abbrev TrustedPublicKeys (Key : Type) := Bytes → Option Key

inductive PublishedNarInfoError where
  | malformed
  | untrustedSignature
  deriving DecidableEq

structure ValidatedNarInfo (E : Externals Key Signature) where
  metadata : NarInfoMetadata E
  payload : NarRepresentation
  deriving DecidableEq

structure SignatureVerifiedExternalNarInfo (E : Externals Key Signature) where
  publication : ValidatedNarInfo E
  downloadUrl : Bytes
  deriving DecidableEq

namespace TrustedPublicKeys

variable (E : Externals Key Signature) (keys : TrustedPublicKeys Key)

def verifies (fingerprint : Bytes) (signatures : List (NamedSignature Signature)) : Bool :=
  signatures.any fun signature =>
    (keys signature.name).any fun key => E.verifyStrict key fingerprint signature.signature

def inspect (route : StoreHash) (bytes : Bytes) : Except PublishedNarInfoError (ValidatedNarInfo E) :=
  match UnverifiedPublicationNarInfo.parse E route bytes with
  | none => .error .malformed
  | some narinfo =>
    if verifies E keys narinfo.metadata.claims.fingerprint narinfo.signatures = false then
      .error .untrustedSignature
    else .ok ⟨narinfo.metadata, narinfo.payload⟩

def verifyExternalDocument (route : StoreHash) (text : Bytes) :
    Option (NarInfoDocument × NarInfoClaims) := do
  let document ← NarInfoDocument.parseExternal text
  document.validateExternalTransport E
  let claims ← NarInfoClaims.fromExternalDocument route document
  let signatures ← document.namedSignatures E
  if verifies E keys claims.fingerprint signatures = false then none
  else some (document, claims)

def verifyExternalNarinfo (route : StoreHash) (bytes : Bytes) : Option NarInfoClaims := do
  let text ← parseNarinfoText bytes
  let (_, claims) ← verifyExternalDocument E keys route text
  some claims

def verifyExternalNarinfoForTransfer (route : StoreHash) (bytes : Bytes) :
    Option (SignatureVerifiedExternalNarInfo E) := do
  let text ← parseNarinfoText bytes
  let (document, claims) ← verifyExternalDocument E keys route text
  let metadata ← NarInfoMetadata.fromDocumentClaims E claims document
  let transport ← document.externalTransport metadata.claims.identity
  some ⟨⟨metadata, transport.payload⟩, transport.downloadUrl⟩

end TrustedPublicKeys

end NarInfo
