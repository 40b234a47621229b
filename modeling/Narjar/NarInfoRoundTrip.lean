import Narjar.NarInfoFingerprint
import Narjar.NarInfoTrust

/-!
# Narinfos read back

Every value that the writer puts on a line is ASCII without line ends, so the text falls apart
into the same lines. The parsers then agree on the document that those lines make, and each
field of it parses to the value it was written from.
-/
namespace NarInfo

open ByteCodecs NarFormat ManifestFormat ObjectNames TextFields List

variable {Key Signature : Type}

def isPlain (byte : UInt8) : Bool := byte < 0x80 && byte != newline && byte != 13

def Plain (text : Bytes) : Prop := ∀ byte ∈ text, isPlain byte = true

instance (text : Bytes) : Decidable (Plain text) :=
  decidable_of_iff (text.all isPlain = true) List.all_eq_true

def isBase64Byte (byte : UInt8) : Bool :=
  isAsciiAlphanumeric byte || (ascii ['+', '/', '=']).contains byte

theorem isPlain_of {P : UInt8 → Bool}
    (h : ∀ n < 256, P (UInt8.ofNat n) = true → isPlain (UInt8.ofNat n) = true) {byte : UInt8}
    (hb : P byte = true) : isPlain byte = true := by
  have hp := h byte.toNat byte.toNat_lt
  rw [UInt8.ofNat_toNat] at hp
  exact hp hb

theorem isPlain_of_storeName {byte : UInt8} (h : isStoreNameByte byte = true) :
    isPlain byte = true := isPlain_of (by decide +kernel) h

theorem isPlain_of_base64 {byte : UInt8} (h : isBase64Byte byte = true) : isPlain byte = true :=
  isPlain_of (by decide +kernel) h

theorem isPlain_of_hexdigit {byte : UInt8} (h : isAsciiHexdigit byte = true) :
    isPlain byte = true := isPlain_of (by decide +kernel) h

theorem isPlain_of_nix32 {byte : UInt8} (h : nix32Alphabet.contains byte = true) :
    isPlain byte = true := isPlain_of (by decide +kernel) h

section Plain

variable {front back : Bytes}

theorem Plain.append (hf : Plain front) (hb : Plain back) : Plain (front ++ back) := by
  intro byte hy
  rcases mem_append.1 hy with hm | hm
  · exact hf byte hm
  · exact hb byte hm

theorem plain_basename (path : NixStorePath) : Plain path.basename :=
  fun _ hb => isPlain_of_storeName (NixStorePath.mem_basename hb)

theorem plain_asStr (path : NixStorePath) : Plain path.asStr :=
  Plain.append (by decide) (plain_basename path)

theorem plain_encodeNix32 (digest : Digest) : Plain (encodeNix32 digest) :=
  fun _ hb => isPlain_of_nix32 (contains_iff_mem.2 (mem_encodeNix32 hb))

theorem plain_decimal (n : ℕ) : Plain (decimal n) := by
  intro byte hb
  have hd : isAsciiHexdigit byte = true := decide_eq_true (.inl (decimal_digit hb))
  exact isPlain_of_hexdigit hd

theorem plain_fileName (name : NarFileName) : Plain name.asStr := by
  have hs : ∀ encoding : WireEncoding, Plain encoding.suffix := by
    rintro (_ | (_ | _)) <;> decide
  exact Plain.append (plain_encodeNix32 _) (hs _)

theorem plain_compression (encoding : WireEncoding) : Plain encoding.compression := by
  rcases encoding with _ | (_ | _) <;> decide

theorem plain_referencesField (claims : NarInfoClaims) : Plain claims.referencesField := by
  intro byte hy
  rcases mem_intercalate hy with hb | ⟨text, ht, hm⟩
  · rw [hb]
    decide
  · obtain ⟨path, -, rfl⟩ := mem_map.1 ht
    exact plain_basename path byte hm

theorem plain_deriver (deriver : Deriver) : Plain deriver.narinfoValue := by
  cases deriver with
  | unknown => decide
  | storePath path => exact plain_basename path

end Plain

/-- What is assumed of the other crates: Base64 is read in its own alphabet only, and the place
of a payload is a relative reference. -/
structure Externals.Conforms (E : Externals Key Signature) : Prop where
  base64 : ∀ text, (E.decodeBase64 text).isSome = true → ∀ byte ∈ text, isBase64Byte byte = true
  uri : ∀ name : NarFileName, ∃ uri, E.parseUri (narDirectory ++ name.asStr) = some uri ∧
    uri.scheme = none ∧ uri.hasFragment = false

section Conforming

variable {E : Externals Key Signature}

theorem plain_base64 (hE : E.Conforms)
    (h : (E.decodeBase64 text).isSome = true) : Plain text :=
  fun byte hb => isPlain_of_base64 (hE.base64 text h byte hb)

theorem plain_signature (hE : E.Conforms) {value : Bytes}
    (h : (NamedSignature.parse E value).isSome = true) : Plain value := by
  obtain ⟨named, hn⟩ := Option.isSome_iff_exists.1 h
  obtain ⟨⟨name, encoded⟩, hs, hn⟩ := Option.bind_eq_some_iff.1 hn
  simp only at hn
  split_ifs at hn with hv
  obtain ⟨bytes, hy, -⟩ := Option.bind_eq_some_iff.1 hn
  have hm : Plain name := by
    have ha := hv.1
    rw [validName, Bool.and_eq_true, all_eq_true] at ha
    intro byte hb
    have hc := ha.2 byte hb
    revert hc
    exact isPlain_of (P := fun b => isAsciiAlphanumeric b || (ascii ['.', '_', '-']).contains b)
      (by decide +kernel)
  rw [splitOnce_eq_some hs]
  exact Plain.append hm (Plain.append (by decide) (plain_base64 hE (by rw [hy]; rfl)))

theorem plain_hash (hE : E.Conforms) {size : ℕ} {hash : Bytes}
    (h : validHash E size hash = true) : Plain hash := by
  simp only [validHash, Bool.or_eq_true, Bool.and_eq_true, all_eq_true] at h
  rcases h with (hh | hn) | ha
  · exact fun byte hb => isPlain_of_hexdigit (hh.2 byte hb)
  · exact fun byte hb => isPlain_of_nix32 (hn.2 byte hb)
  · obtain ⟨decoded, hd, -⟩ := (Option.any_eq_true _ _).1 ha
    exact plain_base64 hE (by rw [hd]; rfl)

theorem plain_algorithm (h : hashBytes algorithm = some size) :
    Plain algorithm := by
  simp only [hashBytes, lookup_cons, lookup_nil] at h
  split at h
  · next heq => rw [eq_of_beq heq]; decide
  · split at h
    · next heq => rw [eq_of_beq heq]; decide
    · split at h
      · next heq => rw [eq_of_beq heq]; decide
      · split at h
        · next heq => rw [eq_of_beq heq]; decide
        · split at h
          · next heq => rw [eq_of_beq heq]; decide
          · cases h

theorem plain_contentAddressRest (h : contentAddressRest value = some rest)
    (he : Plain rest) : Plain value := by
  unfold contentAddressRest at h
  split at h
  · next text ht =>
    rw [dropPrefix?_eq_some ht, Option.some.inj h]
    exact Plain.append (by decide) he
  · obtain ⟨fixed, hf, hm⟩ := Option.map_eq_some_iff.1 h
    rw [dropPrefix?_eq_some hf]
    refine Plain.append (by decide) ?_
    cases hr : fixed.dropPrefix? (ascii ['r', ':']) with
    | some body =>
      have hb : body = rest := by simpa [hr] using hm
      rw [dropPrefix?_eq_some hr, hb]
      exact Plain.append (by decide) he
    | none =>
      cases hg : fixed.dropPrefix? (ascii ['g', 'i', 't', ':']) with
      | some body =>
        have hb : body = rest := by simpa [hr, hg] using hm
        rw [dropPrefix?_eq_some hg, hb]
        exact Plain.append (by decide) he
      | none =>
        have hb : fixed = rest := by simpa [hr, hg] using hm
        rw [hb]
        exact he

theorem plain_contentAddress (hE : E.Conforms) (address : ContentAddress E) :
    Plain address.value := by
  obtain ⟨⟨algorithm, hash⟩, hp, hs⟩ := (Option.any_eq_true _ _).1 address.valid
  obtain ⟨rest, hr, hp⟩ := Option.bind_eq_some_iff.1 hp
  obtain ⟨size, hs, hh⟩ := (Option.any_eq_true _ _).1 hs
  refine plain_contentAddressRest hr ?_
  rw [splitOnce_eq_some hp]
  exact Plain.append (plain_algorithm hs) (Plain.append (by decide) (plain_hash hE hh))

end Conforming

theorem plain_fieldName (field : NarInfoLineField) : Plain field.name := by
  rcases field with (_ | _ | _ | _ | _ | _ | _ | _ | _ | _ | _) | _ <;> decide

theorem plain_fieldLine (h : Plain value) : Plain (fieldLine field value) :=
  Plain.append (plain_fieldName field) (Plain.append (by decide) h)

@[simp] theorem NarInfoLineField.parse_name (field : NarInfoLineField) :
    parse field.name = some field := by
  rcases field with (_ | _ | _ | _ | _ | _ | _ | _ | _ | _ | _) | _ <;> decide

theorem splitOnce_fieldLine (field : NarInfoLineField) (value : Bytes) :
    splitOnce NarInfoDocument.fieldSeparator (fieldLine field value) = some (field.name, value) := by
  have hc : (58 : UInt8) ∉ field.name := by
    rcases field with (_ | _ | _ | _ | _ | _ | _ | _ | _ | _ | _) | _ <;> decide
  exact splitOnce_append hc value

theorem readable_fieldLine (unknownFields : UnknownFieldHandling) (field : NarInfoLineField)
    (value : Bytes) : Readable unknownFields (fieldLine field value) :=
  ⟨field.name, value, splitOnce_fieldLine field value, .inr (by rw [field.parse_name]; rfl)⟩

theorem lineEntry_fieldLine (field : NarInfoLineField) (value : Bytes) :
    lineEntry (fieldLine field value) = some (field, value) := by
  simp [lineEntry, splitOnce_fieldLine]

theorem valuesOf_append (field : NarInfoLineField) (lines lines' : List Bytes) :
    valuesOf field (lines ++ lines') = valuesOf field lines ++ valuesOf field lines' :=
  filterMap_append

theorem valuesOf_fieldLine (field other : NarInfoLineField) (value : Bytes) (lines : List Bytes) :
    valuesOf other (fieldLine field value :: lines) =
      if field = other then value :: valuesOf other lines else valuesOf other lines :=
  NarInfoDocument.valuesOf_cons_some (lineEntry_fieldLine field value) other

theorem valuesOf_map {α : Type} (field other : NarInfoLineField) (f : α → Bytes) (xs : List α) :
    valuesOf other (xs.map fun x => fieldLine field (f x)) =
      if field = other then xs.map f else [] := by
  induction xs with
  | nil => simp [valuesOf]
  | cons x xs ih =>
    rw [map_cons, valuesOf_fieldLine, ih]
    by_cases hf : field = other
    · rw [if_pos hf, if_pos hf, if_pos hf, map_cons]
    · rw [if_neg hf, if_neg hf, if_neg hf]

namespace NarInfoMetadata

variable {E : Externals Key Signature} {metadata : NarInfoMetadata E}
variable {representation : NarRepresentation} {text : Bytes}

def document (metadata : NarInfoMetadata E) (representation : NarRepresentation) :
    NarInfoDocument where
  fields
    | .storePath => some metadata.claims.storePath.asStr
    | .url => some (narDirectory ++ representation.fileName.asStr)
    | .compression => some representation.fileName.encoding.compression
    | .fileHash => some (sha256Label ++ encodeNix32 representation.fileName.fileHash)
    | .fileSize => some (decimal representation.encodedSize)
    | .narHash => some (sha256Label ++ encodeNix32 metadata.claims.identity.hash)
    | .narSize => some (decimal metadata.claims.identity.size)
    | .references => some metadata.claims.referencesField
    | .deriver => metadata.deriver.map Deriver.narinfoValue
    | .system => none
    | .contentAddress => metadata.contentAddress.map ContentAddress.value
  signatureValues := metadata.signatures

theorem mem_lines (h : line ∈ metadata.lines representation) :
    ∃ field value, line = fieldLine field value := by
  simp only [lines, mem_append, mem_cons, mem_map, not_mem_nil, or_false] at h
  rcases h with (((rfl | rfl | rfl | rfl | rfl | rfl | rfl | rfl) | ⟨_, -, rfl⟩) | ⟨_, -, rfl⟩) |
    ⟨_, -, rfl⟩
  all_goals exact ⟨_, _, rfl⟩

theorem plain_lines (hE : E.Conforms)
    (hs : ∀ value ∈ metadata.signatures, (NamedSignature.parse E value).isSome = true) (h : line ∈ metadata.lines representation) : Plain line := by
  simp only [lines, mem_append, mem_cons, mem_map, not_mem_nil, or_false] at h
  rcases h with (((rfl | rfl | rfl | rfl | rfl | rfl | rfl | rfl) | ⟨value, hv, rfl⟩) |
    ⟨deriver, -, rfl⟩) | ⟨address, -, rfl⟩
  · exact plain_fieldLine (plain_asStr _)
  · exact plain_fieldLine (Plain.append (by decide) (plain_fileName _))
  · exact plain_fieldLine (plain_compression _)
  · exact plain_fieldLine (Plain.append (by decide) (plain_encodeNix32 _))
  · exact plain_fieldLine (plain_decimal _)
  · exact plain_fieldLine (Plain.append (by decide) (plain_encodeNix32 _))
  · exact plain_fieldLine (plain_decimal _)
  · exact plain_fieldLine (plain_referencesField _)
  · exact plain_fieldLine (plain_signature hE (hs value hv))
  · exact plain_fieldLine (plain_deriver deriver)
  · exact plain_fieldLine (plain_contentAddress hE address)

theorem valuesOf_lines (metadata : NarInfoMetadata E) (representation : NarRepresentation)
    (field : NarInfoField) :
    valuesOf (.unique field) (metadata.lines representation) =
      ((metadata.document representation).fields field).toList := by
  have hn : ∀ other, valuesOf other [] = [] := fun _ => rfl
  rw [lines, valuesOf_append, valuesOf_append, valuesOf_append, valuesOf_map, valuesOf_map,
    valuesOf_map]
  cases field with
  | deriver => cases hd : metadata.deriver <;> simp [valuesOf_fieldLine, document, hn, hd]
  | contentAddress =>
    cases ha : metadata.contentAddress <;> simp [valuesOf_fieldLine, document, hn, ha]
  | _ => simp [valuesOf_fieldLine, document, hn]

theorem signatures_lines (metadata : NarInfoMetadata E) (representation : NarRepresentation) :
    valuesOf .signature (metadata.lines representation) = metadata.signatures := by
  have hn : valuesOf .signature [] = [] := rfl
  rw [lines, valuesOf_append, valuesOf_append, valuesOf_append, valuesOf_map, valuesOf_map,
    valuesOf_map]
  simp [valuesOf_fieldLine, hn]

theorem foldlM_lines (metadata : NarInfoMetadata E) (representation : NarRepresentation)
    (unknownFields : UnknownFieldHandling) :
    (metadata.lines representation).foldlM (NarInfoDocument.recordLine unknownFields) .empty =
      some (metadata.document representation) := by
  refine NarInfoDocument.foldlM_recordLine.2 ⟨?_, ?_, ?_, (signatures_lines ..).symm⟩
  · intro line hl
    obtain ⟨field, value, rfl⟩ := mem_lines hl
    exact readable_fieldLine unknownFields field value
  · intro field
    rw [NarInfoDocument.collect_empty, valuesOf_lines]
    cases (metadata.document representation).fields field <;> simp
  · intro field
    rw [NarInfoDocument.collect_empty, valuesOf_lines]
    cases (metadata.document representation).fields field <;> rfl

theorem serialize_eq_some (h : metadata.serialize representation = some text) :
    representation.identity = metadata.claims.identity ∧
      text = unlines newline (metadata.lines representation) ∧ text.length ≤ maxNarinfoBytes := by
  unfold serialize at h
  split_ifs at h with hi
  simp only [write, Option.ite_none_right_eq_some, Option.some.injEq] at h
  obtain ⟨hl, rfl⟩ := h
  exact ⟨not_not.1 hi, rfl, hl⟩

theorem serialize_document (hE : E.Conforms)
    (hs : ∀ value ∈ metadata.signatures, (NamedSignature.parse E value).isSome = true)
    (h : metadata.serialize representation = some text) (unknownFields : UnknownFieldHandling) :
    parseNarinfoText text = some text ∧
      NarInfoDocument.parseWithUnknownFields text unknownFields =
        some (metadata.document representation) := by
  obtain ⟨-, rfl, he⟩ := serialize_eq_some h
  have hp : ∀ line ∈ metadata.lines representation, Plain line :=
    fun line hl => plain_lines hE hs hl
  have hne : metadata.lines representation ≠ [] := cons_ne_nil _ _
  have hf : NewlineFree (metadata.lines representation) := fun line hl hm =>
    absurd (hp line hl newline hm) (by decide)
  have hu : (metadata.lines representation).all validUtf8 = true := by
    refine all_eq_true.2 fun line hl => validUtf8_ascii fun byte hb => ?_
    have hb := hp line hl byte hb
    simp only [isPlain, Bool.and_eq_true, decide_eq_true_eq] at hb
    exact hb.1.1
  have hr : ∀ line ∈ metadata.lines representation, 13 ∉ line := fun line hl hm =>
    absurd (hp line hl 13 hm) (by decide)
  constructor
  · rw [parseNarinfoText_unlines, if_pos ⟨he, hu, hne, hr⟩]
  · rw [parseWithUnknownFields_unlines hne hf, foldlM_lines]

theorem parseHashField_encode (digest : Digest) :
    parseHashField (sha256Label ++ encodeNix32 digest) = some digest := by
  rw [parseHashField, dropPrefix?_append]
  exact decodeSha256_encodeNix32 digest

theorem parsePositive_decimal (hp : n ≠ 0) (h : n ≤ u64Max) :
    parsePositive (decimal n) = some n := by
  rw [parsePositive, parseUnsigned_decimal h]
  simp [hp]

theorem parseReferences_field (claims : NarInfoClaims) :
    parseReferences claims.referencesField = some claims.references := by
  by_cases hn : claims.references = []
  · simp [NarInfoClaims.referencesField, hn, parseReferences]
  · have hb : ∀ text ∈ claims.references.map NixStorePath.basename, (32 : UInt8) ∉ text := by
      intro text hx hm
      obtain ⟨path, -, rfl⟩ := mem_map.1 hx
      exact absurd (NixStorePath.mem_basename hm) (by decide)
    have ha : claims.references.map NixStorePath.basename ≠ [] := by simpa using hn
    have hs : claims.referencesField.splitOn 32 =
        claims.references.map NixStorePath.basename := splitOn_intercalate 32 hb ha
    have ht : (claims.references.map NixStorePath.basename).mapM NixStorePath.fromBasename =
        some claims.references := by
      generalize claims.references = references
      induction references with
      | nil => rfl
      | cons path references ih =>
        rw [map_cons, mapM_cons, NixStorePath.fromBasename_basename, ih]
        rfl
    have hne : claims.referencesField ≠ [] := by
      intro he
      rw [he, splitOn_nil] at hs
      have hm : [] ∈ claims.references.map NixStorePath.basename := by
        rw [← hs]
        exact mem_singleton_self _
      obtain ⟨path, -, hp⟩ := mem_map.1 hm
      have hl := congrArg List.length hp
      simp [NixStorePath.basename, path.store.length_bytes] at hl
    rw [parseReferences, if_neg hne, hs, ht, Option.map_some,
      sortReferences_of_sorted claims.sorted]

theorem fromNarinfoValue_narinfoValue (deriver : Deriver) :
    Deriver.fromNarinfoValue deriver.narinfoValue = some deriver := by
  cases deriver with
  | unknown => rfl
  | storePath path =>
    -- A basename is longer than the marker.
    have hne : path.basename ≠ unknownDeriver := by
      intro heq
      have hl := congrArg List.length heq
      have hm : unknownDeriver.length = 15 := rfl
      rw [NixStorePath.basename, length_append, path.store.length_bytes, hm] at hl
      omega
    rw [Deriver.narinfoValue, Deriver.fromNarinfoValue, if_neg hne,
      NixStorePath.fromBasename_basename]
    rfl

theorem contentAddress_parse (address : ContentAddress E) :
    ContentAddress.parse E address.value = some address := dif_pos address.valid

theorem optionalValue_map {α : Type} {f : α → Bytes} {parse : Bytes → Option α}
    (h : ∀ x, parse (f x) = some x) (value : Option α) :
    optionalValue (value.map f) parse = some value := by
  cases value with
  | none => rfl
  | some x => simp [optionalValue, h]

/-- The sizes are machine words and the NAR is not empty. -/
structure Sized (metadata : NarInfoMetadata E) (representation : NarRepresentation) : Prop where
  positive : metadata.claims.identity.size ≠ 0
  nar : metadata.claims.identity.size ≤ u64Max
  file : representation.encodedSize ≤ u64Max

theorem document_claims (h : Sized metadata representation) (handling : ReferencesFieldHandling) :
    NarInfoClaims.fromDocumentWithReferences metadata.claims.store
      (metadata.document representation) handling = some metadata.claims := by
  have hv : referencesValue (metadata.document representation) handling =
      some metadata.claims.referencesField := by
    cases handling <;> rfl
  have hr := parseReferences_field metadata.claims
  have ht : ¬metadata.claims.storePath.store ≠ metadata.claims.store := not_not.2 rfl
  rw [NarInfoClaims.fromDocumentWithReferences]
  simp only [document, NixStorePath.parse_asStr, parseHashField_encode,
    parsePositive_decimal h.positive h.nar, Option.bind_eq_bind, Option.bind_some]
  rw [if_neg ht]
  change (referencesValue (metadata.document representation) handling).bind _ = _
  rw [hv, Option.bind_some]
  split
  · next hn =>
    rw [hr] at hn
    cases hn
  · next references hs =>
    rw [hr] at hs
    cases hs
    rfl

theorem document_metadata (h : Sized metadata representation) :
    fromDocument E metadata.claims.store (metadata.document representation) = some metadata := by
  rw [fromDocument, NarInfoClaims.fromDocument, document_claims h, Option.bind_eq_bind,
    Option.bind_some]
  have hd : optionalValue ((metadata.document representation).fields .deriver)
      Deriver.fromNarinfoValue = some metadata.deriver :=
    optionalValue_map fromNarinfoValue_narinfoValue _
  have ha : optionalValue ((metadata.document representation).fields .contentAddress)
      (ContentAddress.parse E) = some metadata.contentAddress :=
    optionalValue_map contentAddress_parse _
  rw [fromDocumentClaims, hd, ha]
  rfl

theorem document_payload (h : Sized metadata representation)
    (hi : representation.identity = metadata.claims.identity) :
    (metadata.document representation).publicationPayload metadata.claims.identity =
      some representation := by
  simp only [NarInfoDocument.publicationPayload, document, Option.isSome_none, Bool.false_eq_true,
    if_false, Option.bind_eq_bind, Option.bind_some, dropPrefix?_append, NarFileName.parse_asStr,
    ne_eq, not_true_eq_false, parseHashField_encode, parseUnsigned_decimal h.file]
  rw [← hi]
  have hp := hi ▸ h.positive
  cases representation with
  | raw identity =>
    simp [representationFromNarinfoFields, NarRepresentation.fileName, NarFileName.raw,
      NarRepresentation.identity, NarRepresentation.encodedSize, validateRawNarinfoIdentity] at *
    exact hp
  | compressed encoded decoded =>
    simp [representationFromNarinfoFields, NarRepresentation.fileName,
      NarRepresentation.identity, NarRepresentation.encodedSize] at *
    exact hp

theorem document_transport (hE : E.Conforms) (h : Sized metadata representation) :
    (metadata.document representation).validateExternalTransport E =
      if representation.encodedSize = 0 then none else some () := by
  obtain ⟨uri, hu, hs, hr⟩ := hE.uri representation.fileName
  have ha : NarInfoDocument.acceptsUri uri = true := by
    simp [NarInfoDocument.acceptsUri, hs, hr]
  have hl : narDirectory ++ representation.fileName.asStr ≠ [] :=
    append_ne_nil_of_left_ne_nil (by decide) _
  have hh : (metadata.document representation).externalFileHash =
      some (some representation.fileName.fileHash) := by
    simp [NarInfoDocument.externalFileHash, document, optionalValue, parseHashField_encode]
  have hi : (metadata.document representation).externalFileSize =
      if representation.encodedSize = 0 then none else some (some representation.encodedSize) := by
    by_cases hz : representation.encodedSize = 0
    · rw [if_pos hz, NarInfoDocument.externalFileSize]
      simp [document, optionalValue, hz, parsePositive, parseUnsigned_decimal]
    · rw [if_neg hz, NarInfoDocument.externalFileSize]
      simp [document, optionalValue, parsePositive_decimal hz h.file]
  have hf : (metadata.document representation).fields .url =
      some (narDirectory ++ representation.fileName.asStr) := rfl
  have hc : (metadata.document representation).fields .compression =
      some representation.fileName.encoding.compression := rfl
  rw [NarInfoDocument.validateExternalTransport, hf, hc, hh, hi]
  simp only [Option.bind_eq_bind, Option.bind_some, if_neg hl, hu, ha,
    WireEncoding.fromStr_compression]
  by_cases hz : representation.encodedSize = 0
  · simp [hz]
  · simp [hz]

end NarInfoMetadata

theorem isSome_of_mapM {α β : Type} {f : α → Option β} {xs : List α} {ys : List β} {x : α}
    (h : xs.mapM f = some ys) (hx : x ∈ xs) : (f x).isSome = true := by
  induction xs generalizing ys with
  | nil => cases hx
  | cons y xs ih =>
    simp only [mapM_cons, Option.bind_eq_bind, Option.bind_eq_some_iff] at h
    obtain ⟨value, hv, rest, hr, -⟩ := h
    rcases mem_cons.1 hx with rfl | hm
    · rw [hv]
      rfl
    · exact ih hr hm

/-- A serialized narinfo reads back, in the strict parser if it is signed, and in the external
one if its file is not empty. -/
theorem serialize_reads_back (E : Externals Key Signature) (hE : E.Conforms)
    (metadata : NarInfoMetadata E) (representation : NarRepresentation) (text : Bytes)
    (signatures : List (NamedSignature Signature))
    (hsized : NarInfoMetadata.Sized metadata representation)
    (hsignatures : metadata.signatures.mapM (NamedSignature.parse E) = some signatures)
    (h : metadata.serialize representation = some text) :
    (UnverifiedPublicationNarInfo.parse E metadata.claims.store text =
      if metadata.signatures = [] then none else some ⟨metadata, representation, signatures⟩) ∧
    (NarInfoClaims.parseExternalPublication E metadata.claims.store text =
      if representation.encodedSize = 0 then none else some (metadata.claims, representation)) ∧
    ∃ document, NarInfoDocument.parseExternal text = some document ∧
      document.signatureValues = metadata.signatures := by
  have ha : ∀ value ∈ metadata.signatures,
      (NamedSignature.parse E value).isSome = true := fun value hv => isSome_of_mapM hsignatures hv
  obtain ⟨hi, -, -⟩ := NarInfoMetadata.serialize_eq_some h
  have hp := NarInfoMetadata.document_payload hsized hi
  obtain ⟨ht, hs⟩ := NarInfoMetadata.serialize_document hE ha h .reject
  obtain ⟨-, he⟩ := NarInfoMetadata.serialize_document hE ha h .ignore
  refine ⟨?_, ?_, metadata.document representation, he, rfl⟩
  · have hl : (metadata.document representation).namedSignatures E =
        if metadata.signatures = [] then none else some signatures := by
      rw [NarInfoDocument.namedSignatures, ← hsignatures]
      rfl
    rw [UnverifiedPublicationNarInfo.parse, ht]
    simp only [NarInfoDocument.parse, Option.bind_eq_bind, Option.bind_some, hs,
      NarInfoMetadata.document_metadata hsized, hp, hl]
    by_cases hn : metadata.signatures = []
    · rw [if_pos hn, if_pos hn, Option.bind_none]
    · rw [if_neg hn, if_neg hn, Option.bind_some]
  · have hc : NarInfoClaims.fromExternalDocument metadata.claims.store
        (metadata.document representation) = some metadata.claims :=
      NarInfoMetadata.document_claims hsized .missingMeansEmpty
    rw [NarInfoClaims.parseExternalPublication, ht]
    simp only [NarInfoDocument.parseExternal, Option.bind_eq_bind, Option.bind_some, he,
      NarInfoMetadata.document_transport hE hsized, hc, hp]
    by_cases hz : representation.encodedSize = 0
    · rw [if_pos hz, if_pos hz, Option.bind_none]
    · rw [if_neg hz, if_neg hz, Option.bind_some]

section Sample

theorem sampleExternals_conforms : sampleExternals.Conforms where
  base64 text h byte hb := by
    have ha : ∀ digit ∈ base64Alphabet, isBase64Byte digit = true := by decide +kernel
    obtain ⟨decoded, hd⟩ := Option.isSome_iff_exists.1 h
    obtain ⟨digits, hm, hd⟩ := Option.bind_eq_some_iff.1 (hd : paddedBase64 text = some decoded)
    simp only at hd
    split_ifs at hd with hg
    rw [hg.1] at hb
    rcases mem_append.1 hb with hb | hb
    · have hs := isSome_of_mapM hm hb
      exact ha byte (isSome_idxOf?.1 hs)
    · rw [eq_of_mem_replicate hb]
      rfl
  uri _ := ⟨_, rfl, rfl, rfl⟩

def sampleMetadata (signatures : List Bytes) : NarInfoMetadata sampleExternals where
  claims := ⟨samplePath, [], sampleIdentity, sorted_nil⟩
  deriver := none
  contentAddress := none
  signatures := signatures

theorem sampleSignature_parses :
    (sampleMetadata [sampleSignature]).signatures.mapM (NamedSignature.parse sampleExternals) =
      some [⟨ascii ['k'], sampleSigned⟩] := by
  decide +kernel

theorem sampleMetadata_reads_back :
    ∃ text, (sampleMetadata [sampleSignature]).serialize (.raw sampleIdentity) = some text ∧
      UnverifiedPublicationNarInfo.parse sampleExternals sampleRoute text =
        some ⟨sampleMetadata [sampleSignature], .raw sampleIdentity, [⟨ascii ['k'], sampleSigned⟩]⟩ ∧
      NarInfoClaims.parseExternalPublication sampleExternals sampleRoute text =
        some ((sampleMetadata [sampleSignature]).claims, .raw sampleIdentity) := by
  have hs : ((sampleMetadata [sampleSignature]).serialize (.raw sampleIdentity)).isSome = true := by
    decide +kernel
  obtain ⟨text, ht⟩ := Option.isSome_iff_exists.1 hs
  obtain ⟨hr, he, -⟩ := serialize_reads_back sampleExternals sampleExternals_conforms
    (sampleMetadata [sampleSignature]) (.raw sampleIdentity) text [⟨ascii ['k'], sampleSigned⟩]
    ⟨by decide, by decide, by decide⟩ sampleSignature_parses ht
  exact ⟨text, ht, hr, he⟩

/-- Without signatures the strict parser refuses the text, and with an empty file the external
one does. -/
theorem sampleMetadata_refused :
    ((sampleMetadata []).serialize (.raw sampleIdentity)).any (fun text =>
      (UnverifiedPublicationNarInfo.parse sampleExternals sampleRoute text).isNone) = true ∧
    ((sampleMetadata [sampleSignature]).serialize
        (.compressed ⟨.xz, sampleIdentity.hash, 0⟩ sampleIdentity)).any (fun text =>
      (NarInfoClaims.parseExternalPublication sampleExternals sampleRoute text).isNone) = true := by
  decide +kernel

end Sample

/-- Another cache accepts a serialized narinfo exactly if its file is not empty and one of its
signatures is good under a trusted key, and then finds the claims it was written from. -/
theorem serialized_narinfo_trusted_iff {E : Externals Key Signature} (hE : E.Conforms)
    {metadata : NarInfoMetadata E} (hsized : metadata.Sized representation)
    (hsignatures : metadata.signatures.mapM (NamedSignature.parse E) = some signatures)
    (h : metadata.serialize representation = some text) (keys : TrustedPublicKeys Key)
    (claims : NarInfoClaims) :
    keys.verifyExternalNarinfo E metadata.claims.store text = some claims ↔
      representation.encodedSize ≠ 0 ∧
        keys.verifies E metadata.claims.fingerprint signatures = true ∧ metadata.claims = claims := by
  obtain ⟨ht, he⟩ := NarInfoMetadata.serialize_document hE
    (fun value hv => isSome_of_mapM hsignatures hv) h .ignore
  have hc : NarInfoClaims.fromExternalDocument metadata.claims.store
      (metadata.document representation) = some metadata.claims :=
    NarInfoMetadata.document_claims hsized .missingMeansEmpty
  have hl : (metadata.document representation).namedSignatures E =
      if metadata.signatures = [] then none else some signatures := by
    rw [NarInfoDocument.namedSignatures, ← hsignatures]
    rfl
  simp only [TrustedPublicKeys.verifyExternalNarinfo, TrustedPublicKeys.verifyExternalDocument,
    NarInfoDocument.parseExternal, Option.bind_eq_bind, Option.bind_some, ht, he,
    NarInfoMetadata.document_transport hE hsized, hc, hl]
  by_cases hz : representation.encodedSize = 0
  · simp [hz]
  by_cases hs : metadata.signatures = []
  · -- Without a signature nothing is good under any key.
    rw [hs] at hsignatures
    cases hsignatures
    simp [hs, TrustedPublicKeys.verifies]
  · by_cases hv : keys.verifies E metadata.claims.fingerprint signatures = true
    · simp [hz, hs, hv]
    · simp [hz, hs, hv]

theorem sampleMetadata_trusted : ∃ text,
    TrustedPublicKeys.verifyExternalNarinfo sampleExternals sampleKeys sampleRoute text =
      some (sampleMetadata [sampleSignature]).claims := by
  have hs : ((sampleMetadata [sampleSignature]).serialize (.raw sampleIdentity)).isSome = true := by
    decide +kernel
  obtain ⟨text, ht⟩ := Option.isSome_iff_exists.1 hs
  have hi := serialized_narinfo_trusted_iff sampleExternals_conforms (by constructor <;> decide)
    sampleSignature_parses ht
  exact ⟨text, (hi _ _).2 ⟨by decide, by decide +kernel, rfl⟩⟩

end NarInfo
