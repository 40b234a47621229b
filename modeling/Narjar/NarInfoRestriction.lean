import Narjar.NarInfoRoundTrip

/-!
# The strict narinfo parser and the external one

Both parsers read a publication with the same payload rules, but the external one also checks
the transport on its own. A text that the strict parser accepts passes that check as well, except
when it states an empty file.
-/
namespace NarInfo

open ByteCodecs NarFormat ObjectNames TextFields Option

variable {Key Signature : Type} {E : Externals Key Signature}

namespace NarInfoDocument

variable {document document' : NarInfoDocument} {text : Bytes}

theorem recordLine_external
    (h : document.recordLine .reject line = some document') :
    document.recordLine .ignore line = some document' := by
  obtain ⟨⟨name, value⟩, hs, h⟩ := bind_eq_some_iff.1 h
  refine bind_eq_some_iff.2 ⟨(name, value), hs, ?_⟩
  cases hn : NarInfoLineField.parse name with
  | none =>
    simp only [hn] at h
    cases h
  | some field =>
    simp only [hn] at h ⊢
    exact h

theorem foldlM_external {lines : List Bytes}
    (h : lines.foldlM (recordLine .reject) document = some document') :
    lines.foldlM (recordLine .ignore) document = some document' := by
  induction lines generalizing document with
  | nil => exact h
  | cons line lines ih =>
    rw [List.foldlM_cons] at h ⊢
    obtain ⟨next, hl, hr⟩ := bind_eq_some_iff.1 h
    exact bind_eq_some_iff.2 ⟨next, recordLine_external hl, ih hr⟩

/-- Unknown fields are the only thing that the external parser reads differently. -/
theorem parseExternal_of_parse (h : parse text = some document) :
    parseExternal text = some document := by
  obtain ⟨body, hb, h⟩ := bind_eq_some_iff.1 h
  exact bind_eq_some_iff.2 ⟨body, hb, foldlM_external h⟩

/-- The fields that a publication must have, with the values its payload is made of. -/
structure States (document : NarInfoDocument) (fileName : NarFileName) (fileSize : ℕ) : Prop where
  url : document.fields .url = some (narDirectory ++ fileName.asStr)
  compression : document.fields .compression = some fileName.encoding.compression
  hash : ∃ value fileHash, document.fields .fileHash = some value ∧
    parseHashField value = some fileHash
  size : ∃ value, document.fields .fileSize = some value ∧
    parseUnsigned u64Max value = some fileSize

theorem states_of_publicationPayload
    (h : document.publicationPayload identity = some payload) :
    ∃ fileName fileSize, document.States fileName fileSize := by
  rw [publicationPayload] at h
  split_ifs at h
  obtain ⟨url, hu, h⟩ := bind_eq_some_iff.1 h
  obtain ⟨name, hn, h⟩ := bind_eq_some_iff.1 h
  obtain ⟨fileName, hi, h⟩ := bind_eq_some_iff.1 h
  obtain ⟨compression, hc, h⟩ := bind_eq_some_iff.1 h
  split_ifs at h with he
  obtain ⟨hash, hh, h⟩ := bind_eq_some_iff.1 h
  obtain ⟨fileHash, hf, h⟩ := bind_eq_some_iff.1 h
  obtain ⟨size, hs, h⟩ := bind_eq_some_iff.1 h
  obtain ⟨fileSize, hl, -⟩ := bind_eq_some_iff.1 h
  refine ⟨fileName, fileSize, ?_, ?_, ⟨hash, fileHash, hh, hf⟩, size, hs, hl⟩
  · rw [hu, NarFileName.asStr_of_parse hi]
    exact congrArg some (dropPrefix?_eq_some hn)
  · rw [hc, not_not.1 he]

theorem validateExternalTransport_states (hE : E.Conforms)
    (h : document.States fileName fileSize) :
    document.validateExternalTransport E = if fileSize = 0 then none else some () := by
  obtain ⟨uri, hu, hs, hr⟩ := hE.uri fileName
  have ha : acceptsUri uri = true := by
    simp [acceptsUri, hs, hr]
  have hl : narDirectory ++ fileName.asStr ≠ [] := List.append_ne_nil_of_left_ne_nil (by decide) _
  obtain ⟨hash, fileHash, hh, hf⟩ := h.hash
  obtain ⟨size, hsi, hi⟩ := h.size
  have he : document.externalFileHash = some (some fileHash) := by
    rw [externalFileHash, hh, optionalValue, hf, map_some]
  have hx : document.externalFileSize = if fileSize = 0 then none else some (some fileSize) := by
    rw [externalFileSize, hsi, optionalValue, parsePositive, hi]
    by_cases hz : fileSize = 0
    · simp [hz]
    · simp [hz]
  rw [validateExternalTransport, h.url, h.compression, he, hx]
  simp only [bind_eq_bind, bind_some, if_neg hl, hu, ha, WireEncoding.fromStr_compression]
  by_cases hz : fileSize = 0
  · simp [hz]
  · simp [hz]

end NarInfoDocument

theorem fromExternalDocument_of_fromDocument (h : NarInfoClaims.fromDocument route document = some claims) :
    NarInfoClaims.fromExternalDocument route document = some claims := by
  have hr : ∀ value, referencesValue document .required = some value →
      referencesValue document .missingMeansEmpty = some value := by
    intro value hv
    have hf : document.fields .references = some value := hv
    rw [referencesValue, hf, getD_some]
  rw [NarInfoClaims.fromDocument, NarInfoClaims.fromDocumentWithReferences] at h
  rw [NarInfoClaims.fromExternalDocument, NarInfoClaims.fromDocumentWithReferences]
  cases hv : referencesValue document .required with
  | some value => simpa only [hv, hr value hv] using h
  | none => simp [hv] at h

theorem claims_of_fromDocument
    (h : NarInfoMetadata.fromDocument E route document = some metadata) :
    ∃ claims, NarInfoClaims.fromDocument route document = some claims ∧
      metadata.claims = claims := by
  obtain ⟨claims, hc, h⟩ := bind_eq_some_iff.1 h
  obtain ⟨deriver, -, h⟩ := bind_eq_some_iff.1 h
  obtain ⟨address, -, h⟩ := bind_eq_some_iff.1 h
  cases Option.some.inj h
  exact ⟨claims, hc, rfl⟩

/-- The `FileSize` line of a text does not state an empty file. -/
def StatesFile (text : Bytes) : Prop :=
  ∀ document, NarInfoDocument.parse text = some document →
    ∀ value, document.fields .fileSize = some value → parseUnsigned u64Max value ≠ some 0

theorem statesFile_iff (h : NarInfoDocument.parse text = some document)
    (ht : document.States fileName fileSize) : StatesFile text ↔ fileSize ≠ 0 := by
  obtain ⟨value, hv, hs⟩ := ht.size
  constructor
  · intro hf hz
    exact hf document h value hv (hs.trans (congrArg some hz))
  · intro hne document' h' value' hv' hz
    cases Option.some.inj (h.symm.trans h')
    cases Option.some.inj (hv.symm.trans hv')
    exact hne (Option.some.inj (hs.symm.trans hz))

/-- A text of the strict parser is read alike by the external one, if it states a file. -/
theorem external_publication_iff (E : Externals Key Signature) (hE : E.Conforms)
    (route : StoreHash) (bytes : Bytes) (narinfo : UnverifiedPublicationNarInfo E)
    (h : UnverifiedPublicationNarInfo.parse E route bytes = some narinfo) :
    NarInfoClaims.parseExternalPublication E route bytes =
        some (narinfo.metadata.claims, narinfo.payload) ↔ StatesFile bytes := by
  obtain ⟨text, he, h⟩ := bind_eq_some_iff.1 h
  obtain ⟨document, hd, h⟩ := bind_eq_some_iff.1 h
  obtain ⟨metadata, hm, h⟩ := bind_eq_some_iff.1 h
  obtain ⟨payload, hp, h⟩ := bind_eq_some_iff.1 h
  obtain ⟨signatures, -, h⟩ := bind_eq_some_iff.1 h
  cases Option.some.inj h
  obtain ⟨claims, hc, hs⟩ := claims_of_fromDocument hm
  obtain ⟨fileName, fileSize, ht⟩ := NarInfoDocument.states_of_publicationPayload hp
  rw [hs] at hp
  cases eq_of_parseNarinfoText he
  rw [statesFile_iff hd ht, NarInfoClaims.parseExternalPublication, he]
  simp only [bind_eq_bind, bind_some,
    NarInfoDocument.parseExternal_of_parse hd,
    NarInfoDocument.validateExternalTransport_states hE ht,
    fromExternalDocument_of_fromDocument hc, hp, hs]
  by_cases hz : fileSize = 0
  · simp [hz]
  · simp [hz]

section Sample

def sampleText (payload : NarRepresentation) : Bytes :=
  ((sampleMetadata [sampleSignature]).serialize payload).getD []

theorem compressedSample_read_alike :
    ∃ narinfo, UnverifiedPublicationNarInfo.parse sampleExternals sampleRoute
        (sampleText (.compressed ⟨.xz, sampleIdentity.hash, 1⟩ sampleIdentity)) = some narinfo ∧
      NarInfoClaims.parseExternalPublication sampleExternals sampleRoute
        (sampleText (.compressed ⟨.xz, sampleIdentity.hash, 1⟩ sampleIdentity)) =
          some (narinfo.metadata.claims, narinfo.payload) := by
  have hs : (UnverifiedPublicationNarInfo.parse sampleExternals sampleRoute
      (sampleText (.compressed ⟨.xz, sampleIdentity.hash, 1⟩ sampleIdentity))).isSome = true := by
    decide +kernel
  obtain ⟨narinfo, hn⟩ := isSome_iff_exists.1 hs
  refine ⟨narinfo, hn, (external_publication_iff sampleExternals sampleExternals_conforms
    sampleRoute _ narinfo hn).2 ?_⟩
  intro document hd value hv
  have hf : (NarInfoDocument.parse
      (sampleText (.compressed ⟨.xz, sampleIdentity.hash, 1⟩ sampleIdentity))).all (fun document =>
        (document.fields .fileSize).all fun value => parseUnsigned u64Max value ≠ some 0) = true := by
    decide +kernel
  rw [hd, all_some, hv, all_some] at hf
  exact of_decide_eq_true hf

/-- The strict parser accepts a compressed publication of an empty file. -/
theorem emptyFile_read_by_strict_only :
    (UnverifiedPublicationNarInfo.parse sampleExternals sampleRoute
      (sampleText (.compressed ⟨.xz, sampleIdentity.hash, 0⟩ sampleIdentity))).isSome = true ∧
    NarInfoClaims.parseExternalPublication sampleExternals sampleRoute
      (sampleText (.compressed ⟨.xz, sampleIdentity.hash, 0⟩ sampleIdentity)) = none := by
  decide +kernel

end Sample

end NarInfo
