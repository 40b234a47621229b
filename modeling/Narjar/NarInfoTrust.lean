import Narjar.NarInfo

/-!
# Trust in external narinfos

What a document says does not depend on the order of its lines: every field has one value or
the document is refused, and one good signature is enough. A document that is accepted is
signed, by a trusted key, over the claims that are returned.
-/
namespace NarInfo

open ByteCodecs NarFormat ManifestFormat ObjectNames TextFields List Option

variable {Key Signature : Type}

def lineEntry (line : Bytes) : Option (NarInfoLineField × Bytes) := do
  let (name, value) ← splitOnce NarInfoDocument.fieldSeparator line
  let field ← NarInfoLineField.parse name
  some (field, value)

def valuesOf (field : NarInfoLineField) (lines : List Bytes) : List Bytes :=
  lines.filterMap fun line =>
    (lineEntry line).bind fun entry => if entry.1 = field then some entry.2 else none

/-- A line that the parser does not refuse by itself. -/
def Readable (unknownFields : UnknownFieldHandling) (line : Bytes) : Prop :=
  ∃ name value, splitOnce NarInfoDocument.fieldSeparator line = some (name, value) ∧
    (unknownFields = .ignore ∨ (NarInfoLineField.parse name).isSome)

namespace NarInfoDocument

variable {document document' : NarInfoDocument} {unknownFields : UnknownFieldHandling}
variable {line : Bytes} {lines lines' : List Bytes} {field : NarInfoField}

/-- The values of a field in the document and in the lines that follow. -/
def collect (document : NarInfoDocument) (lines : List Bytes) (field : NarInfoField) : List Bytes :=
  (document.fields field).toList ++ valuesOf (.unique field) lines

def collectSignatures (document : NarInfoDocument) (lines : List Bytes) : List Bytes :=
  document.signatureValues ++ valuesOf .signature lines

theorem valuesOf_cons_none (h : lineEntry line = none) (field : NarInfoLineField) :
    valuesOf field (line :: lines) = valuesOf field lines := by
  simp [valuesOf, h]

theorem valuesOf_cons_some (h : lineEntry line = some entry)
    (field : NarInfoLineField) :
    valuesOf field (line :: lines) =
      if entry.1 = field then entry.2 :: valuesOf field lines else valuesOf field lines := by
  by_cases hf : entry.1 = field
  · simp [valuesOf, h, hf]
  · simp [valuesOf, h, hf]

theorem recordLine_collect (h : document.recordLine unknownFields line = some document')
    (lines : List Bytes) :
    Readable unknownFields line ∧
      (∀ field, document'.collect lines field = document.collect (line :: lines) field) ∧
      document'.collectSignatures lines = document.collectSignatures (line :: lines) := by
  obtain ⟨⟨name, value⟩, hs, hr⟩ := bind_eq_some_iff.1 h
  cases hp : NarInfoLineField.parse name with
  | none =>
    have he : lineEntry line = none := by simp [lineEntry, hs, hp]
    cases unknownFields with
    | reject => simp [hp] at hr
    | ignore =>
      simp only [hp, Option.some.injEq] at hr
      subst hr
      refine ⟨⟨name, value, hs, .inl rfl⟩, fun field => ?_, ?_⟩
      · rw [collect, collect, valuesOf_cons_none he]
      · rw [collectSignatures, collectSignatures, valuesOf_cons_none he]
  | some field =>
    have he : lineEntry line = some (field, value) := by simp [lineEntry, hs, hp]
    refine ⟨⟨name, value, hs, .inr (by simp [hp])⟩, ?_⟩
    simp only [hp] at hr
    cases field with
    | signature =>
      cases Option.some.inj hr
      refine ⟨fun other => ?_, ?_⟩
      · rw [collect, collect, valuesOf_cons_some he, if_neg (fun heq => nomatch heq)]
      · rw [collectSignatures, collectSignatures, valuesOf_cons_some he, if_pos rfl, append_assoc]
        rfl
    | unique field =>
      simp only [recordField] at hr
      cases hf : document.fields field with
      | some old => simp [hf] at hr
      | none =>
        simp only [hf, Option.some.injEq] at hr
        subst hr
        refine ⟨fun other => ?_, ?_⟩
        · simp only [collect, valuesOf_cons_some he, NarInfoLineField.unique.injEq]
          by_cases ho : field = other
          · subst ho
            simp [hf]
          · rw [Function.update_of_ne (Ne.symm ho), if_neg ho]
        · rw [collectSignatures, collectSignatures, valuesOf_cons_some he,
            if_neg (fun heq => nomatch heq)]

theorem recordLine_none (h : document.recordLine unknownFields line = none)
    (hr : Readable unknownFields line) (lines : List Bytes) :
    ∃ field, 1 < (document.collect (line :: lines) field).length := by
  obtain ⟨name, value, hs, hk⟩ := hr
  simp only [recordLine, hs, bind_eq_bind, bind_some] at h
  cases hp : NarInfoLineField.parse name with
  | none =>
    rw [hp] at h hk
    rcases hk with rfl | ho
    · cases h
    · cases ho
  | some field =>
    have he : lineEntry line = some (field, value) := by simp [lineEntry, hs, hp]
    rw [hp] at h
    cases field with
    | signature => cases h
    | unique field =>
      simp only [recordField] at h
      cases hf : document.fields field with
      | none => simp [hf] at h
      | some old =>
        refine ⟨field, ?_⟩
        rw [collect, hf, valuesOf_cons_some he, if_pos rfl]
        simp only [toList_some, length_append, length_cons, length_nil]
        omega

theorem foldlM_recordLine :
    lines.foldlM (recordLine unknownFields) document = some document' ↔
      (∀ line ∈ lines, Readable unknownFields line) ∧
      (∀ field, (document.collect lines field).length ≤ 1) ∧
      (∀ field, document'.fields field = (document.collect lines field).head?) ∧
      document'.signatureValues = document.collectSignatures lines := by
  induction lines generalizing document with
  | nil =>
    have hc : ∀ field, document.collect [] field = (document.fields field).toList :=
      fun field => append_nil _
    have hs : document.collectSignatures [] = document.signatureValues := append_nil _
    have hh : ∀ value : Option Bytes, value.toList.head? = value := by
      intro value
      cases value <;> rfl
    have hl : ∀ value : Option Bytes, value.toList.length ≤ 1 := by
      intro value
      cases value <;> simp
    simp only [foldlM_nil, Option.pure_def, Option.some.injEq, hc, hs, hh,
      hl, not_mem_nil, false_implies, implies_true, true_and]
    constructor
    · rintro rfl
      exact ⟨fun _ => rfl, rfl⟩
    · intro h
      obtain ⟨hf, hv⟩ := h
      obtain ⟨fields, values⟩ := document
      obtain ⟨fields', values'⟩ := document'
      cases (funext hf : fields' = fields)
      cases (hv : values' = values)
      rfl
  | cons line lines ih =>
    rw [foldlM_cons]
    cases he : document.recordLine unknownFields line with
    | none =>
      constructor
      · intro h
        cases h
      · intro h
        obtain ⟨hr, hl, -⟩ := h
        obtain ⟨field, hi⟩ := recordLine_none he (hr line mem_cons_self) lines
        exact absurd (hl field) (Nat.not_le.2 hi)
    | some next =>
      obtain ⟨hr, hf, hs⟩ := recordLine_collect he lines
      rw [bind_eq_bind, bind_some, ih]
      simp only [hf, hs, forall_mem_cons, hr, true_and]

/-- The same fields, and the same signatures in some order. -/
structure Agrees (document document' : NarInfoDocument) : Prop where
  fields : document.fields = document'.fields
  signatures : document.signatureValues.Perm document'.signatureValues

theorem collect_empty (lines : List Bytes) (field : NarInfoField) :
    empty.collect lines field = valuesOf (.unique field) lines := rfl

theorem perm_eq_of_length_le_one {α : Type} {xs ys : List α} (h : xs.Perm ys)
    (hl : xs.length ≤ 1) : xs = ys := by
  match xs, hl with
  | [], _ => exact h.nil_eq
  | [x], _ => exact (perm_singleton.1 h.symm).symm

theorem foldlM_perm (h : lines.Perm lines')
    (hr : lines.foldlM (recordLine unknownFields) empty = some document) :
    ∃ document', lines'.foldlM (recordLine unknownFields) empty = some document' ∧
      document.Agrees document' := by
  obtain ⟨he, hl, hf, hs⟩ := foldlM_recordLine.1 hr
  have hv : ∀ field, (valuesOf field lines).Perm (valuesOf field lines') :=
    fun field => h.filterMap _
  have hc : ∀ field, empty.collect lines field = empty.collect lines' field := by
    intro field
    exact perm_eq_of_length_le_one (hv _) (hl field)
  refine ⟨⟨document.fields, valuesOf .signature lines'⟩, foldlM_recordLine.2 ?_, rfl, ?_⟩
  · refine ⟨fun line hi => he line (h.mem_iff.2 hi), ?_, ?_, rfl⟩
    · intro field
      rw [← hc]
      exact hl field
    · intro field
      rw [← hc]
      exact hf field
  · rw [hs]
    exact hv _

end NarInfoDocument

section Texts

variable {lines lines' : List Bytes} {unknownFields : UnknownFieldHandling}

def NewlineFree (lines : List Bytes) : Prop := ∀ line ∈ lines, newline ∉ line

theorem validUtf8_unlines (lines : List Bytes) :
    validUtf8 (unlines newline lines) = lines.all validUtf8 := by
  induction lines with
  | nil => rfl
  | cons line lines ih =>
    rw [unlines, flatMap_cons, append_assoc, singleton_append, all_cons, ← ih]
    exact validUtf8_cut (by decide) line (unlines newline lines)

theorem mem_unlines :
    byte ∈ unlines newline lines ↔ (∃ line ∈ lines, byte ∈ line) ∨ (byte = newline ∧ lines ≠ []) := by
  simp only [unlines, mem_flatMap, mem_append, mem_singleton]
  constructor
  · rintro ⟨line, hl, hb | hb⟩
    · exact .inl ⟨line, hl, hb⟩
    · exact .inr ⟨hb, ne_nil_of_mem hl⟩
  · rintro (⟨line, hl, hb⟩ | ⟨hb, hne⟩)
    · exact ⟨line, hl, .inl hb⟩
    · obtain ⟨line, hl⟩ := exists_mem_of_ne_nil _ hne
      exact ⟨line, hl, .inr hb⟩

theorem getLast?_unlines : (unlines newline lines).getLast? = some newline ↔ lines ≠ [] := by
  constructor
  · rintro h rfl
    cases h
  · intro hne
    rw [unlines_eq hne, List.getLast?_append_of_ne_nil _ (cons_ne_nil _ _)]
    rfl

theorem parseNarinfoText_unlines :
    parseNarinfoText (unlines newline lines) =
      if (unlines newline lines).length ≤ maxNarinfoBytes ∧ lines.all validUtf8 = true ∧
          lines ≠ [] ∧ ∀ line ∈ lines, 13 ∉ line then some (unlines newline lines) else none := by
  have hr : 13 ∉ unlines newline lines ↔ ∀ line ∈ lines, 13 ∉ line := by
    rw [mem_unlines]
    constructor
    · intro h line hl hm
      exact h (.inl ⟨line, hl, hm⟩)
    · rintro h (⟨line, hl, hm⟩ | ⟨hb, -⟩)
      · exact h line hl hm
      · exact absurd hb (by decide)
  simp only [parseNarinfoText, validUtf8_unlines, getLast?_unlines, hr]

theorem parseWithUnknownFields_unlines (hne : lines ≠ []) (hf : NewlineFree lines) :
    NarInfoDocument.parseWithUnknownFields (unlines newline lines) unknownFields =
      lines.foldlM (NarInfoDocument.recordLine unknownFields) .empty := by
  obtain ⟨body, hb, hl⟩ := map_eq_some_iff.1 (splitOn_unlines hne hf)
  rw [NarInfoDocument.parseWithUnknownFields, hb, bind_eq_bind, bind_some, hl]

theorem unlines_perm (h : lines.Perm lines') :
    (unlines newline lines).length = (unlines newline lines').length :=
  (h.flatMap_right _).length_eq

end Texts

section Agreement

variable {document document' : NarInfoDocument} {E : Externals Key Signature}
variable {keys : TrustedPublicKeys Key} {route : StoreHash}

variable {claims : NarInfoClaims} {α β : Type} {f : α → Option β} {xs : List α}

theorem mapM_perm (h : xs.Perm ys) (hxs : xs.mapM f = some values) :
    ∃ values', ys.mapM f = some values' ∧ values.Perm values' := by
  induction h generalizing values with
  | nil => exact ⟨values, hxs, .refl _⟩
  | cons x _ ih =>
    rw [mapM_cons] at hxs
    simp only [Option.bind_eq_bind, Option.bind_eq_some_iff, Option.pure_def,
      Option.some.injEq] at hxs
    obtain ⟨value, ha, rest, hr, rfl⟩ := hxs
    obtain ⟨rest', hr', hp⟩ := ih hr
    refine ⟨value :: rest', ?_, hp.cons _⟩
    rw [mapM_cons, ha, hr']
    rfl
  | swap x y zs =>
    simp only [mapM_cons, Option.bind_eq_bind, Option.bind_eq_some_iff, Option.pure_def,
      Option.some.injEq] at hxs
    obtain ⟨v, hv, _, ⟨u, hu, rest, hr, rfl⟩, rfl⟩ := hxs
    refine ⟨u :: v :: rest, ?_, .swap _ _ _⟩
    rw [mapM_cons, mapM_cons, hu, hv, hr]
    rfl
  | trans _ _ ih ih' =>
    obtain ⟨middle, hm, hp⟩ := ih hxs
    obtain ⟨last, hl, hp'⟩ := ih' hm
    exact ⟨last, hl, hp.trans hp'⟩

theorem verifies_perm {fingerprint : Bytes} {xs ys}
    (h : xs.Perm ys) : keys.verifies E fingerprint xs = keys.verifies E fingerprint ys := h.any_eq

theorem verifyDocument_agrees (h : document.Agrees document')
    (ht : document.validateExternalTransport E = some ())
    (hc : NarInfoClaims.fromExternalDocument route document = some claims)
    (hs : document.namedSignatures E = some signatures) :
    document'.validateExternalTransport E = some () ∧
      NarInfoClaims.fromExternalDocument route document' = some claims ∧
      ∃ signatures', document'.namedSignatures E = some signatures' ∧ signatures.Perm signatures' := by
  obtain ⟨fields, values⟩ := document
  obtain ⟨fields', values'⟩ := document'
  obtain ⟨hf, hv⟩ := h
  cases (hf : fields = fields')
  refine ⟨ht, hc, ?_⟩
  unfold NarInfoDocument.namedSignatures at hs ⊢
  split_ifs at hs with hn
  have hn' : values' ≠ [] := by
    rintro rfl
    exact hn hv.eq_nil
  rw [if_neg hn']
  exact mapM_perm hv hs

structure IsUnknownField (line : Bytes) : Prop where
  newline : newline ∉ line
  unknown : ∃ name value, splitOnce NarInfoDocument.fieldSeparator line = some (name, value) ∧
    NarInfoLineField.parse name = none

structure IsTextLine (line : Bytes) : Prop where
  utf8 : validUtf8 line = true
  noReturn : 13 ∉ line

variable {lines lines' unknown : List Bytes} {text : Bytes}

theorem verifyExternalDocument_eq_some :
    keys.verifyExternalDocument E route text = some (document, claims) ↔
      NarInfoDocument.parseExternal text = some document ∧
      document.validateExternalTransport E = some () ∧
      NarInfoClaims.fromExternalDocument route document = some claims ∧
      ∃ signatures, document.namedSignatures E = some signatures ∧
        keys.verifies E claims.fingerprint signatures = true := by
  simp only [TrustedPublicKeys.verifyExternalDocument, bind_eq_bind, bind_eq_some_iff]
  constructor
  · rintro ⟨document', hp, _, ht, claims', hc, signatures, hs, hv⟩
    split_ifs at hv with hb
    obtain ⟨rfl, rfl⟩ := Prod.mk.inj (Option.some.inj hv)
    exact ⟨hp, ht, hc, signatures, hs, by simpa using hb⟩
  · rintro ⟨hp, ht, hc, signatures, hs, hv⟩
    refine ⟨document, hp, (), ht, claims, hc, signatures, hs, ?_⟩
    rw [if_neg (by simp [hv])]

theorem verifyExternalDocument_perm (hf : NewlineFree lines) (hne : lines ≠ [])
    (h : lines.Perm lines')
    (hv : keys.verifyExternalDocument E route (unlines newline lines) = some (document, claims)) :
    ∃ document', keys.verifyExternalDocument E route (unlines newline lines') =
      some (document', claims) ∧ document.Agrees document' := by
  obtain ⟨hp, ht, hc, signatures, hs, hr⟩ := verifyExternalDocument_eq_some.1 hv
  have hf' : NewlineFree lines' := fun line hl => hf line (h.mem_iff.2 hl)
  have hne' : lines' ≠ [] := by
    rintro rfl
    exact hne h.eq_nil
  rw [NarInfoDocument.parseExternal, parseWithUnknownFields_unlines hne hf] at hp
  obtain ⟨document', hp', ha⟩ := NarInfoDocument.foldlM_perm h hp
  obtain ⟨ht', hc', signatures', hs', he⟩ := verifyDocument_agrees ha ht hc hs
  refine ⟨document', verifyExternalDocument_eq_some.2 ⟨?_, ht', hc', signatures', hs', ?_⟩, ha⟩
  · rw [NarInfoDocument.parseExternal, parseWithUnknownFields_unlines hne' hf']
    exact hp'
  · rw [← verifies_perm he]
    exact hr

theorem parseNarinfoText_perm (h : lines.Perm lines')
    (ht : (parseNarinfoText (unlines newline lines)).isSome) :
    parseNarinfoText (unlines newline lines) = some (unlines newline lines) ∧ lines ≠ [] ∧
      parseNarinfoText (unlines newline lines') = some (unlines newline lines') := by
  rw [parseNarinfoText_unlines] at ht
  split_ifs at ht with hg
  · obtain ⟨hl, hu, hne, hr⟩ := hg
    refine ⟨?_, hne, ?_⟩
    · rw [parseNarinfoText_unlines, if_pos ⟨hl, hu, hne, hr⟩]
    · rw [parseNarinfoText_unlines, if_pos]
      refine ⟨unlines_perm h ▸ hl, ?_, ?_, fun line hi => hr line (h.mem_iff.2 hi)⟩
      · rw [← hu]
        exact h.symm.all_eq
      · rintro rfl
        exact hne h.eq_nil
  · cases ht

theorem verifyExternalNarinfo_perm (hf : NewlineFree lines) (h : lines.Perm lines')
    (hv : keys.verifyExternalNarinfo E route (unlines newline lines) = some claims) :
    keys.verifyExternalNarinfo E route (unlines newline lines') = some claims := by
  obtain ⟨text, ht, hv⟩ := bind_eq_some_iff.1 hv
  obtain ⟨ht', hne, ho⟩ := parseNarinfoText_perm h (isSome_of_eq_some ht)
  cases (Option.some.inj (ht.symm.trans ht'))
  obtain ⟨⟨document, claims'⟩, hd, hc⟩ := bind_eq_some_iff.1 hv
  cases Option.some.inj hc
  obtain ⟨document', hd', -⟩ := verifyExternalDocument_perm hf hne h hd
  simp [TrustedPublicKeys.verifyExternalNarinfo, ho, hd']

/-- Transfers that differ at most in the order of the signatures. -/
structure SameTransfer (narinfo narinfo' : SignatureVerifiedExternalNarInfo E) : Prop where
  claims : narinfo.publication.metadata.claims = narinfo'.publication.metadata.claims
  deriver : narinfo.publication.metadata.deriver = narinfo'.publication.metadata.deriver
  contentAddress :
    narinfo.publication.metadata.contentAddress = narinfo'.publication.metadata.contentAddress
  signatures :
    narinfo.publication.metadata.signatures.Perm narinfo'.publication.metadata.signatures
  payload : narinfo.publication.payload = narinfo'.publication.payload
  downloadUrl : narinfo.downloadUrl = narinfo'.downloadUrl

theorem verifyForTransfer_perm (hfr : NewlineFree lines) (h : lines.Perm lines')
    (hv : keys.verifyExternalNarinfoForTransfer E route (unlines newline lines) = some narinfo) :
    ∃ narinfo', keys.verifyExternalNarinfoForTransfer E route (unlines newline lines') =
      some narinfo' ∧ SameTransfer narinfo narinfo' := by
  obtain ⟨text, ht, hv⟩ := bind_eq_some_iff.1 hv
  obtain ⟨ht', hne, ho⟩ := parseNarinfoText_perm h (isSome_of_eq_some ht)
  cases (Option.some.inj (ht.symm.trans ht'))
  obtain ⟨⟨document, claims⟩, hd, hv⟩ := bind_eq_some_iff.1 hv
  obtain ⟨metadata, hm, hv⟩ := bind_eq_some_iff.1 hv
  obtain ⟨transport, hr, hn⟩ := bind_eq_some_iff.1 hv
  cases Option.some.inj hn
  obtain ⟨document', hd', hf, hs⟩ := verifyExternalDocument_perm hfr hne h hd
  obtain ⟨deriver, he, hm⟩ := bind_eq_some_iff.1 hm
  obtain ⟨address, ha, hm⟩ := bind_eq_some_iff.1 hm
  cases Option.some.inj hm
  have hm' : NarInfoMetadata.fromDocumentClaims E claims document' =
      some ⟨claims, deriver, address, document'.signatureValues⟩ := by
    rw [hf] at he ha
    simp [NarInfoMetadata.fromDocumentClaims, he, ha]
  have hr' : document'.externalTransport claims.identity = some transport := by
    obtain ⟨fields', values'⟩ := document'
    cases (hf : document.fields = fields')
    exact hr
  refine ⟨⟨⟨⟨claims, deriver, address, document'.signatureValues⟩, transport.payload⟩,
    transport.downloadUrl⟩, ?_, rfl, rfl, rfl, hs, rfl, rfl⟩
  simp [TrustedPublicKeys.verifyExternalNarinfoForTransfer, ho, hd', hm', hr']

theorem eq_of_parseNarinfoText (h : parseNarinfoText bytes = some text) :
    text = bytes := by
  unfold parseNarinfoText at h
  split_ifs at h
  exact (Option.some.inj h).symm

theorem verifyForTransfer_document
    (hv : keys.verifyExternalNarinfoForTransfer E route bytes = some narinfo) :
    ∃ document, parseNarinfoText bytes = some bytes ∧
      keys.verifyExternalDocument E route bytes =
        some (document, narinfo.publication.metadata.claims) ∧
      narinfo.publication.metadata.signatures = document.signatureValues := by
  obtain ⟨text, ht, hv⟩ := bind_eq_some_iff.1 hv
  cases eq_of_parseNarinfoText ht
  obtain ⟨⟨document, claims⟩, hd, hv⟩ := bind_eq_some_iff.1 hv
  obtain ⟨metadata, hm, hv⟩ := bind_eq_some_iff.1 hv
  obtain ⟨transport, -, hn⟩ := bind_eq_some_iff.1 hv
  cases Option.some.inj hn
  obtain ⟨deriver, -, hm⟩ := bind_eq_some_iff.1 hm
  obtain ⟨address, -, hm⟩ := bind_eq_some_iff.1 hm
  cases Option.some.inj hm
  exact ⟨document, ht, hd, rfl⟩

theorem verifyForTransfer_signatures (hf : NewlineFree lines)
    (hv : keys.verifyExternalNarinfoForTransfer E route (unlines newline lines) = some narinfo) :
    narinfo.publication.metadata.signatures = valuesOf .signature lines := by
  obtain ⟨document, ht, hd, hs⟩ := verifyForTransfer_document hv
  obtain ⟨-, hne, -⟩ := parseNarinfoText_perm (.refl lines) (isSome_of_eq_some ht)
  have hp := (verifyExternalDocument_eq_some.1 hd).1
  rw [NarInfoDocument.parseExternal, parseWithUnknownFields_unlines hne hf] at hp
  rw [hs]
  exact (NarInfoDocument.foldlM_recordLine.1 hp).2.2.2

theorem foldlM_unknown (hu : ∀ line ∈ unknown, IsUnknownField line)
    (document : NarInfoDocument) :
    unknown.foldlM (NarInfoDocument.recordLine .ignore) document = some document := by
  induction unknown with
  | nil => rfl
  | cons line unknown ih =>
    obtain ⟨name, value, hs, hp⟩ := (hu line mem_cons_self).unknown
    have hr : document.recordLine .ignore line = some document := by
      simp [NarInfoDocument.recordLine, hs, hp]
    rw [foldlM_cons, hr]
    exact ih fun other ho => hu other (mem_cons_of_mem _ ho)

theorem parseExternal_unknown (hf : NewlineFree lines)
    (hu : ∀ line ∈ unknown, IsUnknownField line) (hne : lines ≠ []) :
    NarInfoDocument.parseExternal (unlines newline (lines ++ unknown)) =
      NarInfoDocument.parseExternal (unlines newline lines) := by
  have hf' : NewlineFree (lines ++ unknown) := by
    intro line hl
    rcases mem_append.1 hl with ho | hn
    · exact hf line ho
    · exact (hu line hn).newline
  rw [NarInfoDocument.parseExternal, NarInfoDocument.parseExternal,
    parseWithUnknownFields_unlines hne hf,
    parseWithUnknownFields_unlines (append_ne_nil_of_left_ne_nil hne _) hf', foldlM_append]
  simp [foldlM_unknown hu]

theorem parseNarinfoText_unknown (ht : ∀ line ∈ unknown, IsTextLine line)
    (he : (unlines newline (lines ++ unknown)).length ≤ maxNarinfoBytes) (hne : lines ≠ []) :
    parseNarinfoText (unlines newline (lines ++ unknown)) =
      (parseNarinfoText (unlines newline lines)).map fun _ => unlines newline (lines ++ unknown) := by
  have hs : (unlines newline lines).length ≤ maxNarinfoBytes := by
    refine Nat.le_trans ?_ he
    rw [unlines, unlines, flatMap_append, length_append]
    exact Nat.le_add_right _ _
  have hu := all_eq_true.2 fun line hl => (ht line hl).utf8
  rw [parseNarinfoText_unlines, parseNarinfoText_unlines]
  by_cases hg : lines.all validUtf8 = true ∧ ∀ line ∈ lines, 13 ∉ line
  · have ha : ∀ line ∈ lines ++ unknown, 13 ∉ line := by
      intro line hl
      rcases mem_append.1 hl with ho | hn
      · exact hg.2 line ho
      · exact (ht line hn).noReturn
    have hv : (lines ++ unknown).all validUtf8 = true := by
      rw [all_append, hg.1, hu]
      rfl
    rw [if_pos ⟨he, hv, append_ne_nil_of_left_ne_nil hne _, ha⟩, if_pos ⟨hs, hg.1, hne, hg.2⟩]
    rfl
  · rw [if_neg, if_neg fun h => hg ⟨h.2.1, h.2.2.2⟩]
    · rfl
    · intro h
      rw [all_append, Bool.and_eq_true] at h
      exact hg ⟨h.2.1.1, fun line hl => h.2.2.2 line (mem_append_left _ hl)⟩

theorem parseNarinfoText_outside (h : (∃ line ∈ unknown, ¬ IsTextLine line) ∨
      maxNarinfoBytes < (unlines newline (lines ++ unknown)).length) :
    parseNarinfoText (unlines newline (lines ++ unknown)) = none := by
  rw [parseNarinfoText_unlines, if_neg]
  rintro ⟨hl, hu, -, hr⟩
  rcases h with ⟨line, hm, hn⟩ | hm
  · have hi := mem_append_right lines hm
    exact hn ⟨all_eq_true.1 hu line hi, hr line hi⟩
  · exact absurd hl (Nat.not_le.2 hm)

theorem verifyDocument_onlyUnknown (hne : unknown ≠ [])
    (hu : ∀ line ∈ unknown, IsUnknownField line) :
    keys.verifyExternalDocument E route (unlines newline unknown) = none := by
  have he : NarInfoDocument.parseExternal (unlines newline unknown) = some .empty := by
    rw [NarInfoDocument.parseExternal,
      parseWithUnknownFields_unlines hne fun line hl => (hu line hl).newline]
    exact foldlM_unknown hu .empty
  have ht : NarInfoDocument.validateExternalTransport E .empty = none := rfl
  simp [TrustedPublicKeys.verifyExternalDocument, he, ht]

theorem verifyDocument_unknown (hf : NewlineFree lines)
    (hu : ∀ line ∈ unknown, IsUnknownField line) (ht : ∀ line ∈ unknown, IsTextLine line)
    (hl : (unlines newline (lines ++ unknown)).length ≤ maxNarinfoBytes) :
    (parseNarinfoText (unlines newline (lines ++ unknown))).bind
        (keys.verifyExternalDocument E route) =
      (parseNarinfoText (unlines newline lines)).bind (keys.verifyExternalDocument E route) := by
  by_cases hne : lines = []
  · subst hne
    by_cases hn : unknown = []
    · subst hn
      rfl
    · refine bind_eq_none_iff.2 fun text hp => ?_
      rw [eq_of_parseNarinfoText hp]
      exact verifyDocument_onlyUnknown hn hu
  · rw [parseNarinfoText_unknown ht hl hne]
    cases hp : parseNarinfoText (unlines newline lines) with
    | none => rfl
    | some text =>
      rw [eq_of_parseNarinfoText hp, map_some, bind_some, bind_some,
        TrustedPublicKeys.verifyExternalDocument, parseExternal_unknown hf hu hne]
      rfl

/-- The document's path has the requested hash, and one of its signatures is valid, under the
trusted key of its name, for the fingerprint of the claims. -/
structure Justified (E : Externals Key Signature) (keys : TrustedPublicKeys Key)
    (route : StoreHash) (document : NarInfoDocument) (claims : NarInfoClaims) : Prop where
  read : NarInfoClaims.fromExternalDocument route document = some claims
  path : (document.fields .storePath).bind NixStorePath.parse = some claims.storePath
  store : claims.store = route
  signed : ∃ value ∈ document.signatureValues, ∃ signature key,
    NamedSignature.parse E value = some signature ∧ keys signature.name = some key ∧
      E.verifyStrict key claims.fingerprint signature.signature = true

theorem fromExternalDocument_path
    (h : NarInfoClaims.fromExternalDocument route document = some claims) :
    (document.fields .storePath).bind NixStorePath.parse = some claims.storePath ∧
      claims.store = route := by
  simp only [NarInfoClaims.fromExternalDocument, NarInfoClaims.fromDocumentWithReferences,
    bind_eq_bind, bind_eq_some_iff] at h
  obtain ⟨value, hv, path, hp, h⟩ := h
  split_ifs at h with hr
  simp only [bind_eq_some_iff] at h
  obtain ⟨_, -, _, -, _, -, _, -, _, -, h⟩ := h
  split at h
  · cases h
  · cases Option.some.inj h
    exact ⟨by simp [hv, hp], not_not.1 hr⟩

theorem mem_of_mapM (h : xs.mapM f = some ys) (hy : y ∈ ys) :
    ∃ x ∈ xs, f x = some y := by
  induction xs generalizing ys with
  | nil =>
    cases Option.some.inj h
    cases hy
  | cons x xs ih =>
    simp only [mapM_cons, Option.bind_eq_bind, Option.bind_eq_some_iff, Option.pure_def,
      Option.some.injEq] at h
    obtain ⟨value, hv, rest, hr, rfl⟩ := h
    rcases mem_cons.1 hy with rfl | hm
    · exact ⟨x, mem_cons_self, hv⟩
    · obtain ⟨other, ho, hf⟩ := ih hr hm
      exact ⟨other, mem_cons_of_mem _ ho, hf⟩

theorem verifyExternalDocument_justified
    (h : keys.verifyExternalDocument E route text = some (document, claims)) :
    NarInfoDocument.parseExternal text = some document ∧
      Justified E keys route document claims := by
  obtain ⟨hp, -, hc, signatures, hs, he⟩ := verifyExternalDocument_eq_some.1 h
  obtain ⟨ht, ho⟩ := fromExternalDocument_path hc
  refine ⟨hp, hc, ht, ho, ?_⟩
  obtain ⟨signature, hi, hk⟩ := any_eq_true.1 he
  obtain ⟨key, hn, hv⟩ := (any_eq_true _ _).1 hk
  unfold NarInfoDocument.namedSignatures at hs
  split_ifs at hs
  obtain ⟨value, hl, ha⟩ := mem_of_mapM hs hi
  exact ⟨value, hl, signature, key, ha, hn, hv⟩

end Agreement

/-- What verification accepts is justified by the document, in any order of its lines and with
any further unknown fields that leave it a text within the limit; others make it refused. -/
theorem external_trust_sound (E : Externals Key Signature) (keys : TrustedPublicKeys Key)
    (route : StoreHash) :
    (∀ bytes claims, keys.verifyExternalNarinfo E route bytes = some claims →
      ∃ document, NarInfoDocument.parseExternal bytes = some document ∧
        Justified E keys route document claims) ∧
    (∀ bytes narinfo, keys.verifyExternalNarinfoForTransfer E route bytes = some narinfo →
      keys.verifyExternalNarinfo E route bytes = some narinfo.publication.metadata.claims) ∧
    (∀ lines lines', NewlineFree lines → lines.Perm lines' →
      keys.verifyExternalNarinfo E route (unlines newline lines) =
        keys.verifyExternalNarinfo E route (unlines newline lines')) ∧
    (∀ lines lines' narinfo, NewlineFree lines → lines.Perm lines' →
      keys.verifyExternalNarinfoForTransfer E route (unlines newline lines) = some narinfo →
      ∃ narinfo', keys.verifyExternalNarinfoForTransfer E route (unlines newline lines') =
        some narinfo' ∧ SameTransfer narinfo narinfo') ∧
    (∀ lines narinfo, NewlineFree lines →
      keys.verifyExternalNarinfoForTransfer E route (unlines newline lines) = some narinfo →
      narinfo.publication.metadata.signatures = valuesOf .signature lines) ∧
    (∀ lines unknown, NewlineFree lines → (∀ line ∈ unknown, IsUnknownField line) →
      (∀ line ∈ unknown, IsTextLine line) →
      (unlines newline (lines ++ unknown)).length ≤ maxNarinfoBytes →
      keys.verifyExternalNarinfo E route (unlines newline (lines ++ unknown)) =
          keys.verifyExternalNarinfo E route (unlines newline lines) ∧
        keys.verifyExternalNarinfoForTransfer E route (unlines newline (lines ++ unknown)) =
          keys.verifyExternalNarinfoForTransfer E route (unlines newline lines)) ∧
    ∀ lines unknown, ((∃ line ∈ unknown, ¬ IsTextLine line) ∨
        maxNarinfoBytes < (unlines newline (lines ++ unknown)).length) →
      keys.verifyExternalNarinfo E route (unlines newline (lines ++ unknown)) = none ∧
        keys.verifyExternalNarinfoForTransfer E route (unlines newline (lines ++ unknown)) =
          none := by
  refine ⟨?_, ?_, ?_, ?_, ?_, ?_, ?_⟩
  · intro bytes claims h
    obtain ⟨text, ha, h⟩ := bind_eq_some_iff.1 h
    obtain ⟨⟨document, claims'⟩, hd, hc⟩ := bind_eq_some_iff.1 h
    cases Option.some.inj hc
    rw [← eq_of_parseNarinfoText ha]
    exact ⟨document, verifyExternalDocument_justified hd⟩
  · intro bytes narinfo h
    obtain ⟨document, ha, hd, -⟩ := verifyForTransfer_document h
    simp [TrustedPublicKeys.verifyExternalNarinfo, ha, hd]
  · intro lines lines' hf hp
    have hf' : NewlineFree lines' := fun line hl => hf line (hp.mem_iff.2 hl)
    refine Option.ext fun claims => ⟨fun h => ?_, fun h => ?_⟩
    · exact verifyExternalNarinfo_perm hf hp h
    · exact verifyExternalNarinfo_perm hf' hp.symm h
  · intro lines lines' narinfo hf hp h
    exact verifyForTransfer_perm hf hp h
  · intro lines narinfo hf h
    exact verifyForTransfer_signatures hf h
  · intro lines unknown hf hu hl he
    have hs : (parseNarinfoText (unlines newline (lines ++ unknown))).bind
        (keys.verifyExternalDocument E route) = _ := verifyDocument_unknown hf hu hl he
    constructor
    · unfold TrustedPublicKeys.verifyExternalNarinfo
      simp only [bind_eq_bind, ← bind_assoc]
      rw [hs]
    · unfold TrustedPublicKeys.verifyExternalNarinfoForTransfer
      simp only [bind_eq_bind, ← bind_assoc]
      rw [hs]
  · intro lines unknown h
    have hn := parseNarinfoText_outside h
    simp [TrustedPublicKeys.verifyExternalNarinfo,
      TrustedPublicKeys.verifyExternalNarinfoForTransfer, hn]

section Sample

def base64Alphabet : Bytes :=
  ascii "ABCDEFGHIJKLMNOPQRSTUVWXYZabcdefghijklmnopqrstuvwxyz0123456789+/".toList

/-- Base64 with padding at the end, whose spare bits are zero. -/
def paddedBase64 (text : Bytes) : Option Bytes := do
  let body := text.takeWhile (· ≠ 61)
  let digits ← body.mapM base64Alphabet.idxOf?
  let pads := text.length - body.length
  let value := digits.foldl (fun value digit => 64 * value + digit) 0
  if text = body ++ List.replicate pads 61 ∧ pads ≤ 2 ∧ text.length % 4 = 0 ∧
      value % 4 ^ pads = 0 then
    some (leBytes (text.length / 4 * 3 - pads) (value / 4 ^ pads)).reverse
  else none

def sampleRoute : StoreHash := ⟨List.replicate 32 48, valid_zeros⟩

def samplePath : NixStorePath := ⟨sampleRoute, ascii ['a'], by decide⟩

theorem sorted_nil : ([] : List NixStorePath).Pairwise fun p q => p.asStr < q.asStr := .nil

def sampleIdentity : NarIdentity := ⟨⟨List.replicate 32 0, length_zeros⟩, 1⟩

def sampleSignature : Bytes :=
  ascii ("k:59J1WVZbGG41fjH3uAEshUesTw46MuuG+f10FKwpfB95I1J4".toList ++
    "gG9Jm/3plYSREdXIwgIepPeku9IGFAz2V4ZICA==".toList)

/-- The Ed25519 signature of the sample's fingerprint by the key with the seed zero. -/
def sampleSigned : Bytes :=
  leBytes 32 0x1f7c29ac1474fdf986eb323a0e4fac47852c01b8f7317e356e185b565975d2e7 ++
    leBytes 32 0x8488657f60c1406d2bba4f7a41e02c2c8d511918495e9fd9b496f8078522379

/-- The sample's signature is the only one that verifies. -/
def sampleExternals : Externals Unit Bytes where
  decodeBase64 := paddedBase64
  signatureFromSlice bytes := if bytes.length = 64 then some bytes else none
  verifyStrict _ message signature :=
    message = buildFingerprint samplePath.asStr sampleIdentity.hash sampleIdentity.size [] ∧
      signature = sampleSigned
  parseUri _ := some ⟨none, none, false⟩

def sampleKeys : TrustedPublicKeys Unit := fun name => if name = ascii ['k'] then some () else none

def sampleLines : List Bytes :=
  [fieldLine (.unique .storePath) samplePath.asStr, fieldLine (.unique .url) (ascii ['x']),
    fieldLine (.unique .compression) (ascii ['n', 'o', 'n', 'e']),
    fieldLine (.unique .narHash) (sha256Label ++ List.replicate 52 48),
    fieldLine (.unique .narSize) (ascii ['1']), fieldLine .signature sampleSignature]

/-- A further line with an unknown field and a carriage return. -/
def sampleUnknown : Bytes := ascii ['X', ':', ' ', '\r']

/-- The narinfo is accepted without the unknown field and refused with it. -/
theorem sampleUnknown_changes_the_result :
    IsUnknownField sampleUnknown ∧
    (TrustedPublicKeys.verifyExternalNarinfo sampleExternals sampleKeys sampleRoute
      (unlines newline sampleLines)).isSome = true ∧
    TrustedPublicKeys.verifyExternalNarinfo sampleExternals sampleKeys sampleRoute
      (unlines newline (sampleLines ++ [sampleUnknown])) = none := by
  refine ⟨⟨by decide, ascii ['X'], ascii ['\r'], by decide, by decide⟩, by decide +kernel, ?_⟩
  have hr : 13 ∈ unlines newline (sampleLines ++ [sampleUnknown]) := by decide +kernel
  simp [TrustedPublicKeys.verifyExternalNarinfo, parseNarinfoText, hr]

end Sample

end NarInfo
