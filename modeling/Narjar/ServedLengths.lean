import Mathlib.Logic.Relation
import Narjar.DeliveryValidation
import Narjar.RangeResponses

/-!
# The length of what is served

A request for a NAR finds the size of the payload first and opens it later, and in between the
payload may be removed, repaired or published again. The length that a response declares is the
one that was found first.
-/
namespace ServedLengths

open ByteCodecs NarFormat ManifestFormat TextFields ByteStreams HttpRequests HttpResponses
open ResponseFraming NarRanges RangeResponses ChunkIngest ChunkReader DeliveryValidation ObjectNames

section Payloads

variable {τ : Type} {valid : τ → Prop} {payload later : Option τ} {contents : τ}

/-- Payloads are removed and published as a whole, and replaced only when they are damaged. -/
inductive PayloadStep (valid : τ → Prop) : Option τ → Option τ → Prop where
  | removed (old : τ) : PayloadStep valid (some old) none
  | published {new : τ} (hnew : valid new) : PayloadStep valid none (some new)
  | repaired {old new : τ} (hold : ¬valid old) (hnew : valid new) :
      PayloadStep valid (some old) (some new)

abbrev PayloadRun (valid : τ → Prop) : Option τ → Option τ → Prop :=
  Relation.ReflTransGen (PayloadStep valid)

/-- A payload that is there is a published one, or it has been there from the beginning. -/
theorem PayloadRun.valid_or_initial (h : PayloadRun valid payload later)
    (hl : later = some contents) : valid contents ∨ payload = some contents := by
  induction h generalizing contents with
  | refl => exact .inr hl
  | tail hr hs ih =>
    cases hs with
    | removed old => cases hl
    | published hn | repaired ho hn =>
      cases hl
      exact .inl hn

theorem PayloadRun.measure_eq {size : τ → Option ℕ} {n m : ℕ} (hr : PayloadRun valid payload later)
    (hv : ∀ contents, valid contents → size contents = some n)
    (hi : ∀ contents m, payload = some contents → size contents = some m → m = n)
    (hl : later = some contents) (hs : size contents = some m) : m = n := by
  rcases hr.valid_or_initial hl with hc | hf
  · rw [hv contents hc] at hs
    exact (Option.some.inj hs).symm
  · exact hi contents m hf hs

end Payloads

/-- The response carries the NAR and declares its complete length. -/
def Declares (response : Response Body) (n : ℕ) : Prop :=
  (response.status = 200 ∧ response.contentLength = n) ∨
    (response.status = 206 ∧ ∃ first last, contentRanges response = [contentRangeValue first last n])

/-- A response that carries the NAR declares the size of what was opened. -/
def DeclaresOpened (opened : Option ℕ) (reply : Reply) : Prop :=
  reply.response.status = 200 ∨ reply.response.status = 206 →
    ∃ n, opened = some n ∧ Declares reply.response n

theorem contentRangeValue_injective
    (h : contentRangeValue first last n = contentRangeValue first' last' n') : n = n' := by
  have hn : ∀ k, (47 : UInt8) ∉ decimal k := by
    intro k hm
    have hd := isDigit_decimal hm
    cases hd
  have hs : ∀ a b c, splitOnce [47] (contentRangeValue a b c) =
      some (ascii "bytes ".toList ++ decimal a ++ [45] ++ decimal b, decimal c) := by
    intro a b c
    rw [contentRangeValue, List.append_assoc _ [47]]
    refine splitOnce_append ?_ _
    simp only [List.mem_append, not_or]
    exact ⟨⟨⟨by decide, hn a⟩, by decide⟩, hn b⟩
  have hb := hs first last n
  rw [h, hs] at hb
  exact decimal_injective (Prod.mk.inj (Option.some.inj hb)).2.symm

section Replies

variable {ε : Type} {request : Request} {visibility : ReadVisibility} {lookups : NarLookups ε}

theorem respondNar_carries
    (h : (respondNar request visibility lookups).response.status = 200 ∨
      (respondNar request visibility lookups).response.status = 206) :
    ∃ length range body, lookups.narSize = .ok (some length) ∧
      lookups.openNarRange range.byteRange.1 range.byteRange.2 = .ok (some body) ∧
      (range = .full length ∨ ∃ start stop, range = .portion start stop length) ∧
      ∃ reader, (respondNar request visibility lookups).response =
        narRangeResponse range range.contentLength visibility reader := by
  have hb : ∀ range : NarResponseRange,
      ((respondNarBytes visibility lookups range).response.status = 200 ∨
        (respondNarBytes visibility lookups range).response.status = 206) →
      ∃ body, lookups.openNarRange range.byteRange.1 range.byteRange.2 = .ok (some body) ∧
        ∃ reader, (respondNarBytes visibility lookups range).response =
          narRangeResponse range range.contentLength visibility reader := by
    intro range hc
    unfold respondNarBytes at hc ⊢
    cases ho : lookups.openNarRange range.byteRange.1 range.byteRange.2 with
    | error error =>
      simp only [ho] at hc
      rcases hc with hs | hs <;> cases hs
    | ok found =>
      cases found with
      | none =>
        simp only [ho] at hc
        rcases hc with hs | hs <;> cases hs
      | some body =>
        cases body with
        | file | chunked => exact ⟨_, rfl, _, rfl⟩
  unfold respondNar at h ⊢
  cases hi : lookups.narSize with
  | error error =>
    simp only [hi] at h
    rcases h with hs | hs <;> cases hs
  | ok found =>
    cases found with
    | none =>
      simp only [hi] at h
      rcases h with hs | hs <;> cases hs
    | some length =>
      simp only [hi] at h ⊢
      cases hr : requestedRange request length with
      | full =>
        simp only [hr] at h ⊢
        obtain ⟨body, ho, he⟩ := hb _ h
        exact ⟨length, .full length, body, rfl, ho, .inl rfl, he⟩
      | portion start stop =>
        simp only [hr] at h ⊢
        obtain ⟨body, ho, he⟩ := hb _ h
        exact ⟨length, .portion start stop length, body, rfl, ho, .inr ⟨start, stop, rfl⟩, he⟩
      | unsatisfiable | invalid =>
        simp only [hr] at h
        rcases h with hs | hs <;> cases hs

theorem respondNar_chunked
    (hs : lookups.narSize = .ok (some length))
    (hr : (requestedRange request length = .full ∧ range = .full length) ∨
      ∃ start stop, requestedRange request length = .portion start stop ∧
        range = .portion start stop length)
    (ho : lookups.openNarRange range.byteRange.1 range.byteRange.2 = .ok (some (.chunked body))) :
    (respondNar request visibility lookups).response =
      narRangeResponse range range.contentLength visibility body := by
  unfold respondNar
  rcases hr with ⟨hf, rfl⟩ | ⟨start, stop, hp, rfl⟩
  · simp only [hs, hf, respondNarBytes, ho]
    rfl
  · simp only [hs, hp, respondNarBytes, ho]
    rfl

theorem declares_narRangeResponse
    (h : range = .full length ∨ ∃ start stop, range = .portion start stop length) :
    Declares (narRangeResponse range range.contentLength visibility reader) length := by
  rcases h with rfl | ⟨start, stop, rfl⟩
  · left
    rw [narRangeResponse_contentLength]
    refine ⟨?_, rfl⟩
    cases visibility <;> rfl
  · right
    rw [narRangeResponse_portion_status]
    exact ⟨rfl, start, stop, narRangeResponse_contentRange _ _ _ _ _ _⟩

end Replies

/-- The lookups of a NAR in a file, which is found twice. The second time it is validated. -/
def flatLookupsAt (H : Hashing) (name : NarFileName) (seek : Except SocketError Unit)
    (reads : List (Acceptance SocketError)) (sized opened : Option Bytes) :
    NarLookups ValidationError :=
  ⟨.ok (sized.map List.length), fun _ _ =>
    match opened with
    | none => .ok none
    | some contents =>
      if (identify H name contents).isSome then .ok (some (.file ⟨contents, seek, reads⟩))
      else .error .narMismatch⟩

def storeWith (chunks : Digest → Option Bytes) (hash : Digest) (manifest : Option Bytes) : ChunkStore :=
  ⟨chunks, fun other => if other = hash then manifest else none⟩

/-- The lookups of a NAR in chunks, whose manifest is found three times: for the size, to validate
it, and to read it. -/
def chunkedLookupsAt (sha256 : Bytes → Digest) (chunks : Digest → Option Bytes) (hash : Digest)
    (calls : List ReadCall) (sized validated opened : Option Bytes) : NarLookups ChunkStoreError :=
  ⟨(chunkedLookups sha256 (storeWith chunks hash sized) hash calls).narSize, fun start stop =>
    match validateManifest sha256 (storeWith chunks hash validated) hash with
    | .error error => .error (.manifest error)
    | .ok none => .ok none
    | .ok (some _) =>
      (openReaderWithMode (storeWith chunks hash opened) hash start stop maxChunkManifestBytes
        .verified).map fun reader =>
          some (.chunked (chunkAnswers sha256 (storeWith chunks hash opened) reader calls))⟩

def statedSize (manifest : Bytes) : Option ℕ :=
  (ManifestReader.new manifest maxChunkManifestBytes).toOption.map fun reader =>
    reader.manifest.identity.size

/-- A manifest that is published for the NAR of the given hash and size. -/
def ValidManifest (sha256 : Bytes → Digest) (identity : NarIdentity) (manifest : Bytes) : Prop :=
  ∃ reader, ManifestReader.new manifest maxChunkManifestBytes = .ok reader ∧
    reader.finishRemaining sha256 = .ok () ∧ reader.manifest.identity = identity

section Backends

variable {sha256 : Bytes → Digest} {chunks : Digest → Option Bytes} {identity : NarIdentity}
  {calls : List ReadCall} {sized validated opened : Option Bytes}

theorem ValidManifest.statedSize (h : ValidManifest sha256 identity manifest) :
    statedSize manifest = some identity.size := by
  obtain ⟨reader, hn, -, hi⟩ := h
  rw [ServedLengths.statedSize, hn, ← hi]
  rfl

theorem chunked_narSize
    (h : (chunkedLookupsAt sha256 chunks identity.hash calls sized validated opened).narSize =
      .ok (some length)) : ∃ manifest, sized = some manifest ∧ statedSize manifest = some length := by
  simp only [chunkedLookupsAt, chunkedLookups, manifestIdentity, storeWith, if_true] at h
  cases sized with
  | none => cases h
  | some manifest =>
    refine ⟨manifest, rfl, ?_⟩
    cases hn : ManifestReader.new manifest maxChunkManifestBytes with
    | error error =>
      simp only [hn] at h
      cases h
    | ok reader =>
      simp only [hn] at h
      rw [statedSize, hn]
      exact Except.ok.inj h

theorem chunked_narSize_of_stated
    (h : statedSize manifest = some length) :
    (chunkedLookupsAt sha256 chunks identity.hash calls (some manifest) validated opened).narSize =
      .ok (some length) := by
  obtain ⟨reader, hn, rfl⟩ := Option.map_eq_some_iff.1 h
  cases hr : ManifestReader.new manifest maxChunkManifestBytes with
  | error error =>
    rw [hr] at hn
    cases hn
  | ok other =>
    rw [hr] at hn
    cases hn
    simp only [chunkedLookupsAt, chunkedLookups, manifestIdentity, storeWith, if_true, hr]
    rfl

theorem chunked_openNarRange
    (h : (chunkedLookupsAt sha256 chunks identity.hash calls sized validated opened).openNarRange
      start stop = .ok (some body)) :
    ∃ manifest, opened = some manifest ∧ (statedSize manifest).isSome = true := by
  unfold chunkedLookupsAt at h
  simp only at h
  split at h
  · cases h
  · cases h
  · unfold openReaderWithMode at h
    simp only [storeWith, if_true] at h
    cases opened with
    | none => cases h
    | some manifest =>
      refine ⟨manifest, rfl, ?_⟩
      cases hn : ManifestReader.new manifest maxChunkManifestBytes with
      | error error =>
        simp only [FallibleState.okOr, bind, Except.bind, hn, Except.mapError] at h
        cases h
      | ok reader =>
        rw [statedSize, hn]
        rfl

theorem chunked_opens (h : ValidManifest sha256 identity manifest)
    (hr : start ≤ stop) (hs : stop ≤ identity.size) :
    ∃ body, (chunkedLookupsAt sha256 chunks identity.hash calls sized (some manifest)
      (some manifest)).openNarRange start stop = .ok (some (.chunked body)) := by
  obtain ⟨reader, hn, hf, hi⟩ := h
  have hv : validateManifest sha256 (storeWith chunks identity.hash (some manifest))
      identity.hash = .ok (some reader.manifest) := by
    simp only [validateManifest, storeWith, if_true, hn, hf, bind, Except.bind]
  have ho : ∃ r, openReaderWithMode (storeWith chunks identity.hash (some manifest))
      identity.hash start stop maxChunkManifestBytes .verified = .ok r := by
    refine ⟨⟨some reader, start, stop, 0, none, .verified⟩, ?_⟩
    simp only [openReaderWithMode, validateRange, FallibleState.except_bind_ok,
      FallibleState.okOr_ok, FallibleState.mapError_ok, FallibleState.require_ok]
    refine ⟨manifest, by simp only [storeWith, if_true], reader, hn, (), by rw [hi], (), ?_, rfl⟩
    rw [hi]
    omega
  obtain ⟨r, ho⟩ := ho
  refine ⟨chunkAnswers sha256 (storeWith chunks identity.hash (some manifest)) r calls, ?_⟩
  simp only [chunkedLookupsAt, hv, ho, Except.map]

end Backends

/-- One of the contents in play, under the name that its hash gives it. -/
def Published (H : Hashing) (name : NarFileName) (known : Set Bytes) (contents : Bytes) : Prop :=
  contents ∈ known ∧ (identify H name contents).isSome = true

section Flat

variable {H : Hashing} {name : NarFileName} {known : Set Bytes} {good : Bytes}

theorem Published.eq_good (h : Published H name known contents) (hg : Published H name known good)
    (hu : ∀ contents ∈ known, H.sha256 contents = H.sha256 good → contents = good) :
    contents = good := by
  have hh : ∀ {other : Bytes}, (identify H name other).isSome = true →
      H.sha256 other = name.fileHash := by
    intro other ho
    by_contra hne
    rw [identify, if_neg hne] at ho
    cases ho
  exact hu contents h.1 ((hh h.2).trans (hh hg.2).symm)

theorem requestedRange_first_byte (h : 0 < length) :
    requestedRange (rangeGet "bytes=0-0") length = .portion 0 0 := by
  have hv : requestedRange (rangeGet "bytes=0-0") length =
      parseStartingRange [48] [48] length := rfl
  have hz : parseUnsigned u64Max [48] = some 0 := by decide
  rw [hv, parseStartingRange, hz]
  simp only [Nat.not_le.2 h, if_false, parseRangeEnd, hz, Nat.lt_irrefl, Nat.zero_min,
    List.cons_ne_nil]

theorem flat_declares {initial} (hg : Published H name known good)
    (hn : ∀ contents ∈ known, H.sha256 contents = H.sha256 good → contents = good)
    (hi : ∀ contents, initial = some contents → contents.length = good.length)
    {request visibility seek reads sized opened}
    (hs : PayloadRun (Published H name known) initial sized)
    (hp : PayloadRun (Published H name known) sized opened) :
    DeclaresOpened (opened.map List.length)
      (respondNar request visibility (flatLookupsAt H name seek reads sized opened)) := by
  intro hc
  obtain ⟨length, range, body, hz, ho, hr, reader, he⟩ := respondNar_carries hc
  rw [he]
  have hm : ∀ {later : Option Bytes} {contents : Bytes},
      PayloadRun (Published H name known) initial later →
      later = some contents → contents.length = good.length := by
    intro later contents hu hl
    rcases hu.valid_or_initial hl with hv | hf
    · rw [hv.eq_good hg hn]
    · exact hi contents hf
  obtain ⟨contents, hso, rfl⟩ := Option.map_eq_some_iff.1 (Except.ok.inj hz)
  cases opened with
  | none => cases ho
  | some served =>
    refine ⟨served.length, rfl, ?_⟩
    rw [hm (hs.trans hp) rfl, ← hm hs hso]
    exact declares_narRangeResponse hr

end Flat

theorem chunked_declares {sha256 : Bytes → Digest} {chunks : Digest → Option Bytes}
    (hi : ∀ contents size, initial = some contents → statedSize contents = some size →
      size = identity.size)
    (hz : PayloadRun (ValidManifest sha256 identity) initial sized)
    (hva : PayloadRun (ValidManifest sha256 identity) sized validated)
    (hn : PayloadRun (ValidManifest sha256 identity) validated opened) :
    DeclaresOpened (opened.bind statedSize) (respondNar request visibility
      (chunkedLookupsAt sha256 chunks identity.hash calls sized validated opened)) := by
  intro hc
  obtain ⟨length, range, body, hsi, hp, hr, reader, hre⟩ := respondNar_carries hc
  rw [hre]
  obtain ⟨manifest, hm, ht⟩ := chunked_narSize hsi
  obtain ⟨served, hs, ho⟩ := chunked_openNarRange hp
  obtain ⟨size, he⟩ := Option.isSome_iff_exists.1 ho
  have hv : ∀ contents, ValidManifest sha256 identity contents →
      statedSize contents = some identity.size := fun _ h => h.statedSize
  have hl := hz.measure_eq hv hi hm ht
  have hu : PayloadRun (ValidManifest sha256 identity) initial opened := (hz.trans hva).trans hn
  have ha := hu.measure_eq hv hi hs he
  refine ⟨size, by rw [hs]; exact he, ?_⟩
  rw [ha, ← hl]
  exact declares_narRangeResponse hr

/-- For a NAR in a file, every response declares the size of the validated file it sends if and
only if a file that is there at the beginning has the size of the undamaged one. The same holds
for the size that the manifest of a NAR in chunks states. -/
theorem declared_length_iff_initial_size {H : Hashing} {name : NarFileName} {known : Set Bytes}
    {good : Bytes} (hgood : Published H name known good)
    (hunique : ∀ contents ∈ known, H.sha256 contents = H.sha256 good → contents = good)
    {identity : NarIdentity} (hpositive : 0 < identity.size) {manifest : Bytes}
    (hmanifest : ValidManifest H.sha256 identity manifest) (chunks : Digest → Option Bytes)
    (initialFile initialManifest : Option Bytes) :
    ((∀ request visibility seek reads sized opened,
        PayloadRun (Published H name known) initialFile sized →
        PayloadRun (Published H name known) sized opened →
        DeclaresOpened (opened.map List.length) (respondNar request visibility
          (flatLookupsAt H name seek reads sized opened))) ↔
      ∀ contents, initialFile = some contents → contents.length = good.length) ∧
    ((∀ request visibility calls sized validated opened,
        PayloadRun (ValidManifest H.sha256 identity) initialManifest sized →
        PayloadRun (ValidManifest H.sha256 identity) sized validated →
        PayloadRun (ValidManifest H.sha256 identity) validated opened →
        DeclaresOpened (opened.bind statedSize) (respondNar request visibility
          (chunkedLookupsAt H.sha256 chunks identity.hash calls sized validated opened))) ↔
      ∀ contents size, initialManifest = some contents → statedSize contents = some size →
        size = identity.size) := by
  refine ⟨⟨?_, ?_⟩, ?_, ?_⟩
  · rintro he contents rfl
    by_contra hg
    have ha : ¬Published H name known contents := fun hv => hg (by rw [hv.eq_good hgood hunique])
    -- the size is found, the file is repaired, and only then it is opened
    have hl := he keptGet .isPublic (.ok ()) [] (some contents) (some good) .refl
      (.single (.repaired ha hgood))
    have hr : (respondNar keptGet .isPublic
        (flatLookupsAt H name (.ok ()) [] (some contents) (some good))).response =
        narRangeResponse (.full contents.length) contents.length .isPublic [] := by
      simp only [flatLookupsAt, respondNar, Option.map_some]
      have hrn : requestedRange keptGet contents.length = .full := rfl
      simp only [hrn, respondNarBytes, hgood.2, if_true]
      rfl
    rw [DeclaresOpened, hr] at hl
    obtain ⟨n, hn, hd⟩ := hl (.inl rfl)
    cases hn
    rcases hd with ⟨-, hc⟩ | ⟨hs, -⟩
    · exact hg hc
    · cases hs
  · intro hi request visibility seek reads sized opened hsi ho
    exact flat_declares hgood hunique hi hsi ho
  · rintro he contents size rfl hz
    by_contra ht
    have ha : ¬ValidManifest H.sha256 identity contents := by
      intro hv
      rw [hv.statedSize] at hz
      exact ht (Option.some.inj hz).symm
    have hl := fun request => he request .isPublic [] (some contents) (some manifest)
      (some manifest) .refl (.single (.repaired ha hmanifest)) .refl
    have hna : (chunkedLookupsAt H.sha256 chunks identity.hash [] (some contents)
        (some manifest) (some manifest)).narSize = .ok (some size) :=
      chunked_narSize_of_stated hz
    have ho : (some manifest).bind statedSize = some identity.size := hmanifest.statedSize
    simp only [DeclaresOpened, ho] at hl
    have hop : ∀ {start stop : ℕ}, start ≤ stop → stop ≤ identity.size →
        ∃ body, (chunkedLookupsAt H.sha256 chunks identity.hash [] (some contents)
          (some manifest) (some manifest)).openNarRange start stop = .ok (some (.chunked body)) :=
      fun hor hst => chunked_opens hmanifest hor hst
    by_cases hze : size = 0
    · subst hze
      obtain ⟨body, hp⟩ := hop (Nat.le_refl 0) (Nat.zero_le _)
      have hr := hl keptGet
      rw [respondNar_chunked hna (.inl ⟨rfl, rfl⟩) hp] at hr
      obtain ⟨n, hn, hd⟩ := hr (.inl rfl)
      cases hn
      rcases hd with ⟨-, hc⟩ | ⟨hs, -⟩
      · exact ht hc
      · cases hs
    · -- the first byte is in the range of both sizes
      have hf : requestedRange (rangeGet "bytes=0-0") size = .portion 0 0 :=
        requestedRange_first_byte (Nat.pos_of_ne_zero hze)
      obtain ⟨body, hp⟩ := hop (Nat.zero_le 1) hpositive
      have hr := hl (rangeGet "bytes=0-0")
      rw [respondNar_chunked hna (.inr ⟨0, 0, hf, rfl⟩) hp] at hr
      obtain ⟨n, hn, hd⟩ := hr (.inr rfl)
      cases hn
      rcases hd with ⟨hs, -⟩ | ⟨-, first, last, hra⟩
      · cases hs
      · rw [contentRanges, narRangeResponse_contentRange] at hra
        exact ht (contentRangeValue_injective (List.cons.inj hra).1)
  · intro hi request visibility calls sized validated opened hsi hva ho
    exact chunked_declares hi hsi hva ho

/-- SHA-256 on ten bytes, on the first two of them, and on the manifest of the ten. -/
def tenBytesHashing : Hashing where
  sha256 contents :=
    if contents = tenBytes then
      .ofNat 0x1f825aa2f0020ef7cf91dfa30da4668d791c5d4824fc8e41354b89ec05795ab3
    else if contents = [0, 1] then
      .ofNat 0xb413f47d13ee2fe6c845b2ee141af81de858df4ec549a58b7970bb96645bc8d2
    else .ofNat 0x076fa29e72eb17e78fd56ae2f7b44b1e4548aa411f617716ce071bd1161324e1
  decode _ _ := none

def tenBytesName : NarFileName := .raw (tenBytesHashing.sha256 tenBytes)

def tenBytesIdentity : NarIdentity := ⟨tenBytesHashing.sha256 tenBytes, tenBytes.length⟩

def tenBytesManifest : Bytes :=
  completeManifest tenBytesHashing.sha256 ⟨tenBytesIdentity, .minCdcHash4V2, 1⟩
    (recordsOf [⟨tenBytes.length, tenBytesHashing.sha256 tenBytes⟩])

def tenBytesContents : Set Bytes := {tenBytes, [0, 1]}

theorem tenBytes_published : Published tenBytesHashing tenBytesName tenBytesContents tenBytes :=
  ⟨.inl rfl, by decide +kernel⟩

theorem tenBytesHashing_unique (contents : Bytes) (hm : contents ∈ tenBytesContents)
    (h : tenBytesHashing.sha256 contents = tenBytesHashing.sha256 tenBytes) : contents = tenBytes := by
  rcases hm with rfl | rfl
  · rfl
  · exact absurd h (by decide +kernel)

theorem tenBytesManifest_valid :
    ValidManifest tenBytesHashing.sha256 tenBytesIdentity tenBytesManifest := by
  have ht : Tiles ⟨tenBytesIdentity, .minCdcHash4V2, 1⟩ 0 none
      [⟨tenBytes.length, tenBytesHashing.sha256 tenBytes⟩] :=
    ⟨by decide, by decide, Nat.le_refl _, fun _ hl => absurd hl (Option.not_mem_none _), rfl⟩
  have hl : tenBytesManifest.length ≤ maxChunkManifestBytes := by decide +kernel
  obtain ⟨reader, hn, hm, hi⟩ := completeManifest_opens ⟨by decide, by decide⟩ rfl ht hl
  exact ⟨reader, hn, finishRemaining_ok.2 ⟨_, hi⟩, by rw [hm]⟩

theorem tenBytes_declared :
    (∀ request visibility seek reads sized opened,
      PayloadRun (Published tenBytesHashing tenBytesName tenBytesContents) (some tenBytes) sized →
      PayloadRun (Published tenBytesHashing tenBytesName tenBytesContents) sized opened →
      DeclaresOpened (opened.map List.length) (respondNar request visibility
        (flatLookupsAt tenBytesHashing tenBytesName seek reads sized opened))) ∧
    ∀ request visibility calls sized validated opened,
      PayloadRun (ValidManifest tenBytesHashing.sha256 tenBytesIdentity) (some tenBytesManifest)
        sized →
      PayloadRun (ValidManifest tenBytesHashing.sha256 tenBytesIdentity) sized validated →
      PayloadRun (ValidManifest tenBytesHashing.sha256 tenBytesIdentity) validated opened →
      DeclaresOpened (opened.bind statedSize) (respondNar request visibility
        (chunkedLookupsAt tenBytesHashing.sha256 (fun _ => some tenBytes) tenBytesIdentity.hash calls
          sized validated opened)) := by
  obtain ⟨hf, hc⟩ := declared_length_iff_initial_size tenBytes_published tenBytesHashing_unique
    (by decide) tenBytesManifest_valid (fun _ => some tenBytes) (some tenBytes)
    (some tenBytesManifest)
  refine ⟨hf.2 ?_, hc.2 ?_⟩
  · rintro contents ⟨⟩
    rfl
  · rintro contents size ⟨⟩ hs
    rw [tenBytesManifest_valid.statedSize] at hs
    exact (Option.some.inj hs).symm

/-- The first two of ten bytes are there when the request begins, and the file is repaired after
its size was found. The response is complete after these two bytes. -/
theorem tenBytes_repaired_between :
    PayloadRun (Published tenBytesHashing tenBytesName tenBytesContents) (some [0, 1])
      (some tenBytes) ∧
    ∃ response, respondNar keptGet .isPublic (flatLookupsAt tenBytesHashing tenBytesName (.ok ()) []
        (some [0, 1]) (some tenBytes)) = .file response ⟨tenBytes, .ok (), []⟩ 0 2 ∧
      response.status = 200 ∧ response.contentLength = 2 ∧ ¬Declares response tenBytes.length := by
  have hd : ¬Published tenBytesHashing tenBytesName tenBytesContents [0, 1] := fun h =>
    absurd h.2 (by decide +kernel)
  refine ⟨.single (.repaired hd tenBytes_published), _, rfl, rfl, rfl, ?_⟩
  rintro (⟨-, hl⟩ | ⟨hs, -⟩)
  · cases hl
  · cases hs

end ServedLengths
