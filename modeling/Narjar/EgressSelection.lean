import Narjar.DeliveryValidation
import Narjar.FaultyPrograms

/-!
# Which compressed output a NAR is served as

For every raw NAR and every codec there is a slot with a receipt that names the compressed file
to serve. A selection reuses the recorded file or generates it again; one that comes with a file
retained from an upstream takes that file instead, whatever is recorded. Every step on the disk
may fail or be the last one of the process. A receipt file is what its bytes decode to.
-/
namespace EgressSelection

open ByteCodecs ManifestFormat ObjectNames FaultyPrograms LabelledRuns DeliveryValidation

inductive EgressError where
  | narMismatch
  | io
  deriving DecidableEq

structure EgressSlot where
  raw : NarIdentity
  codec : CompressionCodec
  deriving DecidableEq

/-- The name of a receipt has the hash of the NAR, not its size. -/
structure ReceiptName where
  hash : Digest
  codec : CompressionCodec
  deriving DecidableEq

def EgressSlot.receiptName (slot : EgressSlot) : ReceiptName := ⟨slot.raw.hash, slot.codec⟩

structure EgressReceipt where
  encoded : EncodedIdentity
  decoded : NarIdentity
  deriving DecidableEq

namespace EgressReceipt

def forSlot (slot : EgressSlot) (hash : Digest) (size : ℕ) : EgressReceipt :=
  ⟨⟨slot.codec, hash, size⟩, slot.raw⟩

def output (receipt : EgressReceipt) : EncodedIdentity := receipt.encoded

def slot (receipt : EgressReceipt) : EgressSlot := ⟨receipt.decoded, receipt.encoded.codec⟩

end EgressReceipt

inductive ReceiptFile where
  | receipt (receipt : EgressReceipt)
  | invalid
  deriving DecidableEq

structure EgressStore where
  nar : NarFileName → Option FileState
  receipts : ReceiptName → Option ReceiptFile
  proofs : DeliveryProofs

abbrev Program := Faulty EgressStore EgressError

def fileName (output : EncodedIdentity) : NarFileName := ⟨output.hash, .compressed output.codec⟩

def encodedFileMatches (H : Hashing) (file : FileState) (identity : EncodedIdentity) : Bool :=
  file.contents.length = identity.size && H.sha256 file.contents = identity.hash

def narIdentity (H : Hashing) (nar : Bytes) : NarIdentity := ⟨H.sha256 nar, nar.length⟩

def validateCompressedNar (H : Hashing) (file : FileState) (encoded : EncodedIdentity)
    (decoded : NarIdentity) : Option NarIdentity :=
  if encodedFileMatches H file encoded = true then
    ((H.decode encoded.codec file.contents).map (narIdentity H)).filter (· = decoded)
  else none

def retainedUpstreamIdentity (upstream : NarRepresentation) (egressCodec : CompressionCodec) :
    Option EncodedIdentity :=
  match upstream with
  | .compressed encoded _ => if encoded.codec = egressCodec then some encoded else none
  | .raw _ => none

inductive ExistingDerivative where
  | missing
  | corrupt
  | usable (output : EncodedIdentity)
  deriving DecidableEq

inductive GenerationContract where
  | anyOutput
  | exactOutput (expected : EncodedIdentity)
  deriving DecidableEq

inductive DerivativeWork where
  | reuse (output : EncodedIdentity)
  | generate (contract : GenerationContract)
  deriving DecidableEq

/-- A step that leaves the files and receipts as they are: a sync, or work on a temporary. -/
def quietStep : Program Unit := operation .io fun store => .ok ((), store)

def readEgressReceipt (slot : EgressSlot) : Program (Option EgressReceipt) :=
  observe .io fun store =>
    match store.receipts slot.receiptName with
    | some (.receipt receipt) => .ok (if receipt.slot = slot then some receipt else none)
    | some .invalid | none => .ok none

def openNar (name : NarFileName) : Program (Option FileState) :=
  observe .io fun store => .ok (store.nar name)

def cachedIdentity (name : NarFileName) (file : FileState) : Program (Option NarIdentity) :=
  observe .io fun store => .ok (store.proofs.get name file.stamp)

def insertProof (name : NarFileName) (file : FileState) (identity : NarIdentity) : Program Unit :=
  operation .io fun store =>
    .ok ((), { store with proofs := store.proofs.insert name ⟨file.stamp, identity⟩ })

def inspectEgressDerivativeForSlot (H : Hashing) (slot : EgressSlot) (output : EncodedIdentity) :
    Program ExistingDerivative := do
  match ← openNar (fileName output) with
  | none => pure .missing
  | some file =>
    match ← cachedIdentity (fileName output) file with
    | some identity =>
      if identity = slot.raw then do
        quietStep
        pure (.usable output)
      else pure .corrupt
    | none =>
      if encodedFileMatches H file output = true then do
        quietStep
        insertProof (fileName output) file slot.raw
        pure (.usable output)
      else pure .corrupt

def inspectRetainedCandidate (H : Hashing) (slot : EgressSlot) (candidate : EncodedIdentity) :
    Program ExistingDerivative := do
  match ← openNar (fileName candidate) with
  | none => pure .missing
  | some file =>
    match ← cachedIdentity (fileName candidate) file with
    | some identity =>
      if identity = slot.raw then do
        quietStep
        pure (.usable candidate)
      else pure .corrupt
    | none =>
      match validateCompressedNar H file candidate slot.raw with
      | some identity =>
        if identity = slot.raw then do
          quietStep
          insertProof (fileName candidate) file identity
          pure (.usable candidate)
        else pure .corrupt
      | none => pure .corrupt

def workForReceipt (H : Hashing) (receipt : EgressReceipt) : Program DerivativeWork := do
  match ← inspectEgressDerivativeForSlot H receipt.slot receipt.output with
  | .usable output => pure (.reuse output)
  | .missing | .corrupt => pure (.generate (.exactOutput receipt.output))

def resolveDerivativeWork (H : Hashing) (slot : EgressSlot) : Program DerivativeWork := do
  match ← readEgressReceipt slot with
  | none => pure (.generate .anyOutput)
  | some receipt => workForReceipt H receipt

def reuseVerifiedRetainedCandidate (H : Hashing) (work : DerivativeWork) (slot : EgressSlot)
    (candidate : Option EncodedIdentity) : Program DerivativeWork :=
  match candidate with
  | none => pure work
  | some candidate => do
    match ← inspectRetainedCandidate H slot candidate with
    | .usable output => pure (.reuse output)
    | .missing | .corrupt => pure (.generate (.exactOutput candidate))

def verifyGeneratedOutput (contract : GenerationContract) (output : EncodedIdentity) : Program Unit :=
  match contract with
  | .anyOutput => pure ()
  | .exactOutput expected => if expected = output then pure () else stop .narMismatch

/-- What a selection depends on besides the store: the NAR, the codec, the upstream's
representation of the NAR, what the encoder makes of it and how the new file will be stamped. -/
structure Request where
  nar : Bytes
  codec : CompressionCodec
  upstream : Option NarRepresentation
  encoded : Bytes
  identity : FileIdentity
  modified : ℤ
  changed : ℤ
  deriving DecidableEq

namespace Request

def slot (H : Hashing) (request : Request) : EgressSlot := ⟨narIdentity H request.nar, request.codec⟩

def candidate (request : Request) : Option EncodedIdentity :=
  request.upstream.bind fun upstream => retainedUpstreamIdentity upstream request.codec

def generated (H : Hashing) (request : Request) : EncodedIdentity :=
  ⟨request.codec, H.sha256 request.encoded, request.encoded.length⟩

def file (request : Request) : FileState :=
  ⟨request.identity, request.encoded, request.modified, request.changed⟩

end Request

/-- A file that is what its name says is kept, any other one is replaced. -/
def repairEgressDerivative (H : Hashing) (output : EncodedIdentity) (file : FileState) :
    Program Unit :=
  operation .io fun store =>
    if (store.nar (fileName output)).any fun existing => encodedFileMatches H existing output then
      .ok ((), store)
    else .ok ((), { store with nar := Function.update store.nar (fileName output) (some file) })

/-- The transaction, the temporary, its contents and the sync come before the contract is known to
hold; the commit follows. -/
def materializeCompressedNar (H : Hashing) (request : Request) (contract : GenerationContract) :
    Program EncodedIdentity := do
  quietStep
  quietStep
  verifyGeneratedOutput contract (request.generated H)
  quietStep
  repairEgressDerivative H (request.generated H) request.file
  quietStep
  pure (request.generated H)

def publishEgressReceipt (receipt : EgressReceipt) : Program Unit := do
  quietStep
  operation .io fun store =>
    .ok ((), { store with
      receipts := Function.update store.receipts receipt.slot.receiptName (some (.receipt receipt)) })
  quietStep

def carryOut (H : Hashing) (request : Request) : DerivativeWork → Program EncodedIdentity
  | .reuse output => pure output
  | .generate contract => materializeCompressedNar H request contract

def selectCompressedWithRetainedCandidate (H : Hashing) (request : Request) :
    Program NarRepresentation := do
  let slot := request.slot H
  let work ← resolveDerivativeWork H slot
  let decision ← reuseVerifiedRetainedCandidate H work slot request.candidate
  let output ← carryOut H request decision
  publishEgressReceipt (.forSlot slot output.hash output.size)
  pure (.compressed output slot.raw)

/-- A receipt for a file retained from an upstream is written only where there is none. -/
def publishRetainedEgressReceipt (H : Hashing) (nar : Bytes) (output : EncodedIdentity) :
    Program Unit :=
  if output.size = 0 then stop .narMismatch
  else do
    let slot : EgressSlot := ⟨narIdentity H nar, output.codec⟩
    match ← readEgressReceipt slot with
    | some _ => pure ()
    | none =>
      match ← openNar (fileName output) with
      | none => stop .io
      | some file =>
        if file.contents.length ≠ output.size then stop .narMismatch
        else do
          insertProof (fileName output) file slot.raw
          publishEgressReceipt (.forSlot slot output.hash output.size)

def recordedIn (receipts : ReceiptName → Option ReceiptFile) (slot : EgressSlot) :
    Option EncodedIdentity :=
  match receipts slot.receiptName with
  | some (.receipt receipt) => if receipt.slot = slot then some receipt.output else none
  | some .invalid | none => none

variable {H : Hashing} {receipts : ReceiptName → Option ReceiptFile} {slot other : EgressSlot}
variable {output candidate : EncodedIdentity} {request : Request}

def withReceipt (receipts : ReceiptName → Option ReceiptFile) (slot : EgressSlot)
    (output : EncodedIdentity) : ReceiptName → Option ReceiptFile :=
  Function.update receipts slot.receiptName (some (.receipt ⟨output, slot.raw⟩))

theorem recordedIn_withReceipt (hc : output.codec = slot.codec) :
    recordedIn (withReceipt receipts slot output) slot = some output := by
  have hs : (EgressReceipt.mk output slot.raw).slot = slot := by
    rw [EgressReceipt.slot, hc]
  rw [recordedIn, withReceipt, Function.update_self]
  simp only [if_pos hs, EgressReceipt.output]

theorem recordedIn_withReceipt_of_ne (h : slot.receiptName ≠ other.receiptName) :
    recordedIn (withReceipt receipts other output) slot = recordedIn receipts slot := by
  rw [recordedIn, withReceipt, Function.update_of_ne h, recordedIn]

theorem codec_of_recordedIn (h : recordedIn receipts slot = some output) :
    output.codec = slot.codec := by
  unfold recordedIn at h
  split at h
  · split_ifs at h with hs
    cases h
    rw [← hs]
    rfl
  · cases h
  · cases h

abbrev Unchanged (receipts : ReceiptName → Option ReceiptFile) (store : EgressStore) : Prop :=
  store.receipts = receipts

theorem quietStep_keeps : Preserves P quietStep := by
  refine .operation ?_
  intro store _ store' h ha
  cases Except.ok.inj ha
  exact h

theorem insertProof_keeps (hP : ∀ store proofs, P store → P { store with proofs := proofs }) :
    Preserves P (insertProof name file identity) := by
  refine .operation ?_
  intro store _ store' h ha
  cases Except.ok.inj ha
  exact hP store _ h

structure IgnoresProofs (P : EgressStore → Prop) : Prop where
  keeps : ∀ store proofs, P store → P { store with proofs := proofs }

/-- A program that keeps `P` and finds no other output usable than the one it looks at. -/
def Inspects (P : EgressStore → Prop) (output : EncodedIdentity) (x : Program ExistingDerivative) :
    Prop :=
  Triple P x (fun found store => P store ∧ ∀ usable, found = .usable usable → usable = output)
    (fun _ => P) P

section Inspection

variable {P : EgressStore → Prop}

theorem Inspects.missing : Inspects P output (pure .missing) := .pure fun _ h => ⟨h, by simp⟩

theorem Inspects.corrupt : Inspects P output (pure .corrupt) := .pure fun _ h => ⟨h, by simp⟩

theorem Inspects.usable : Inspects P output (pure (.usable output)) :=
  .pure fun _ h => ⟨h, by simp [eq_comm]⟩

theorem Inspects.after {α : Type} {x} {f : α → Program ExistingDerivative}
    (hx : Preserves P x) (hf : ∀ a, Inspects P output (f a)) : Inspects P output (x >>= f) :=
  Triple.bind (Q := fun _ => P) hx hf

theorem Inspects.ite {c : Prop} [Decidable c]
    (hx : Inspects P output x) (hy : Inspects P output y) :
    Inspects P output (if c then x else y) := by
  by_cases hc : c
  · rwa [if_pos hc]
  · rwa [if_neg hc]

theorem inspectEgressDerivativeForSlot_spec (hP : IgnoresProofs P) :
    Inspects P output (inspectEgressDerivativeForSlot H slot output) := by
  refine .after .observe fun found => ?_
  cases found with
  | none => exact .missing
  | some file =>
    refine .after .observe fun cached => ?_
    cases cached with
    | some identity => exact .ite (.after quietStep_keeps fun _ => .usable) .corrupt
    | none =>
      refine .ite (.after quietStep_keeps fun _ => ?_) .corrupt
      exact .after (insertProof_keeps hP.keeps) fun _ => .usable

theorem inspectRetainedCandidate_spec (hP : IgnoresProofs P) :
    Inspects P candidate (inspectRetainedCandidate H slot candidate) := by
  refine .after .observe fun found => ?_
  cases found with
  | none => exact .missing
  | some file =>
    refine .after .observe fun cached => ?_
    cases cached with
    | some identity => exact .ite (.after quietStep_keeps fun _ => .usable) .corrupt
    | none =>
      simp only
      cases validateCompressedNar H file candidate slot.raw with
      | none => exact .corrupt
      | some identity =>
        refine .ite (.after quietStep_keeps fun _ => ?_) .corrupt
        exact .after (insertProof_keeps hP.keeps) fun _ => .usable

end Inspection

def DerivativeWork.Yields (work : DerivativeWork) (output : EncodedIdentity) : Prop :=
  work = .reuse output ∨ work = .generate (.exactOutput output)

theorem unchanged_ignoresProofs : IgnoresProofs (Unchanged receipts) := ⟨fun _ _ h => h⟩

theorem readEgressReceipt_spec :
    Triple (Unchanged receipts) (readEgressReceipt slot)
      (fun found store => found.map EgressReceipt.output = recordedIn receipts slot ∧
        Unchanged receipts store) (fun _ => Unchanged receipts) (Unchanged receipts) := by
  refine .observe ?_ (fun _ _ h _ => h) (fun _ => id) fun _ => id
  rintro store found rfl hr
  refine ⟨?_, rfl⟩
  unfold recordedIn
  split at hr
  · next receipt _ =>
    cases Except.ok.inj hr
    by_cases hs : receipt.slot = slot
    · simp only [if_pos hs, Option.map_some]
    · simp only [if_neg hs, Option.map_none]
  · cases Except.ok.inj hr
    rfl
  · cases Except.ok.inj hr
    rfl

theorem workForReceipt_spec :
    Triple (Unchanged receipts) (workForReceipt H receipt)
      (fun work store => Unchanged receipts store ∧ work.Yields receipt.output)
      (fun _ => Unchanged receipts) (Unchanged receipts) := by
  refine .bind (inspectEgressDerivativeForSlot_spec unchanged_ignoresProofs) fun found => ?_
  cases found with
  | usable output =>
    refine .pure fun store h => ⟨h.1, .inl ?_⟩
    rw [h.2 output rfl]
  | missing | corrupt => exact .pure fun store h => ⟨h.1, .inr rfl⟩

/-- What the receipts say about the work for a slot: with a receipt it is about the recorded
output, without one any output will do. -/
def Resolves (recorded : Option EncodedIdentity) (work : DerivativeWork) : Prop :=
  match recorded with
  | some output => work.Yields output
  | none => work = .generate .anyOutput

theorem resolveDerivativeWork_spec :
    Triple (Unchanged receipts) (resolveDerivativeWork H slot)
      (fun work store => Unchanged receipts store ∧ Resolves (recordedIn receipts slot) work)
      (fun _ => Unchanged receipts) (Unchanged receipts) := by
  refine .bind readEgressReceipt_spec fun found => .assuming fun hr => ?_
  rw [← hr]
  cases found with
  | none => exact .pure fun _ h => ⟨h, rfl⟩
  | some receipt => exact workForReceipt_spec

/-- The output that a selection is about: the candidate, or else what is recorded. -/
def Request.wanted (H : Hashing) (request : Request) (receipts : ReceiptName → Option ReceiptFile) :
    Option EncodedIdentity :=
  request.candidate.or (recordedIn receipts (request.slot H))

theorem reuseVerifiedRetainedCandidate_spec
    (hw : Resolves (recordedIn receipts (request.slot H)) work) : Triple (Unchanged receipts)
      (reuseVerifiedRetainedCandidate H work (request.slot H) request.candidate)
      (fun decision store => Unchanged receipts store ∧ Resolves (request.wanted H receipts) decision)
      (fun _ => Unchanged receipts) (Unchanged receipts) := by
  unfold Request.wanted
  cases request.candidate with
  | none => exact .pure fun _ h => ⟨h, hw⟩
  | some candidate =>
    refine .bind (inspectRetainedCandidate_spec unchanged_ignoresProofs) fun found => ?_
    cases found with
    | usable output =>
      refine .pure fun store h => ⟨h.1, .inl ?_⟩
      rw [h.2 output rfl]
    | missing | corrupt => exact .pure fun store h => ⟨h.1, .inr rfl⟩

theorem materializeCompressedNar_spec :
    Triple (Unchanged receipts) (materializeCompressedNar H request contract)
      (fun output store => Unchanged receipts store ∧ output = request.generated H ∧
        ∀ expected, contract = .exactOutput expected → output = expected)
      (fun _ => Unchanged receipts) (Unchanged receipts) := by
  have hq : Triple (Unchanged receipts) quietStep (fun _ => Unchanged receipts)
    (fun _ => Unchanged receipts) (Unchanged receipts) := quietStep_keeps
  refine .bind hq fun _ => .bind hq fun _ => ?_
  refine .bind (Q := fun _ store => (∀ expected, contract = .exactOutput expected →
    request.generated H = expected) ∧ Unchanged receipts store) ?_ fun _ => .assuming fun he => ?_
  · cases contract with
    | anyOutput => exact .pure fun _ h => ⟨by simp, h⟩
    | exactOutput expected =>
      simp only [verifyGeneratedOutput]
      by_cases hs : expected = request.generated H
      · rw [if_pos hs]
        refine .pure fun _ h => ⟨?_, h⟩
        intro other ho
        cases ho
        exact hs.symm
      · rw [if_neg hs]
        exact .stop fun _ => id
  · refine .bind hq fun _ => .bind (Q := fun _ => Unchanged receipts) (.operation ?_ ?_
      (fun _ => id) fun _ => id) fun _ => .bind hq fun _ => .pure fun _ h => ⟨h, rfl, he⟩
    · intro store _ store' h ha
      split_ifs at ha
      · cases Except.ok.inj ha
        exact h
      · cases Except.ok.inj ha
        exact h
    · intro store e h ha
      split_ifs at ha

structure Chosen (H : Hashing) (receipts : ReceiptName → Option ReceiptFile) (request : Request)
    (output : EncodedIdentity) : Prop where
  codec : output.codec = request.codec
  wanted : ∀ expected, request.wanted H receipts = some expected → output = expected

theorem candidate_codec (h : request.candidate = some candidate) : candidate.codec = request.codec := by
  obtain ⟨upstream, -, hr⟩ := Option.bind_eq_some_iff.1 h
  cases upstream with
  | raw identity => cases hr
  | compressed encoded decoded =>
    simp only [retainedUpstreamIdentity] at hr
    split_ifs at hr with hc
    cases hr
    exact hc

theorem wanted_codec (h : request.wanted H receipts = some output) : output.codec = request.codec := by
  unfold Request.wanted at h
  cases hc : request.candidate with
  | some candidate =>
    rw [hc] at h
    cases h
    exact candidate_codec hc
  | none =>
    rw [hc] at h
    exact codec_of_recordedIn h

theorem Resolves.chosen (h : Resolves (request.wanted H receipts) (.reuse output)) :
    Chosen H receipts request output := by
  unfold Resolves at h
  cases hw : request.wanted H receipts with
  | none =>
    rw [hw] at h
    cases h
  | some expected =>
    rw [hw] at h
    rcases h with hr | hg
    · cases hr
      refine ⟨wanted_codec hw, ?_⟩
      intro other ho
      rw [hw] at ho
      exact Option.some.inj ho
    · cases hg

theorem Resolves.chosen_generated
    (h : Resolves (request.wanted H receipts) (.generate contract))
    (he : ∀ expected, contract = .exactOutput expected → request.generated H = expected) :
    Chosen H receipts request (request.generated H) := by
  refine ⟨rfl, ?_⟩
  intro expected hw
  rw [hw] at h
  rcases h with hr | hg
  · cases hr
  · cases hg
    exact he expected rfl

def Recorded (H : Hashing) (receipts : ReceiptName → Option ReceiptFile) (request : Request)
    (output : EncodedIdentity) (store : EgressStore) : Prop :=
  Chosen H receipts request output ∧
    store.receipts = withReceipt receipts (request.slot H) output

def MayBeRecorded (H : Hashing) (receipts : ReceiptName → Option ReceiptFile) (request : Request)
    (store : EgressStore) : Prop :=
  Unchanged receipts store ∨ ∃ output, Recorded H receipts request output store

theorem publishEgressReceipt_spec (hc : output.codec = slot.codec) :
    Triple (Unchanged receipts) (publishEgressReceipt (.forSlot slot output.hash output.size))
      (fun _ => Unchanged (withReceipt receipts slot output))
      (fun _ store => Unchanged receipts store ∨ Unchanged (withReceipt receipts slot output) store)
      fun store => Unchanged receipts store ∨ Unchanged (withReceipt receipts slot output) store := by
  have hr : EgressReceipt.forSlot slot output.hash output.size = ⟨output, slot.raw⟩ := by
    rw [EgressReceipt.forSlot, ← hc]
  have hs : (EgressReceipt.mk output slot.raw).slot = slot := by
    rw [EgressReceipt.slot, hc]
  rw [hr]
  refine .bind (Q := fun _ => Unchanged receipts) ?_ fun _ =>
    .bind (Q := fun _ => Unchanged (withReceipt receipts slot output)) ?_ fun _ => ?_
  · exact quietStep_keeps.relax (fun _ _ => .inl) fun _ => .inl
  · refine .operation ?_ ?_ (fun _ => .inl) fun _ => .inl
    · rintro store _ store' rfl ha
      cases Except.ok.inj ha
      rw [Unchanged, withReceipt, hs]
    · intro store e h ha
      cases ha
  · exact quietStep_keeps.relax (fun _ _ => .inr) fun _ => .inr

theorem selectCompressedWithRetainedCandidate_spec :
    Triple (Unchanged receipts) (selectCompressedWithRetainedCandidate H request)
      (fun result store => ∃ output, result = .compressed output (request.slot H).raw ∧
        Recorded H receipts request output store)
      (fun _ => MayBeRecorded H receipts request) (MayBeRecorded H receipts request) := by
  refine .bind (Q := fun work store => Resolves (recordedIn receipts (request.slot H)) work ∧
    Unchanged receipts store) ?_ fun work => .assuming fun hw => ?_
  · exact resolveDerivativeWork_spec.consequence (fun _ => id) (fun _ _ h => h.symm)
      (fun _ _ => .inl) fun _ => .inl
  refine .bind (Q := fun decision store => Resolves (request.wanted H receipts) decision ∧
    Unchanged receipts store) ?_ fun decision => .assuming fun hd => ?_
  · exact (reuseVerifiedRetainedCandidate_spec hw).consequence (fun _ => id)
      (fun _ _ h => h.symm) (fun _ _ => .inl) fun _ => .inl
  refine .bind (Q := fun output store => Chosen H receipts request output ∧ Unchanged receipts store)
    ?_ fun output => .assuming fun hc => ?_
  · cases decision with
    | reuse output => exact .pure fun _ h => ⟨hd.chosen, h⟩
    | generate contract =>
      refine materializeCompressedNar_spec.consequence (fun _ => id) ?_ (fun _ _ => .inl)
        fun _ => .inl
      rintro _ store ⟨h, rfl, he⟩
      exact ⟨hd.chosen_generated he, h⟩
  · refine .bind (Q := fun _ => Recorded H receipts request output) ?_ fun _ =>
      .pure fun store h => ⟨output, rfl, h⟩
    have hm : ∀ store, Unchanged receipts store ∨
        Unchanged (withReceipt receipts (request.slot H) output) store →
        MayBeRecorded H receipts request store := fun store h => h.imp id fun hr => ⟨output, hc, hr⟩
    exact (publishEgressReceipt_spec hc.codec).consequence (fun _ => id)
      (fun _ _ h => ⟨hc, h⟩) (fun _ => hm) hm

/-- Retaining a file changes the receipts only where none is recorded. -/
def MayBeRetained (H : Hashing) (receipts : ReceiptName → Option ReceiptFile) (nar : Bytes)
    (output : EncodedIdentity) (store : EgressStore) : Prop :=
  Unchanged receipts store ∨ (recordedIn receipts ⟨narIdentity H nar, output.codec⟩ = none ∧
    Unchanged (withReceipt receipts ⟨narIdentity H nar, output.codec⟩ output) store)

theorem publishRetainedEgressReceipt_spec :
    Triple (Unchanged receipts) (publishRetainedEgressReceipt H nar output)
      (fun _ => MayBeRetained H receipts nar output) (fun _ => MayBeRetained H receipts nar output)
      (MayBeRetained H receipts nar output) := by
  unfold publishRetainedEgressReceipt
  by_cases he : output.size = 0
  · rw [if_pos he]
    exact .stop fun _ => .inl
  rw [if_neg he]
  refine .bind (readEgressReceipt_spec.relax (fun _ _ => .inl)
    fun _ => .inl) fun found => .assuming fun hc => ?_
  cases found with
  | some receipt => exact .pure fun _ => .inl
  | none =>
    have ho : Preserves (Unchanged receipts) (openNar (fileName output)) := .observe
    refine .bind (ho.relax (fun _ _ => .inl) fun _ => .inl)
      fun file => ?_
    cases file with
    | none => exact .stop fun _ => .inl
    | some file =>
      simp only
      by_cases hs : file.contents.length ≠ output.size
      · rw [if_pos hs]
        exact .stop fun _ => .inl
      rw [if_neg hs]
      have hp : Preserves (Unchanged receipts)
          (insertProof (fileName output) file (narIdentity H nar)) :=
        insertProof_keeps fun _ _ h => h
      refine .bind (hp.relax (fun _ _ => .inl)
        fun _ => .inl) fun _ => ?_
      have hm : ∀ store, Unchanged receipts store ∨
          Unchanged (withReceipt receipts ⟨narIdentity H nar, output.codec⟩ output) store →
          MayBeRetained H receipts nar output store :=
        fun store h => h.imp id fun hr => ⟨hc.symm, hr⟩
      exact (publishEgressReceipt_spec rfl).consequence (fun _ => id)
        (fun _ store h => hm store (.inr h)) (fun _ => hm) hm

section Files

variable {S : Set Bytes} {name : NarFileName} {file : FileState}

structure Intact (H : Hashing) (S : Set Bytes) (name : NarFileName) (file : FileState) : Prop where
  known : file.contents ∈ S
  hash : H.sha256 file.contents = name.fileHash

def Holds (name : NarFileName) (file : FileState) (store : EgressStore) : Prop :=
  store.nar name = some file

theorem holds_ignoresProofs : IgnoresProofs (Holds name file) := ⟨fun _ _ h => h⟩

theorem Inspects.preserves
    (h : Inspects P output x) : Preserves P x := h.weaken fun _ _ => And.left

/-- A collision-free hash never lets a repair touch an intact file. -/
theorem repairEgressDerivative_holds (hj : Set.InjOn H.sha256 S) (hi : Intact H S name file)
    (he : request.encoded ∈ S) : Preserves (Holds name file)
      (repairEgressDerivative H (request.generated H) request.file) := by
  refine .operation ?_
  intro store _ store' h ha
  by_cases hn : name = fileName (request.generated H)
  · have hc : file.contents = request.encoded := by
      refine hj hi.known he ?_
      rw [hi.hash, hn]
      rfl
    have hm : encodedFileMatches H file (request.generated H) = true := by
      simp [encodedFileMatches, Request.generated, hc]
    have hy : (store.nar (fileName (request.generated H))).any
        (fun existing => encodedFileMatches H existing (request.generated H)) = true := by
      rw [← hn, h]
      exact hm
    rw [if_pos hy] at ha
    cases Except.ok.inj ha
    exact h
  · split_ifs at ha
    · cases Except.ok.inj ha
      exact h
    · cases Except.ok.inj ha
      exact (Function.update_of_ne hn _ _).trans h

theorem publishEgressReceipt_holds :
    Preserves (Holds name file) (publishEgressReceipt receipt) := by
  refine .bind quietStep_keeps fun _ => .bind (.operation ?_) fun _ => quietStep_keeps
  intro store _ store' h ha
  cases Except.ok.inj ha
  exact h

theorem materializeCompressedNar_holds (hi : Set.InjOn H.sha256 S)
    (hn : Intact H S name file) (he : request.encoded ∈ S) :
    Preserves (Holds name file) (materializeCompressedNar H request contract) := by
  have hc : Preserves (Holds name file) (verifyGeneratedOutput contract (request.generated H)) := by
    cases contract with
    | anyOutput => exact .pure
    | exactOutput expected =>
      simp only [verifyGeneratedOutput]
      by_cases hs : expected = request.generated H
      · rw [if_pos hs]
        exact .pure
      · rw [if_neg hs]
        exact .stop
  exact .bind quietStep_keeps fun _ => .bind quietStep_keeps fun _ => .bind hc fun _ =>
    .bind quietStep_keeps fun _ => .bind (repairEgressDerivative_holds hi hn he) fun _ =>
    .bind quietStep_keeps fun _ => .pure

theorem selectCompressedWithRetainedCandidate_holds (hi : Set.InjOn H.sha256 S)
    (hn : Intact H S name file) (he : request.encoded ∈ S) :
    Preserves (Holds name file) (selectCompressedWithRetainedCandidate H request) := by
  have hr : Preserves (Holds name file) (resolveDerivativeWork H (request.slot H)) := by
    refine .bind .observe fun found => ?_
    cases found with
    | none => exact .pure
    | some receipt =>
      refine .bind (inspectEgressDerivativeForSlot_spec holds_ignoresProofs).preserves fun found => ?_
      cases found with
      | usable | missing | corrupt => exact .pure
  have hu : ∀ work, Preserves (Holds name file)
      (reuseVerifiedRetainedCandidate H work (request.slot H) request.candidate) := by
    intro work
    cases request.candidate with
    | none => exact .pure
    | some candidate =>
      refine .bind (inspectRetainedCandidate_spec holds_ignoresProofs).preserves fun found => ?_
      cases found with
      | usable | missing | corrupt => exact .pure
  refine .bind hr fun work => .bind (hu work) fun decision => .bind ?_ fun output =>
    .bind publishEgressReceipt_holds fun _ => .pure
  cases decision with
  | reuse output => exact .pure
  | generate contract => exact materializeCompressedNar_holds hi hn he

theorem publishRetainedEgressReceipt_holds :
    Preserves (Holds name file) (publishRetainedEgressReceipt H nar output) := by
  unfold publishRetainedEgressReceipt
  by_cases he : output.size = 0
  · rw [if_pos he]
    exact .stop
  rw [if_neg he]
  refine .bind .observe fun found => ?_
  cases found with
  | some receipt => exact .pure
  | none =>
    refine .bind .observe fun opened => ?_
    cases opened with
    | none => exact .stop
    | some opened =>
      simp only
      by_cases hs : opened.contents.length ≠ output.size
      · rw [if_pos hs]
        exact .stop
      · rw [if_neg hs]
        exact .bind (insertProof_keeps holds_ignoresProofs.keeps) fun _ => publishEgressReceipt_holds

end Files

inductive Operation where
  | select (request : Request)
  | retain (nar : Bytes) (output : EncodedIdentity)
  deriving DecidableEq

inductive Answer where
  | selected (result : NarRepresentation)
  | retained
  deriving DecidableEq

def Operation.perform (H : Hashing) : Operation → Program Answer
  | select request => do
    let result ← selectCompressedWithRetainedCandidate H request
    pure (.selected result)
  | retain nar output => do
    publishRetainedEgressReceipt H nar output
    pure .retained

/-- An operation with any faults, and how it ended. -/
def Step (H : Hashing) (store : EgressStore) (entry : Operation × Exit EgressError Answer)
    (store' : EgressStore) : Prop :=
  ∃ faults, (entry.1.perform H store faults).exit = entry.2 ∧
    (entry.1.perform H store faults).state = store'

/-- The NARs and encodings of an operation are among those on which the hash has no collision. -/
def Operation.InPlay (S : Set Bytes) : Operation → Prop
  | select request => request.nar ∈ S ∧ request.encoded ∈ S
  | retain nar _ => nar ∈ S

section Histories

variable {S : Set Bytes} {nar : Bytes} {store store' : EgressStore}
variable {entry : Operation × Exit EgressError Answer}

theorem Step.holds (h : Step H store entry store')
    (hi : Set.InjOn H.sha256 S) (hn : Intact H S name file) (hp : entry.1.InPlay S)
    (hh : Holds name file store) : Holds name file store' := by
  obtain ⟨faults, -, rfl⟩ := h
  obtain ⟨operation, exit⟩ := entry
  cases operation with
  | select request =>
    have hs := selectCompressedWithRetainedCandidate_holds hi hn hp.2
    exact (hs.bind fun _ => .pure).outcome hh faults
  | retain nar output =>
    exact (publishRetainedEgressReceipt_holds.bind fun _ => .pure).outcome hh faults

theorem Step.mayBeRecorded
    (h : Step H store (.select request, exit) store') : MayBeRecorded H store.receipts request store' := by
  obtain ⟨faults, -, rfl⟩ := h
  have hs : Triple (Unchanged store.receipts) (Operation.perform H (.select request))
      (fun _ => MayBeRecorded H store.receipts request)
      (fun _ => MayBeRecorded H store.receipts request) (MayBeRecorded H store.receipts request) := by
    refine .bind (selectCompressedWithRetainedCandidate_spec.weaken ?_) fun _ => .pure fun _ => id
    rintro result t ⟨output, -, hr⟩
    exact .inr ⟨output, hr⟩
  exact hs.outcome rfl faults

theorem Step.recorded
    (h : Step H store (.select request, .done (.selected result)) store') :
    ∃ output, result = .compressed output (request.slot H).raw ∧
      Recorded H store.receipts request output store' := by
  obtain ⟨faults, he, rfl⟩ := h
  have hs : Returns (Unchanged store.receipts) (Operation.perform H (.select request))
      (fun answer t => ∃ output, answer = .selected (.compressed output (request.slot H).raw) ∧
        Recorded H store.receipts request output t) := by
    refine .bind selectCompressedWithRetainedCandidate_spec.onSuccess fun result => .pure ?_
    rintro t ⟨output, rfl, hr⟩
    exact ⟨output, rfl, hr⟩
  obtain ⟨output, ha, hr⟩ := hs.done rfl he
  exact ⟨output, (Answer.selected.inj ha), hr⟩

theorem Step.mayBeRetained
    (h : Step H store (.retain nar output, exit) store') :
    MayBeRetained H store.receipts nar output store' := by
  obtain ⟨faults, -, rfl⟩ := h
  have hr : Triple (Unchanged store.receipts) (Operation.perform H (.retain nar output))
      (fun _ => MayBeRetained H store.receipts nar output)
      (fun _ => MayBeRetained H store.receipts nar output)
      (MayBeRetained H store.receipts nar output) :=
    .bind publishRetainedEgressReceipt_spec fun _ => .pure fun _ => id
  exact hr.outcome rfl faults

theorem slot_eq_of_receiptName
    (hi : Set.InjOn H.sha256 S) (hn : nar ∈ S) (hn' : nar' ∈ S)
    (h : (⟨narIdentity H nar, codec⟩ : EgressSlot).receiptName =
      (⟨narIdentity H nar', codec'⟩ : EgressSlot).receiptName) :
    (⟨narIdentity H nar, codec⟩ : EgressSlot) = ⟨narIdentity H nar', codec'⟩ := by
  obtain ⟨hh, rfl⟩ := ReceiptName.mk.inj h
  rw [hi hn hn' hh]

/-- The selections for the slot bring no other candidate than this output. -/
def Agree (H : Hashing) (slot : EgressSlot) (output : EncodedIdentity)
    (history : List (Operation × Exit EgressError Answer)) : Prop :=
  ∀ request exit, (.select request, exit) ∈ history → request.slot H = slot →
    request.candidate = none ∨ request.candidate = some output

/-- A selection for the slot is about the recorded output, or brings it as its candidate. -/
theorem wanted_of_agree (hr : recordedIn receipts (request.slot H) = some output)
    (h : request.candidate = none ∨ request.candidate = some output) :
    request.wanted H receipts = some output := by
  unfold Request.wanted
  rcases h with hn | hs
  · rw [hn, Option.none_or, hr]
  · rw [hs, Option.some_or]

theorem Step.keeps_recorded (h : Step H store entry store')
    (hi : Set.InjOn H.sha256 S) (ha : nar ∈ S) (hp : entry.1.InPlay S)
    (hr : recordedIn store.receipts ⟨narIdentity H nar, codec⟩ = some output)
    (hg : Agree H ⟨narIdentity H nar, codec⟩ output [entry]) :
    recordedIn store'.receipts ⟨narIdentity H nar, codec⟩ = some output := by
  obtain ⟨operation, exit⟩ := entry
  cases operation with
  | select request =>
    rcases h.mayBeRecorded with hs | ⟨chosen, hc, he⟩
    · rw [hs]
      exact hr
    · rw [he]
      by_cases hn : (⟨narIdentity H nar, codec⟩ : EgressSlot).receiptName =
          (request.slot H).receiptName
      · have hl := slot_eq_of_receiptName hi ha hp.1 hn
        have hw : request.wanted H store.receipts = some output := by
          refine wanted_of_agree ?_ (hg request exit (List.mem_singleton_self _) hl.symm)
          rw [← hr, hl]
          rfl
        obtain rfl := hc.wanted output hw
        rw [hl]
        exact recordedIn_withReceipt hc.codec
      · rw [recordedIn_withReceipt_of_ne hn]
        exact hr
  | retain nar' retained =>
    rcases h.mayBeRetained with hs | ⟨ho, he⟩
    · rw [hs]
      exact hr
    · have hn : (⟨narIdentity H nar, codec⟩ : EgressSlot).receiptName ≠
          (⟨narIdentity H nar', retained.codec⟩ : EgressSlot).receiptName := by
        intro hn
        rw [slot_eq_of_receiptName hi ha hp hn, ho] at hr
        cases hr
      rw [he, recordedIn_withReceipt_of_ne hn]
      exact hr

theorem Step.candidate_recorded (h : Step H store (.select request, .done (.selected result)) store')
    (hc : request.candidate = some candidate) :
    result = .compressed candidate (narIdentity H request.nar) ∧
      recordedIn store'.receipts (request.slot H) = some candidate := by
  obtain ⟨chosen, rfl, hco, hr⟩ := h.recorded
  have hw : request.wanted H store.receipts = some candidate := by
    rw [Request.wanted, hc, Option.some_or]
  obtain rfl := hco.wanted candidate hw
  refine ⟨rfl, ?_⟩
  rw [hr]
  exact recordedIn_withReceipt hco.codec

/-- A selection that brings a candidate returns and records it. One that brings none returns what is
recorded, which only another candidate can change. The recorded file itself is never touched. -/
theorem egress_slot_follows_candidates (hinj : Set.InjOn H.sha256 S) (hnar : nar ∈ S)
    {codec : CompressionCodec} {file : FileState}
    {history : List (Operation × Exit EgressError Answer)}
    (hrecorded : recordedIn store.receipts ⟨narIdentity H nar, codec⟩ = some output)
    (hfile : store.nar (fileName output) = some file) (hknown : file.contents ∈ S)
    (hintact : encodedFileMatches H file output = true) (hrun : Run (Step H) store history store')
    (hplay : ∀ entry ∈ history, entry.1.InPlay S) :
    store'.nar (fileName output) = some file ∧
    (∀ earlier later request result candidate,
      history = earlier ++ (.select request, .done (.selected result)) :: later →
      request.candidate = some candidate →
        result = .compressed candidate (narIdentity H request.nar) ∧
        ∃ middle, Run (Step H) store (earlier ++ [(.select request, .done (.selected result))])
            middle ∧ Run (Step H) middle later store' ∧
          recordedIn middle.receipts (request.slot H) = some candidate) ∧
    (Agree H ⟨narIdentity H nar, codec⟩ output history →
      recordedIn store'.receipts ⟨narIdentity H nar, codec⟩ = some output ∧
      ∀ request result, (.select request, .done (.selected result)) ∈ history →
        request.slot H = ⟨narIdentity H nar, codec⟩ →
          result = .compressed output (narIdentity H nar)) := by
  have hk : Intact H S (fileName output) file := by
    simp only [encodedFileMatches, Bool.and_eq_true, decide_eq_true_eq] at hintact
    exact ⟨hknown, hintact.2⟩
  have hsplit : ∀ earlier later request result candidate,
      history = earlier ++ (.select request, .done (.selected result)) :: later →
      request.candidate = some candidate →
        result = .compressed candidate (narIdentity H request.nar) ∧
        ∃ middle, Run (Step H) store (earlier ++ [(.select request, .done (.selected result))])
            middle ∧ Run (Step H) middle later store' ∧
          recordedIn middle.receipts (request.slot H) = some candidate := by
    rintro earlier later request result candidate rfl hc
    obtain ⟨before, hb, hr⟩ := run_append.1 hrun
    obtain ⟨middle, hs, hl⟩ := run_cons.1 hr
    obtain ⟨hres, hre⟩ := hs.candidate_recorded hc
    exact ⟨hres, middle, hb.tail hs, hl, hre⟩
  suffices h : Holds (fileName output) file store' ∧ (Agree H ⟨narIdentity H nar, codec⟩ output
      history → recordedIn store'.receipts ⟨narIdentity H nar, codec⟩ = some output ∧
      ∀ request result, (.select request, .done (.selected result)) ∈ history →
        request.slot H = ⟨narIdentity H nar, codec⟩ →
          result = .compressed output (narIdentity H nar)) from ⟨h.1, hsplit, h.2⟩
  clear hsplit
  induction hrun with
  | refl => exact ⟨hfile, fun _ => ⟨hrecorded, by simp⟩⟩
  | @tail before after history entry hrun ht ih =>
    have hp := hplay entry (List.mem_append_right _ (List.mem_singleton_self _))
    obtain ⟨hh, hb⟩ := ih fun entry hen => hplay entry (List.mem_append_left _ hen)
    refine ⟨ht.holds hinj hk hp hh, ?_⟩
    intro ha
    have he : Agree H ⟨narIdentity H nar, codec⟩ output history :=
      fun request exit hm => ha request exit (List.mem_append_left _ hm)
    have hg : Agree H ⟨narIdentity H nar, codec⟩ output [entry] :=
      fun request exit hm => ha request exit (List.mem_append_right _ hm)
    obtain ⟨hr, hu⟩ := hb he
    refine ⟨ht.keeps_recorded hinj hnar hp hr hg, ?_⟩
    intro request result hm hs
    rcases List.mem_append.1 hm with ho | hn
    · exact hu request result ho hs
    · cases List.mem_singleton.1 hn
      obtain ⟨chosen, rfl, hc, -⟩ := ht.recorded
      have hw : request.wanted H before.receipts = some output := by
        refine wanted_of_agree ?_ (hg request _ (List.mem_singleton_self _) hs)
        rw [hs]
        exact hr
      rw [hc.wanted output hw, hs]

end Histories

section Sample

/-- The NAR of an empty file. -/
def sampleNar : Bytes := NarFormat.encodeNar (.regular false [])

/-- A zstd frame whose only block is the NAR, uncompressed. -/
def sampleFrame (header : Bytes) : Bytes := [40, 181, 47, 253] ++ header ++ [129, 3, 0] ++ sampleNar

def sizedFrame : Bytes := sampleFrame [32, 112]

def windowFrame : Bytes := sampleFrame [0, 88]

/-- The hashes of the NAR and of its two encodings. -/
def sampleHashing : Hashing where
  sha256 bytes :=
    if bytes = sampleNar then
      Digest.ofNat 0x77ac62e2629d8e45f624589c0c8bf99e24b3a722349bf1e79bc186008534e246
    else if bytes = sizedFrame then
      Digest.ofNat 0xbaefaaf7c440e1999f61cd772858b2b4845bdc1356c9430e5a26307ec79ee503
    else Digest.ofNat 0x4b702ba36a6b492bf88947e8eda47f1cfa55a19b20ea706dfdb99abcb21f8bfb
  decode codec encoded :=
    if codec = .zstd ∧ (encoded = sizedFrame ∨ encoded = windowFrame) then some sampleNar else none

def sampleFile (contents : Bytes) : FileState := ⟨⟨1, 1⟩, contents, 0, 0⟩

def sampleOutput (contents : Bytes) : EncodedIdentity :=
  ⟨.zstd, sampleHashing.sha256 contents, contents.length⟩

def sampleSlot : EgressSlot := ⟨narIdentity sampleHashing sampleNar, .zstd⟩

/-- Both files are there and the receipt names the first one. -/
def sampleStore : EgressStore where
  nar := Function.update (Function.update (fun _ => none) (fileName (sampleOutput sizedFrame))
    (some (sampleFile sizedFrame))) (fileName (sampleOutput windowFrame))
    (some (sampleFile windowFrame))
  receipts := withReceipt (fun _ => none) sampleSlot (sampleOutput sizedFrame)
  proofs := .empty

def candidateFrom (encoded : Bytes) : Option NarRepresentation :=
  some (.compressed (sampleOutput encoded) sampleSlot.raw)

def sampleRequest (upstream : Option NarRepresentation) : Request :=
  ⟨sampleNar, .zstd, upstream, sizedFrame, ⟨1, 2⟩, 0, 0⟩

def otherSelection : Outcome EgressStore EgressError NarRepresentation :=
  selectCompressedWithRetainedCandidate sampleHashing (sampleRequest (candidateFrom windowFrame))
    sampleStore []

/-- The same slot, an intact recorded file, and another file is returned and recorded. -/
theorem otherCandidate_replaces_output :
    recordedIn sampleStore.receipts sampleSlot = some (sampleOutput sizedFrame) ∧
    sampleStore.nar (fileName (sampleOutput sizedFrame)) = some (sampleFile sizedFrame) ∧
    encodedFileMatches sampleHashing (sampleFile sizedFrame) (sampleOutput sizedFrame) = true ∧
    otherSelection.exit = .done (.compressed (sampleOutput windowFrame) sampleSlot.raw) ∧
    sampleOutput windowFrame ≠ sampleOutput sizedFrame ∧
    recordedIn otherSelection.state.receipts sampleSlot = some (sampleOutput windowFrame) := by
  decide +kernel

theorem sampleHashing_injOn : Set.InjOn sampleHashing.sha256 {sampleNar, sizedFrame} := by
  have hn : sampleHashing.sha256 sampleNar ≠ sampleHashing.sha256 sizedFrame := by decide +kernel
  rintro a (rfl | rfl) b (rfl | rfl) h
  · rfl
  · exact absurd h hn
  · exact absurd h.symm hn
  · rfl

def firstOutput : Exit EgressError Answer :=
  .done (.selected (.compressed (sampleOutput sizedFrame) sampleSlot.raw))

/-- Selections without a candidate and with the recorded one, and a receipt for another file. -/
def sampleHistory : List (Operation × Exit EgressError Answer) :=
  [(.select (sampleRequest none), firstOutput),
    (.retain sampleNar (sampleOutput windowFrame), .done .retained),
    (.select (sampleRequest (candidateFrom sizedFrame)), firstOutput),
    (.select (sampleRequest none), .failed .io)]

theorem sampleSelections_agree :
    ∃ store', Run (Step sampleHashing) sampleStore sampleHistory store' ∧
      recordedIn store'.receipts sampleSlot = some (sampleOutput sizedFrame) ∧
      store'.nar (fileName (sampleOutput sizedFrame)) = some (sampleFile sizedFrame) := by
  have hr : ∃ store', Run (Step sampleHashing) sampleStore sampleHistory store' := by
    refine ⟨_, run_cons.2 ⟨_, ⟨[], ?_, rfl⟩, run_cons.2 ⟨_, ⟨[], ?_, rfl⟩,
      run_cons.2 ⟨_, ⟨[], ?_, rfl⟩, .single ⟨[.error], ?_, rfl⟩⟩⟩⟩⟩
    · decide +kernel
    · decide +kernel
    · decide +kernel
    · decide +kernel
  obtain ⟨store', hr⟩ := hr
  have hp : ∀ entry ∈ sampleHistory, entry.1.InPlay {sampleNar, sizedFrame} := by
    simp [sampleHistory, Operation.InPlay, sampleRequest]
  have he : recordedIn sampleStore.receipts ⟨narIdentity sampleHashing sampleNar, .zstd⟩ =
      some (sampleOutput sizedFrame) := by decide +kernel
  have ho : sampleStore.nar (fileName (sampleOutput sizedFrame)) =
      some (sampleFile sizedFrame) := by decide +kernel
  obtain ⟨hf, -, ht⟩ := egress_slot_follows_candidates sampleHashing_injOn (by simp) he ho
    (by simp [sampleFile]) (by decide +kernel) hr hp
  refine ⟨store', hr, (ht ?_).1, hf⟩
  intro request exit hm _
  have hc : ∀ entry ∈ sampleHistory, ∀ request, entry.1 = .select request →
      request.candidate = none ∨ request.candidate = some (sampleOutput sizedFrame) := by
    simp only [sampleHistory, List.forall_mem_cons]
    refine ⟨?_, ?_, ?_, ?_, by simp⟩
    · rintro request ⟨⟩
      exact .inl rfl
    · rintro request ⟨⟩
    · rintro request ⟨⟩
      exact .inr (by decide +kernel)
    · rintro request ⟨⟩
      exact .inl rfl
  exact hc _ hm request rfl

end Sample

end EgressSelection
