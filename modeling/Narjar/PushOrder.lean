import Mathlib.Data.PNat.Defs
import Narjar.Dialogues
import Narjar.LabelledRuns
import Narjar.PushPlan

/-!
# The order of uploads

A wave of a push is cut into chunks, one for each worker. A worker asks the destination for the
narinfo of a path, then perhaps the trusted upstreams, and uploads the NAR and the narinfo of
what is missing. The workers of a wave run side by side, and the next wave starts when they have
all ended well. A request with its retries and redirects is one question here, and its answer may
be anything.
-/
namespace Push

open ByteCodecs DependencyLayers Dialogues LabelledRuns NarInfo ObjectNames List

variable {Key Signature : Type} {E : Externals Key Signature}

inductive UploadArtifact where
  | nar
  | narinfo
  deriving DecidableEq

inductive PushError where
  | request (message : Bytes)
  | unexpectedLookup (storePath : Bytes) (status : ℕ)
  | rejectedUpload (artifact : UploadArtifact) (storePath : Bytes) (status : ℕ)
  | invalidNarinfo
  | conflict (storePath : Bytes)
  deriving DecidableEq

inductive GetResponse where
  | found (body : Bytes)
  | missing
  | unexpectedStatus (status : ℕ)

structure ConfiguredUpstream (Key : Type) where
  url : Bytes
  keys : TrustedPublicKeys Key

inductive Request (E : Externals Key Signature) where
  | lookup (info : NarInfoMetadata E)
  | probe (upstream : ConfiguredUpstream Key) (info : NarInfoMetadata E)
  | measure (info : NarInfoMetadata E) (codec : CompressionCodec)
  | putNar (info : NarInfoMetadata E) (payload : NarRepresentation)
  | putNarinfo (info : NarInfoMetadata E) (payload : NarRepresentation) (body : Bytes)

abbrev Request.Answer : Request E → Type
  | lookup _ => Except PushError GetResponse
  | probe _ _ => Except PushError GetResponse
  | measure _ _ => Except PushError EncodedIdentity
  | putNar _ _ => Except PushError ℕ
  | putNarinfo _ _ _ => Except PushError ℕ

abbrev Client (E : Externals Key Signature) (α : Type) :=
  Dialogue (Request.Answer (E := E)) PushError α

inductive DestinationNarinfoPolicy where
  | reuseExisting
  | refresh
  deriving DecidableEq

structure NativeCopyOptions (Key : Type) where
  destinationNarinfo : DestinationNarinfoPolicy
  ignoreConflicts : Bool
  compression : WireEncoding
  trustedUpstreams : List (ConfiguredUpstream Key)

inductive PushOutcome where
  | uploaded
  | destinationPresent
  | trustedUpstreamPresent
  | conflict
  deriving DecidableEq

inductive DestinationNarinfoState where
  | present
  | differentStorePath
  | unusable
  | missing
  deriving DecidableEq

inductive PushDisposition where
  | destinationPresent
  | destinationConflict
  | trustedUpstreamPresent (url : Bytes)
  | uploadRequired
  deriving DecidableEq

inductive UpstreamLookup where
  | missing
  | rejected
  | matched (url : Bytes)
  deriving DecidableEq

def parseExternalNarinfo (E : Externals Key Signature) (route : StoreHash) (body : Bytes) :
    Option NarInfoClaims :=
  (NarInfoClaims.parseExternalPublication E route body).map Prod.fst

def destinationState (info : NarInfoMetadata E) :
    GetResponse → Except PushError DestinationNarinfoState
  | .found body =>
    match parseExternalNarinfo E info.claims.store body with
    | some claims =>
      if claims.storePath = info.claims.storePath then .ok .present else .ok .differentStorePath
    | none => .ok .unusable
  | .missing => .ok .missing
  | .unexpectedStatus status => .error (.unexpectedLookup info.claims.storePath.asStr status)

def narinfoState (info : NarInfoMetadata E) : Client E DestinationNarinfoState :=
  .request (.lookup info) fun answer => answer.bind (destinationState info)

def verifyUpstreamNarinfo (upstream : ConfiguredUpstream Key) (info : NarInfoMetadata E)
    (body : Bytes) : UpstreamLookup :=
  match upstream.keys.verifyExternalNarinfo E info.claims.store body with
  | none => .rejected
  | some claims =>
    match info.claims.compareLogicalClaims claims with
    | .ok () => .matched upstream.url
    | .error _ => .rejected

/-- A probe that fails is a rejected upstream. -/
def lookupUpstream (upstream : ConfiguredUpstream Key) (info : NarInfoMetadata E) :
    Client E UpstreamLookup :=
  .request (.probe upstream info) fun answer =>
    match answer with
    | .ok (.found body) => .ok (verifyUpstreamNarinfo upstream info body)
    | .ok .missing => .ok .missing
    | .ok (.unexpectedStatus _) => .ok .rejected
    | .error _ => .ok .rejected

def classifyUpstream (info : NarInfoMetadata E) :
    List (ConfiguredUpstream Key) → Client E PushDisposition
  | [] => pure .uploadRequired
  | upstream :: rest => do
    match ← lookupUpstream upstream info with
    | .matched url => pure (.trustedUpstreamPresent url)
    | .rejected => classifyUpstream info rest
    | .missing => classifyUpstream info rest

def classify (options : NativeCopyOptions Key) (info : NarInfoMetadata E) :
    Client E PushDisposition :=
  match options.destinationNarinfo with
  | .refresh => pure .uploadRequired
  | .reuseExisting => do
    match ← narinfoState info with
    | .present => pure .destinationPresent
    | .differentStorePath => pure .destinationConflict
    | .unusable => pure .uploadRequired
    | .missing => classifyUpstream info options.trustedUpstreams

def Accepted (status : ℕ) : Prop := status = 200 ∨ status = 201

instance (status : ℕ) : Decidable (Accepted status) := inferInstanceAs (Decidable (_ ∨ _))

def acceptUploadResponse (artifact : UploadArtifact) (info : NarInfoMetadata E) (status : ℕ) :
    Client E PushOutcome :=
  if Accepted status then pure .uploaded
  else if artifact = .narinfo ∧ status = 409 then do
    match ← narinfoState info with
    | .present => pure .destinationPresent
    | .differentStorePath => pure .conflict
    | .unusable => pure .conflict
    | .missing => pure .conflict
  else .fail (.rejectedUpload artifact info.claims.storePath.asStr status)

def prepareNarUpload (info : NarInfoMetadata E) : WireEncoding → Client E NarRepresentation
  | .raw => pure (.raw info.claims.identity)
  | .compressed codec =>
    .request (.measure info codec) fun answer =>
      answer.map fun encoded => .compressed encoded info.claims.identity

def uploadPath (compression : WireEncoding) (info : NarInfoMetadata E) : Client E PushOutcome := do
  let payload ← prepareNarUpload info compression
  let narStatus ← .request (.putNar info payload) id
  let _ ← acceptUploadResponse .nar info narStatus
  let narinfo ← .ofExcept (FallibleState.okOr (info.serialize payload) .invalidNarinfo)
  let narinfoStatus ← .request (.putNarinfo info payload narinfo) id
  acceptUploadResponse .narinfo info narinfoStatus

def performDisposition (options : NativeCopyOptions Key) (info : NarInfoMetadata E) :
    PushDisposition → Client E PushOutcome
  | .destinationPresent => pure .destinationPresent
  | .destinationConflict => pure .conflict
  | .trustedUpstreamPresent _ => pure .trustedUpstreamPresent
  | .uploadRequired => uploadPath options.compression info

def copyPath (options : NativeCopyOptions Key) (info : NarInfoMetadata E) :
    Client E PushOutcome := do
  let disposition ← classify options info
  let outcome ← performDisposition options info disposition
  if outcome = .conflict ∧ options.ignoreConflicts = false then
    .fail (.conflict info.claims.storePath.asStr)
  else pure outcome

structure PushReport where
  uploaded : ℕ
  destinationPresent : ℕ
  trustedUpstreamPresent : ℕ
  conflicts : ℕ
  deriving DecidableEq

namespace PushReport

def default : PushReport := ⟨0, 0, 0, 0⟩

def merge (r s : PushReport) : PushReport :=
  ⟨r.uploaded + s.uploaded, r.destinationPresent + s.destinationPresent,
    r.trustedUpstreamPresent + s.trustedUpstreamPresent, r.conflicts + s.conflicts⟩

def record (r : PushReport) : PushOutcome → PushReport
  | .uploaded => { r with uploaded := r.uploaded + 1 }
  | .destinationPresent => { r with destinationPresent := r.destinationPresent + 1 }
  | .trustedUpstreamPresent => { r with trustedUpstreamPresent := r.trustedUpstreamPresent + 1 }
  | .conflict => { r with conflicts := r.conflicts + 1 }

end PushReport

inductive CopyWorkerFailure where
  | push (e : PushError)
  | panicked
  deriving DecidableEq

inductive Worker (E : Externals Key Signature) where
  | starting (metadata : List (NarInfoMetadata E))
  | copying (info : NarInfoMetadata E) (rest : List (NarInfoMetadata E)) (report : PushReport)
    (dialogue : Client E PushOutcome)
  | waiting (info : NarInfoMetadata E) (rest : List (NarInfoMetadata E)) (report : PushReport)
    (request : Request E) (next : request.Answer → Client E PushOutcome)
  | ended (result : Except CopyWorkerFailure PushReport)

def nativeCopyPaths (options : NativeCopyOptions Key) (report : PushReport) :
    List (NarInfoMetadata E) → Worker E
  | [] => .ended (.ok report)
  | info :: rest => .copying info rest report (copyPath options info)

inductive Action (E : Externals Key Signature) where
  | connect
  | refuse (e : PushError)
  | request (r : Request E)
  | answer (r : Request E) (a : r.Answer)
  | finish (info : NarInfoMetadata E) (outcome : PushOutcome)
  | fail (info : NarInfoMetadata E) (e : PushError)
  | panic

/-- The worker ends without its report. -/
def Action.Fails : Action E → Prop
  | refuse _ => True
  | fail _ _ => True
  | panic => True
  | _ => False

inductive WorkerStep (options : NativeCopyOptions Key) : Worker E → Action E → Worker E → Prop
  | connect {metadata : List (NarInfoMetadata E)} :
    WorkerStep options (.starting metadata) .connect (nativeCopyPaths options .default metadata)
  | refuse {metadata : List (NarInfoMetadata E)} {e : PushError} :
    WorkerStep options (.starting metadata) (.refuse e) (.ended (.error (.push e)))
  | request {info : NarInfoMetadata E} {rest : List (NarInfoMetadata E)} {report : PushReport}
    {r : Request E} {next : r.Answer → Client E PushOutcome} :
    WorkerStep options (.copying info rest report (.ask r next)) (.request r)
      (.waiting info rest report r next)
  | answer {info : NarInfoMetadata E} {rest : List (NarInfoMetadata E)} {report : PushReport}
    {r : Request E} {next : r.Answer → Client E PushOutcome} {a : r.Answer} :
    WorkerStep options (.waiting info rest report r next) (.answer r a)
      (.copying info rest report (next a))
  | finish {info : NarInfoMetadata E} {rest : List (NarInfoMetadata E)} {report : PushReport}
    {outcome : PushOutcome} :
    WorkerStep options (.copying info rest report (.done outcome)) (.finish info outcome)
      (nativeCopyPaths options (report.record outcome) rest)
  | fail {info : NarInfoMetadata E} {rest : List (NarInfoMetadata E)} {report : PushReport}
    {e : PushError} :
    WorkerStep options (.copying info rest report (.fail e)) (.fail info e)
      (.ended (.error (.push e)))
  | panic {worker : Worker E} (h : ∀ result, worker ≠ .ended result) :
    WorkerStep options worker .panic (.ended (.error .panicked))

/-- `slice::chunks`; every chunk but the last has the given size. -/
def chunks {α : Type} (size : ℕ) : ℕ → List α → List (List α)
  | 0, _ => []
  | fuel + 1, items =>
    if items = [] then [] else items.take size :: chunks size fuel (items.drop size)

def chunkSize (jobs : ℕ+) (wave : List (NarInfoMetadata E)) : ℕ :=
  let workerCount := min (jobs : ℕ) wave.length
  (wave.length + workerCount - 1) / workerCount

def workerChunks (jobs : ℕ+) (wave : List (NarInfoMetadata E)) : List (List (NarInfoMetadata E)) :=
  chunks (chunkSize jobs wave) wave.length wave

def failures (results : List (Except CopyWorkerFailure PushReport)) : ℕ :=
  results.countP fun result => !result.isOk

def merged (results : List (Except CopyWorkerFailure PushReport)) : PushReport :=
  results.foldl (fun report result => match result with
    | .ok worker => report.merge worker
    | .error _ => report) .default

/-- The joined results, or the number of workers that failed. -/
def collectCopyWorkerResults (results : List (Except CopyWorkerFailure PushReport)) :
    Except ℕ PushReport :=
  if failures results = 0 then .ok (merged results) else .error (failures results)

/-- The wave at work, by its number, with the waves after it. -/
structure Wave (E : Externals Key Signature) where
  number : ℕ
  workers : List (Worker E)
  later : List (List (NarInfoMetadata E))
  report : PushReport

inductive Progress (E : Externals Key Signature) where
  | working (wave : Wave E)
  | ended (result : Except ℕ PushReport)

def launch (jobs : ℕ+) (number : ℕ) (report : PushReport) :
    List (List (NarInfoMetadata E)) → Progress E
  | [] => .ended (.ok report)
  | wave :: later => .working ⟨number, (workerChunks jobs wave).map .starting, later, report⟩

def runDependencyWaves (jobs : ℕ+) (waves : List (List (NarInfoMetadata E))) : Progress E :=
  launch jobs 0 .default waves

def afterJoin (jobs : ℕ+) (wave : Wave E) (results : List (Except CopyWorkerFailure PushReport)) :
    Progress E :=
  match collectCopyWorkerResults results with
  | .ok report => launch jobs (wave.number + 1) (wave.report.merge report) wave.later
  | .error count => .ended (.error count)

inductive Label (E : Externals Key Signature) where
  | worker (wave index : ℕ) (action : Action E)
  | join (wave : ℕ)

def Label.wave : Label E → ℕ
  | worker wave _ _ => wave
  | join wave => wave

inductive Step (options : NativeCopyOptions Key) (jobs : ℕ+) :
    Progress E → Label E → Progress E → Prop
  | worker {wave : Wave E} {index : ℕ} {worker worker' : Worker E} {action : Action E}
    (hindex : wave.workers[index]? = some worker)
    (hstep : WorkerStep options worker action worker') :
    Step options jobs (.working wave) (.worker wave.number index action)
      (.working { wave with workers := wave.workers.set index worker' })
  | join {wave : Wave E} (results : List (Except CopyWorkerFailure PushReport))
    (hended : wave.workers = results.map .ended) :
    Step options jobs (.working wave) (.join wave.number) (afterJoin jobs wave results)

/-- The monitor of one path: only its own objects are uploaded, and its narinfo only after a NAR
of the same representation was accepted. The state is the NAR that was accepted. -/
def uploadMonitor (info : NarInfoMetadata E) :
    Monitor (Request.Answer (E := E)) (Option NarRepresentation) where
  allowed
    | _, .putNar other _ => other = info
    | accepted, .putNarinfo other payload _ => other = info ∧ accepted = some payload
    | _, _ => True
  observe
    | _, .putNar _ payload, .ok status => if Accepted status then some payload else none
    | _, .putNar _ _, .error _ => none
    | accepted, _, _ => accepted

variable {options : NativeCopyOptions Key} {info : NarInfoMetadata E}
  {accepted : Option NarRepresentation}

theorem narinfoState_obeys :
    Obeys (uploadMonitor info) (fun s _ => s = accepted) accepted (narinfoState info) :=
  .request trivial fun _ _ _ => rfl

theorem classifyUpstream_obeys (upstreams : List (ConfiguredUpstream Key)) :
    Obeys (uploadMonitor info) (fun _ _ => True) accepted (classifyUpstream info upstreams) := by
  induction upstreams generalizing accepted with
  | nil => exact .pure trivial
  | cons upstream rest ih =>
    have hl : Obeys (uploadMonitor info) (fun _ _ => True) accepted
        (lookupUpstream upstream info) := .request trivial fun _ _ _ => trivial
    refine hl.bind fun s found _ => ?_
    cases found with
    | matched url => exact .pure trivial
    | rejected | missing => exact ih

theorem classify_obeys :
    Obeys (uploadMonitor info) (fun _ _ => True) accepted (classify options info) := by
  rw [classify]
  cases options.destinationNarinfo with
  | refresh => exact .pure trivial
  | reuseExisting =>
    refine narinfoState_obeys.bind fun s state _ => ?_
    cases state with
    | present | differentStorePath | unusable => exact .pure trivial
    | missing => exact classifyUpstream_obeys _

theorem acceptUploadResponse_obeys (artifact : UploadArtifact) (status : ℕ) :
    Obeys (uploadMonitor info) (fun s _ => s = accepted ∧ (artifact = .nar → Accepted status))
      accepted (acceptUploadResponse artifact info status) := by
  rw [acceptUploadResponse]
  by_cases ht : Accepted status
  · rw [if_pos ht]
    exact .pure ⟨rfl, fun _ => ht⟩
  · rw [if_neg ht]
    by_cases hc : artifact = .narinfo ∧ status = 409
    · rw [if_pos hc]
      have hp : artifact = .nar → Accepted status := by
        intro hn
        rw [hc.1] at hn
        cases hn
      refine narinfoState_obeys.bind fun s state hs => ?_
      cases state with
      | present | differentStorePath | unusable | missing => exact .pure ⟨hs, hp⟩
    · rw [if_neg hc]
      trivial

theorem prepareNarUpload_obeys (encoding : WireEncoding) :
    Obeys (uploadMonitor info) (fun _ _ => True) accepted (prepareNarUpload info encoding) := by
  cases encoding with
  | raw => exact .pure trivial
  | compressed codec => exact .request trivial fun _ _ _ => trivial

theorem uploadPath_obeys (compression : WireEncoding) :
    Obeys (uploadMonitor info) (fun _ _ => True) accepted (uploadPath compression info) := by
  refine (prepareNarUpload_obeys compression).bind fun _ payload _ => ?_
  have hp : ∀ s, Obeys (uploadMonitor info)
      (fun s (status : ℕ) => Accepted status → s = some payload) s
      (.request (.putNar info payload) id) := by
    intro s
    refine .request rfl fun answer status hn ha => ?_
    cases (hn : answer = .ok status)
    exact if_pos ha
  refine (hp _).bind fun s status hst => ?_
  refine (acceptUploadResponse_obeys .nar status).bind fun t _ ht => ?_
  have hr := ht.1.trans (hst (ht.2 rfl))
  have hs : Obeys (uploadMonitor info) (fun t _ => t = some payload) t
      (.ofExcept (FallibleState.okOr (info.serialize payload) PushError.invalidNarinfo)) :=
    .ofExcept fun _ _ => hr
  refine hs.bind fun t narinfo ht => ?_
  have hu : Obeys (uploadMonitor info) (fun _ (_ : ℕ) => True) t
      (.request (.putNarinfo info payload narinfo) id) := .request ⟨rfl, ht⟩ fun _ _ _ => trivial
  refine hu.bind fun t status _ => ?_
  exact (acceptUploadResponse_obeys .narinfo status).mono fun _ _ _ => trivial

theorem copyPath_obeys :
    Obeys (uploadMonitor info)
      (fun _ outcome => outcome = .conflict → options.ignoreConflicts = true) accepted
      (copyPath options info) := by
  refine classify_obeys.bind fun s disposition _ => ?_
  have hp : Obeys (uploadMonitor info) (fun _ _ => True) s
      (performDisposition options info disposition) := by
    cases disposition with
    | destinationPresent | destinationConflict | trustedUpstreamPresent => exact .pure trivial
    | uploadRequired => exact uploadPath_obeys _
  refine hp.bind fun t outcome _ => ?_
  by_cases hc : outcome = .conflict ∧ options.ignoreConflicts = false
  · rw [if_pos hc]
    trivial
  · rw [if_neg hc]
    refine .pure fun ho => ?_
    by_contra hi
    exact hc ⟨ho, Bool.not_eq_true _ ▸ hi⟩

def Finished (options : NativeCopyOptions Key) (history : List (Label E)) (number : ℕ)
    (info : NarInfoMetadata E) : Prop :=
  ∃ index outcome, .worker number index (.finish info outcome) ∈ history ∧
    (outcome = .conflict → options.ignoreConflicts = true)

def NarAccepted (history : List (Label E)) (number index : ℕ) (info : NarInfoMetadata E)
    (payload : NarRepresentation) : Prop :=
  ∃ status, Accepted status ∧
    .worker number index (.answer (.putNar info payload) (.ok status)) ∈ history

/-- A worker at one path of its chunk: the paths before it ended well. -/
structure AtPath (options : NativeCopyOptions Key) (history : List (Label E)) (number index : ℕ)
    (chunk : List (NarInfoMetadata E)) (info : NarInfoMetadata E)
    (rest : List (NarInfoMetadata E)) (dialogue : Client E PushOutcome) : Prop where
  position : ∃ before, chunk = before ++ info :: rest ∧
    ∀ other ∈ before, Finished options history number other
  obeys : ∃ accepted, (∀ payload, accepted = some payload →
      NarAccepted history number index info payload) ∧
    Obeys (uploadMonitor info)
      (fun _ outcome => outcome = .conflict → options.ignoreConflicts = true) accepted dialogue

def WorkerOrderly (options : NativeCopyOptions Key) (history : List (Label E)) (number index : ℕ)
    (chunk : List (NarInfoMetadata E)) : Worker E → Prop
  | .starting metadata => metadata = chunk
  | .copying info rest _ dialogue => AtPath options history number index chunk info rest dialogue
  | .waiting info rest _ request next =>
    AtPath options history number index chunk info rest (.ask request next)
  | .ended (.ok _) => ∀ info ∈ chunk, Finished options history number info
  | .ended (.error _) => True

variable {history history' : List (Label E)} {number index : ℕ} {chunk : List (NarInfoMetadata E)}

theorem Finished.mono (h : Finished options history number info) (hs : history ⊆ history') :
    Finished options history' number info := by
  obtain ⟨index, outcome, hm, hc⟩ := h
  exact ⟨index, outcome, hs hm, hc⟩

variable {worker worker' : Worker E} {progress : Progress E} {r : Request E}
variable {results : List (Except CopyWorkerFailure PushReport)} {labels : List (Label E)}
variable {payload : NarRepresentation} {rest : List (NarInfoMetadata E)} {action : Action E}
variable {label : Label E}

theorem NarAccepted.mono (h : NarAccepted history number index info payload)
    (hu : history ⊆ history') : NarAccepted history' number index info payload := by
  obtain ⟨status, hs, hm⟩ := h
  exact ⟨status, hs, hu hm⟩

theorem AtPath.mono
    (h : AtPath options history number index chunk info rest dialogue) (hs : history ⊆ history') :
    AtPath options history' number index chunk info rest dialogue := by
  obtain ⟨⟨before, hc, hb⟩, accepted, ha, ho⟩ := h
  exact ⟨⟨before, hc, fun other ht => (hb other ht).mono hs⟩,
    accepted, fun payload hp => (ha payload hp).mono hs, ho⟩

theorem WorkerOrderly.mono (h : WorkerOrderly options history number index chunk worker)
    (hs : history ⊆ history') : WorkerOrderly options history' number index chunk worker := by
  cases worker with
  | starting metadata => exact h
  | copying | waiting => exact AtPath.mono h hs
  | ended result =>
    cases result with
    | ok report => exact fun info hi => (h info hi).mono hs
    | error failure => trivial

theorem workerOrderly_nativeCopyPaths (before : List (NarInfoMetadata E)) (report : PushReport)
    (hc : chunk = before ++ rest) (hb : ∀ other ∈ before, Finished options history number other) :
    WorkerOrderly options history number index chunk (nativeCopyPaths options report rest) := by
  cases rest with
  | nil =>
    rw [append_nil] at hc
    subst hc
    exact hb
  | cons info rest =>
    refine ⟨⟨before, hc, hb⟩, none, fun payload hn => ?_, copyPath_obeys⟩
    cases hn

theorem WorkerOrderly.step (h : WorkerOrderly options history number index chunk worker)
    (he : WorkerStep options worker action worker') :
    WorkerOrderly options (history ++ [.worker number index action]) number index chunk
      worker' := by
  have hu : history ⊆ history ++ [.worker number index action] := subset_append_left _ _
  have hl : Label.worker number index action ∈ history ++ [.worker number index action] :=
    mem_append_right _ (mem_singleton_self _)
  cases he with
  | connect =>
    cases (h : _ = chunk)
    refine workerOrderly_nativeCopyPaths [] _ rfl fun other ht => ?_
    cases ht
  | refuse => trivial
  | request => exact AtPath.mono h hu
  | @answer info rest report r next a =>
    obtain ⟨hi, accepted, ha, ho⟩ := AtPath.mono h hu
    refine ⟨hi, (uploadMonitor info).observe accepted r a, fun payload hp => ?_,
      ho.2 a⟩
    -- Only the answer to the upload of a NAR changes what was accepted.
    cases r with
    | putNar other narPayload =>
      obtain rfl : other = info := ho.1
      cases a with
      | error e => cases hp
      | ok status =>
        by_cases hs : Accepted status
        · cases (if_pos hs).symm.trans hp
          exact ⟨status, hs, hl⟩
        · cases (if_neg hs).symm.trans hp
    | lookup | probe | measure | putNarinfo => exact ha payload hp
  | @finish info rest report outcome =>
    obtain ⟨⟨before, hc, hb⟩, accepted, -, ho⟩ := AtPath.mono h hu
    refine workerOrderly_nativeCopyPaths (before ++ [info]) _ ?_ ?_
    · rw [hc, append_assoc, singleton_append]
    · intro other ht
      rcases mem_append.1 ht with hd | hn
      · exact hb other hd
      · rw [mem_singleton.1 hn]
        exact ⟨index, outcome, hl, ho⟩
  | fail | panic => trivial

theorem WorkerOrderly.uploads (h : WorkerOrderly options history number index chunk worker)
    (hs : WorkerStep options worker (.request r) worker') :
    match r with
    | .putNar info _ => info ∈ chunk
    | .putNarinfo info payload _ => info ∈ chunk ∧ NarAccepted history number index info payload
    | _ => True := by
  cases hs with
  | @request info rest report r next =>
    obtain ⟨⟨before, hh, -⟩, accepted, hc, ha, -⟩ := h
    have hm : info ∈ chunk := by
      rw [hh]
      exact mem_append_right _ mem_cons_self
    cases r with
    | lookup | probe | measure => trivial
    | putNar other payload =>
      obtain rfl := ha
      exact hm
    | putNarinfo other payload body =>
      obtain ⟨rfl, hp⟩ := ha
      exact ⟨hm, hc payload hp⟩

theorem flatten_chunks {α : Type} {size fuel : ℕ} {items : List α} (hs : 0 < size)
    (hf : items.length ≤ fuel) : (chunks size fuel items).flatten = items := by
  induction fuel generalizing items with
  | zero =>
    rw [eq_nil_of_length_eq_zero (Nat.le_zero.1 hf)]
    rfl
  | succ fuel ih =>
    rw [chunks]
    split
    · next he => rw [he, flatten_nil]
    · next hi =>
      have hp := length_pos_of_ne_nil hi
      rw [flatten_cons, ih (by rw [length_drop]; omega), take_append_drop]

theorem flatten_workerChunks (jobs : ℕ+) {wave : List (NarInfoMetadata E)} (h : wave ≠ []) :
    (workerChunks jobs wave).flatten = wave := by
  refine flatten_chunks ?_ (Nat.le_refl _)
  have hl := length_pos_of_ne_nil h
  have hj := jobs.pos
  exact Nat.div_pos (by omega) (by omega)

variable {jobs : ℕ+} {waves : List (List (NarInfoMetadata E))} {wave : Wave E}

/-- The wave at work: the waves before it ended well, and a worker that failed is still to be
joined. -/
structure Orderly (options : NativeCopyOptions Key) (jobs : ℕ+)
    (waves : List (List (NarInfoMetadata E))) (history : List (Label E)) (wave : Wave E) :
    Prop where
  later : wave.later = waves.drop (wave.number + 1)
  workers : ∃ paths, waves[wave.number]? = some paths ∧
    wave.workers.length = (workerChunks jobs paths).length ∧
    ∀ index worker chunk, wave.workers[index]? = some worker →
      (workerChunks jobs paths)[index]? = some chunk →
      WorkerOrderly options history wave.number index chunk worker
  earlier : ∀ number < wave.number, ∀ paths, waves[number]? = some paths →
    ∀ info ∈ paths, Finished options history number info
  past : ∀ label ∈ history, label.wave ≤ wave.number
  failed : ∀ number index action, .worker number index action ∈ history → action.Fails →
    number = wave.number ∧ ∃ failure, wave.workers[index]? = some (.ended (.error failure))

/-- Nothing comes after the wave of a failure. -/
def Stopped (history : List (Label E)) : Prop :=
  ∀ number index action, .worker number index action ∈ history → action.Fails →
    ∀ label ∈ history, label.wave ≤ number

def InOrder (options : NativeCopyOptions Key) (jobs : ℕ+)
    (waves : List (List (NarInfoMetadata E))) (history : List (Label E)) : Progress E → Prop
  | .working wave => Orderly options jobs waves history wave
  | .ended _ => Stopped history

theorem Orderly.stopped (h : Orderly options jobs waves history wave) : Stopped history := by
  intro number index action hm hf label hl
  obtain ⟨rfl, -⟩ := h.failed number index action hm hf
  exact h.past label hl

theorem InOrder.stopped (h : InOrder options jobs waves history progress) : Stopped history := by
  cases progress with
  | working wave => exact Orderly.stopped h
  | ended result => exact h

theorem inOrder_launch (number : ℕ)
    (he : ∀ j < number, ∀ paths, waves[j]? = some paths →
      ∀ info ∈ paths, Finished options history j info) (hp : ∀ label ∈ history, label.wave ≤ number)
    (ha : ∀ i index action, .worker i index action ∈ history → ¬action.Fails) :
    InOrder options jobs waves history (launch jobs number report (waves.drop number)) := by
  cases hl : waves.drop number with
  | nil => exact fun i index action hm hf => absurd hf (ha i index action hm)
  | cons paths later =>
    have hlt : number < waves.length := by
      by_contra hge
      rw [drop_eq_nil_of_le (Nat.le_of_not_lt hge)] at hl
      cases hl
    rw [drop_eq_getElem_cons hlt, List.cons.injEq] at hl
    obtain ⟨rfl, rfl⟩ := hl
    refine ⟨rfl, ⟨waves[number], List.getElem?_eq_getElem hlt, length_map .., ?_⟩, he,
      hp, fun i index action hm hf => absurd hf (ha i index action hm)⟩
    intro index worker chunk hw hc
    rw [List.getElem?_map, hc] at hw
    cases Option.some.inj hw
    rfl

theorem Orderly.worker_step (h : Orderly options jobs waves history wave)
    (hi : wave.workers[index]? = some worker) (hs : WorkerStep options worker action worker') :
    Orderly options jobs waves (history ++ [.worker wave.number index action])
      { wave with workers := wave.workers.set index worker' } := by
  have hu : history ⊆ history ++ [.worker wave.number index action] :=
    subset_append_left _ _
  obtain ⟨hlt, -⟩ := List.getElem?_eq_some_iff.1 hi
  obtain ⟨paths, hp, hg, hr⟩ := h.workers
  refine ⟨h.later, ⟨paths, hp, ?_, ?_⟩, ?_, ?_, ?_⟩
  · rw [length_set]
    exact hg
  · intro other worker₂ chunk hw₂ hc
    by_cases heq : index = other
    · subst heq
      rw [List.getElem?_set_self hlt] at hw₂
      cases Option.some.inj hw₂
      exact (hr index worker chunk hi hc).step hs
    · rw [List.getElem?_set_ne heq] at hw₂
      exact (hr other worker₂ chunk hw₂ hc).mono hu
  · intro j hj paths' hp' info hin
    exact (h.earlier j hj paths' hp' info hin).mono hu
  · intro label hl
    rcases mem_append.1 hl with ho | hn
    · exact h.past label ho
    · rw [mem_singleton.1 hn]
      exact Nat.le_refl _
  · intro i other action' hm hf
    rcases mem_append.1 hm with ho | hn
    · obtain ⟨rfl, failure, he⟩ := h.failed i other action' ho hf
      refine ⟨rfl, failure, ?_⟩
      -- A worker that ended takes no step, so it is another one.
      have hne : index ≠ other := by
        intro heq
        subst heq
        rw [hi] at he
        cases Option.some.inj he
        cases hs with
        | panic hru => exact hru _ rfl
      rwa [List.getElem?_set_ne hne]
    · cases mem_singleton.1 hn
      refine ⟨rfl, ?_⟩
      rw [List.getElem?_set_self hlt]
      cases hs with
      | refuse | fail | panic => exact ⟨_, rfl⟩
      | connect | request | answer | finish => exact hf.elim

theorem ok_of_failures_eq_zero (h : failures results = 0)
    (result : Except CopyWorkerFailure PushReport) (hr : result ∈ results) :
    ∃ report, result = .ok report := by
  have hok := countP_eq_zero.1 h result hr
  cases result with
  | ok report => exact ⟨report, rfl⟩
  | error failure => simp [Except.isOk, Except.toBool] at hok

theorem Orderly.finished (h : Orderly options jobs waves history wave)
    (he : wave.workers = results.map .ended) (hok : failures results = 0)
    (hw : ∀ paths ∈ waves, paths ≠ [])
    (hp : waves[wave.number]? = some paths) (hi : info ∈ paths) :
    Finished options history wave.number info := by
  obtain ⟨paths', hp', hl, hwo⟩ := h.workers
  cases Option.some.inj (hp.symm.trans hp')
  have hpaths_ne := hw paths (mem_of_getElem? hp)
  rw [← flatten_workerChunks jobs hpaths_ne] at hi
  obtain ⟨chunk, hc, hm⟩ := mem_flatten.1 hi
  obtain ⟨index, hlt, rfl⟩ := mem_iff_getElem.1 hc
  have hlt' := hl ▸ hlt
  have hk := List.getElem?_eq_getElem hlt'
  have ho := hwo index _ _ hk (List.getElem?_eq_getElem hlt)
  have hr : wave.workers[index] ∈ results.map Worker.ended := by
    rw [← he]
    exact getElem_mem hlt'
  obtain ⟨result, hr, heq⟩ := mem_map.1 hr
  obtain ⟨report, rfl⟩ := ok_of_failures_eq_zero hok result hr
  rw [← heq] at ho
  exact ho info hm

theorem Orderly.join (h : Orderly options jobs waves history wave)
    (he : wave.workers = results.map .ended) (hv : ∀ paths ∈ waves, paths ≠ []) :
    InOrder options jobs waves (history ++ [.join wave.number]) (afterJoin jobs wave results) := by
  have hs : history ⊆ history ++ [.join wave.number] := subset_append_left _ _
  have hp : ∀ label ∈ history ++ [.join wave.number], label.wave ≤ wave.number := by
    intro label hl
    rcases mem_append.1 hl with ho | hn
    · exact h.past label ho
    · rw [mem_singleton.1 hn]
      exact Nat.le_refl _
  have hw : ∀ i index action, Label.worker i index action ∈ history ++ [.join wave.number] →
      .worker i index action ∈ history := by
    intro i index action hm
    rcases mem_append.1 hm with ho | hn
    · exact ho
    · cases mem_singleton.1 hn
  rw [afterJoin, collectCopyWorkerResults]
  by_cases hok : failures results = 0
  · rw [if_pos hok, h.later]
    refine inOrder_launch _ ?_ ?_ ?_
    · intro j hj paths ha info hi
      by_cases hlt : j < wave.number
      · exact (h.earlier j hlt paths ha info hi).mono hs
      · obtain rfl : j = wave.number := by omega
        exact (h.finished he hok hv ha hi).mono hs
    · intro label hl
      exact (hp label hl).trans (Nat.le_succ _)
    · intro i index action hm hf
      obtain ⟨-, failure, hfa⟩ := h.failed i index action (hw i index action hm) hf
      have hr : (Worker.ended (.error failure) : Worker E) ∈ results.map Worker.ended := by
        rw [← he]
        exact mem_of_getElem? hfa
      obtain ⟨result, hr, heq⟩ := mem_map.1 hr
      cases Worker.ended.inj heq
      obtain ⟨report, hre⟩ := ok_of_failures_eq_zero hok _ hr
      cases hre
  · rw [if_neg hok]
    intro i index action hm hf label hl
    obtain ⟨rfl, -⟩ := h.failed i index action (hw i index action hm) hf
    exact hp label hl

theorem InOrder.step (h : InOrder options jobs waves history progress)
    (hw : ∀ paths ∈ waves, paths ≠ []) (hs : Step options jobs progress label progress') :
    InOrder options jobs waves (history ++ [label]) progress' := by
  cases hs with
  | worker hi hs => exact Orderly.worker_step h hi hs
  | join results he => exact Orderly.join h he hw

theorem inOrder_run (hw : ∀ paths ∈ waves, paths ≠ [])
    (run : Run (Step options jobs) (runDependencyWaves jobs waves) labels progress) :
    InOrder options jobs waves labels progress := by
  refine run.history (I := InOrder options jobs waves) ?_ fun _ _ _ _ h hs => h.step hw hs
  exact inOrder_launch 0 (fun j hj => absurd hj (Nat.not_lt_zero j))
    (fun label hl => nomatch hl) fun i index action hm => nomatch hm

theorem Orderly.uploads (h : Orderly options jobs waves history wave)
    (hw : ∀ paths ∈ waves, paths ≠ []) (hi : wave.workers[index]? = some worker)
    (hs : WorkerStep options worker (.request r) worker') :
    ∃ paths, waves[wave.number]? = some paths ∧
      match r with
      | .putNar info _ => info ∈ paths
      | .putNarinfo info payload _ =>
        info ∈ paths ∧ NarAccepted history wave.number index info payload
      | _ => True := by
  obtain ⟨paths, hp, hl, hr⟩ := h.workers
  obtain ⟨hlt, -⟩ := List.getElem?_eq_some_iff.1 hi
  have hc := List.getElem?_eq_getElem (hl ▸ hlt : index < (workerChunks jobs paths).length)
  have hm : ∀ other ∈ (workerChunks jobs paths)[index], other ∈ paths := by
    intro other ho
    rw [← flatten_workerChunks jobs (hw paths (mem_of_getElem? hp))]
    exact mem_flatten.2 ⟨_, getElem_mem _, ho⟩
  have hu := (hr index worker _ hi hc).uploads hs
  refine ⟨paths, hp, ?_⟩
  cases r with
  | lookup | probe | measure => trivial
  | putNar other payload => exact hm other hu
  | putNarinfo other payload body => exact ⟨hm other hu.1, hu.2⟩

theorem exists_step {before after} (hw : ∀ paths ∈ waves, paths ≠ [])
    (run : Run (Step options jobs) (runDependencyWaves jobs waves) labels progress)
    (hl : labels = before ++ label :: after) :
    ∃ s t, InOrder options jobs waves before s ∧ Step options jobs s label t := by
  rw [hl, run_append] at run
  obtain ⟨s, hb, ha⟩ := run
  obtain ⟨t, hs, -⟩ := run_cons.1 ha
  exact ⟨s, t, inOrder_run hw hb, hs⟩

theorem mem_of_upload (hw : ∀ paths ∈ waves, paths ≠ [])
    (run : Run (Step options jobs) (runDependencyWaves jobs waves) labels progress)
    (hl : .worker number index (.request r) ∈ labels)
    (hr : r = .putNar info payload ∨ ∃ body, r = .putNarinfo info payload body) :
    ∃ paths, waves[number]? = some paths ∧ info ∈ paths := by
  obtain ⟨before, after, ha⟩ := append_of_mem hl
  obtain ⟨s, t, ho, hs⟩ := exists_step hw run ha
  cases hs with
  | worker hi hs =>
    obtain ⟨paths, hp, hm⟩ := Orderly.uploads ho hw hi hs
    refine ⟨paths, hp, ?_⟩
    rcases hr with rfl | ⟨body, rfl⟩
    · exact hm
    · exact hm.1

theorem push_order (metadata : List (NarInfoMetadata E)) :
    ((∃ waves, dependencyWaves metadata = .ok waves) ↔
      (stores metadata).Nodup ∧ Closed metadata ∧ Acyclic (DependsOn metadata)) ∧
    ∀ waves, dependencyWaves metadata = .ok waves →
      IsPlan metadata waves ∧
      ∀ (options : NativeCopyOptions Key) (jobs : ℕ+) (labels : List (Label E))
        (progress : Progress E),
        Run (Step options jobs) (runDependencyWaves jobs waves) labels progress →
        (∀ before after number index info payload body,
          labels =
            before ++ .worker number index (.request (.putNarinfo info payload body)) :: after →
          (∃ paths, waves[number]? = some paths ∧ info ∈ paths) ∧
          NarAccepted before number index info payload ∧
          ∀ reference ∈ info.claims.references, reference.store ≠ info.claims.store →
            ∃ j < number, ∃ paths other, waves[j]? = some paths ∧ other ∈ paths ∧
              other.claims.store = reference.store ∧ Finished options before j other) ∧
        (∀ number index action, .worker number index action ∈ labels → action.Fails →
          ∀ j paths info, number < j → waves[j]? = some paths → info ∈ paths →
            ∀ number' index' payload,
              .worker number' index' (.request (.putNar info payload)) ∉ labels ∧
              ∀ body,
                .worker number' index' (.request (.putNarinfo info payload body)) ∉ labels) := by
  refine ⟨⟨fun h => ?_, fun h => exists_dependencyWaves h.1 h.2.1 h.2.2⟩, fun waves hv => ?_⟩
  · obtain ⟨waves, hv⟩ := h
    obtain ⟨hdi, hc, hy, -⟩ := dependencyWaves_ok hv
    exact ⟨hdi, hc, hy⟩
  obtain ⟨-, hc, -, hp⟩ := dependencyWaves_ok hv
  refine ⟨hp, fun options jobs labels progress run => ⟨?_, ?_⟩⟩
  · intro before after number index info payload body hb
    obtain ⟨s, t, hd, hs⟩ := exists_step hp.nonempty run hb
    cases hs with
    | worker hin hs =>
      obtain ⟨paths, ha, hi, hac⟩ :=
        Orderly.uploads hd hp.nonempty hin hs
      refine ⟨⟨paths, ha, hi⟩, hac, fun reference hf ht => ?_⟩
      have hm : ∀ i wave, waves[i]? = some wave → ∀ path ∈ wave, path ∈ metadata :=
        fun i wave hw path hpa =>
          hp.partition.mem_iff.1 (mem_flatten.2 ⟨wave, mem_of_getElem? hw, hpa⟩)
      have hn := hm _ paths ha info hi
      obtain ⟨other, hh, hst⟩ :=
        mem_stores.1 (hc info hn reference hf ht)
      obtain ⟨wave, hw, ho⟩ :=
        mem_flatten.1 (hp.partition.mem_iff.2 hh)
      obtain ⟨j, hj, rfl⟩ := mem_iff_getElem.1 hw
      have hw := List.getElem?_eq_getElem hj
      have hde := dependsOn_iff.2 ⟨info, hn, rfl, reference, hf, ht, hst.symm⟩
      have hlt := hp.lt_of_dependsOn ha hi hw ho hde
      exact ⟨j, hlt, waves[j], other, hw, ho, hst,
        Orderly.earlier hd j hlt _ hw other ho⟩
  · intro number index action hm hfa j paths info hlt ha hi number' index' payload
    have hso := (inOrder_run hp.nonempty run).stopped number index action hm hfa
    -- An upload in an earlier wave would put the path into two waves.
    have he : ∀ r : Request E,
        (r = .putNar info payload ∨ ∃ body, r = .putNarinfo info payload body) →
        .worker number' index' (.request r) ∉ labels := by
      intro r hr hl
      have hle : number' ≤ number := hso _ hl
      obtain ⟨paths', ha', hi'⟩ := mem_of_upload hp.nonempty run hl hr
      have hsa := (hp.longest j paths ha info hi).unique
        (hp.longest number' paths' ha' info hi')
      omega
    exact ⟨he _ (.inl rfl), fun body => he _ (.inr ⟨body, rfl⟩)⟩

/-! A program that refers to itself and to a library, pushed with one worker. -/

def sampleExternals : Externals Unit Unit :=
  ⟨fun _ => none, fun _ => none, fun _ _ _ => true, fun _ => none⟩

def libraryPath : NixStorePath := ⟨⟨List.replicate 32 49, valid_ones⟩, [97], valid_letter⟩

def programPath : NixStorePath := ⟨⟨List.replicate 32 48, valid_zeros⟩, [97], valid_letter⟩

def samplePath (path : NixStorePath) (references : List NixStorePath) :
    NarInfoMetadata sampleExternals where
  claims := .ofReferences path references ⟨⟨List.replicate 32 0, ManifestFormat.length_zeros⟩, 1⟩
  deriver := none
  contentAddress := none
  signatures := []

def sampleLibrary : NarInfoMetadata sampleExternals := samplePath libraryPath []

def sampleProgram : NarInfoMetadata sampleExternals :=
  samplePath programPath [programPath, libraryPath]

def sampleOptions : NativeCopyOptions Unit := ⟨.refresh, false, .raw, []⟩

theorem dependencyWaves_sample :
    dependencyWaves [sampleProgram, sampleLibrary] = .ok [[sampleLibrary], [sampleProgram]] := by
  rfl

def sampleNar (info : NarInfoMetadata sampleExternals) : NarRepresentation :=
  .raw info.claims.identity

def sampleBody (info : NarInfoMetadata sampleExternals) : Bytes :=
  (info.serialize (sampleNar info)).getD []

def narLabels (number : ℕ) (info : NarInfoMetadata sampleExternals) :
    List (Label sampleExternals) :=
  [.worker number 0 .connect,
    .worker number 0 (.request (.putNar info (sampleNar info))),
    .worker number 0 (.answer (.putNar info (sampleNar info)) (.ok 200))]

def sampleNarinfo (info : NarInfoMetadata sampleExternals) : Request sampleExternals :=
  .putNarinfo info (sampleNar info) (sampleBody info)

def sampleLabels : List (Label sampleExternals) :=
  narLabels 0 sampleLibrary ++
    [.worker 0 0 (.request (sampleNarinfo sampleLibrary)),
      .worker 0 0 (.answer (sampleNarinfo sampleLibrary) (.ok 200)),
      .worker 0 0 (.finish sampleLibrary .uploaded), .join 0] ++
    narLabels 1 sampleProgram

set_option maxRecDepth 8000 in
theorem sample_run : ∃ progress,
    Run (Step sampleOptions 1) (runDependencyWaves 1 [[sampleLibrary], [sampleProgram]])
      (sampleLabels ++ [.worker 1 0 (.request (sampleNarinfo sampleProgram))]) progress :=
  ⟨_, run_cons.2 ⟨_, .worker rfl .connect, run_cons.2 ⟨_, .worker rfl .request,
    run_cons.2 ⟨_, .worker rfl .answer, run_cons.2 ⟨_, .worker rfl .request,
    run_cons.2 ⟨_, .worker rfl .answer, run_cons.2 ⟨_, .worker rfl .finish,
    run_cons.2 ⟨_, .join [.ok ⟨1, 0, 0, 0⟩] rfl, run_cons.2 ⟨_, .worker rfl .connect,
    run_cons.2 ⟨_, .worker rfl .request, run_cons.2 ⟨_, .worker rfl .answer,
    .single (.worker rfl .request)⟩⟩⟩⟩⟩⟩⟩⟩⟩⟩⟩

theorem sampleProgram_follows_sampleLibrary :
    dependencyWaves [sampleProgram, sampleLibrary] = .ok [[sampleLibrary], [sampleProgram]] ∧
    (∃ progress,
      Run (Step sampleOptions 1) (runDependencyWaves 1 [[sampleLibrary], [sampleProgram]])
        (sampleLabels ++ [.worker 1 0 (.request (sampleNarinfo sampleProgram))]) progress) ∧
    NarAccepted sampleLabels 1 0 sampleProgram (sampleNar sampleProgram) ∧
    Finished sampleOptions sampleLabels 0 sampleLibrary := by
  obtain ⟨progress, run⟩ := sample_run
  have hu := ((push_order [sampleProgram, sampleLibrary]).2 _ dependencyWaves_sample).2
  obtain ⟨-, ha, hr⟩ := (hu sampleOptions 1 _ progress run).1 sampleLabels [] 1 0
    sampleProgram (sampleNar sampleProgram) (sampleBody sampleProgram) rfl
  refine ⟨dependencyWaves_sample, ⟨progress, run⟩, ha, ?_⟩
  obtain ⟨j, hj, paths, other, hp, ho, -, hf⟩ := hr libraryPath (by decide) (by decide)
  obtain rfl : j = 0 := by omega
  cases Option.some.inj hp
  cases mem_singleton.1 ho
  exact hf

end Push
