import Narjar.ChunkIngest
import Narjar.CrashDisk
import Narjar.FaultyPrograms
import Narjar.ObjectNames

/-!
# Journaled publication of files

A file is published by writing it under a temporary name and moving or linking it to its
destination. A transaction record in a journal directory says how far this has come, so that
recovery after a crash can remove what was left behind. Every step is one filesystem operation
that may fail or be the last one before a crash.
-/
namespace PublicationJournal

open ByteCodecs NarFormat ManifestFormat ObjectNames ChunkIngest FaultyPrograms CrashDisk

inductive Place where
  | transactions
  | temporary
  | narTemporary
  | root
  | nar
  | ingestionReceipts
  | egressReceipts
  | advertisements
  deriving DecidableEq, Repr

/-- The name of a transaction record: the process that wrote it and a number it has counted. -/
structure RecordName where
  process : ℕ
  sequence : ℕ
  deriving DecidableEq, Repr

inductive Name where
  | record (name : RecordName)
  | draft (name : RecordName) (sequence : ℕ)
  | temporary (tempPrefix : Bytes) (process sequence : ℕ)
  | file (text : Bytes)
  deriving DecidableEq, Repr

inductive StorePath where
  | root (name : Bytes)
  | nar (name : Bytes)
  | ingestionReceipt (name : Bytes)
  | egressReceipt (name : Bytes)
  | advertisement (name : Bytes)
  deriving DecidableEq, Repr

namespace StorePath

def directory : StorePath → Place
  | root _ => .root
  | nar _ => .nar
  | ingestionReceipt _ => .ingestionReceipts
  | egressReceipt _ => .egressReceipts
  | advertisement _ => .advertisements

def text : StorePath → Bytes
  | root name | nar name | ingestionReceipt name | egressReceipt name | advertisement name => name

def name (path : StorePath) : Name := .file path.text

end StorePath

inductive TemporaryPath where
  | root (name : Name)
  | nar (name : Name)
  deriving DecidableEq, Repr

namespace TemporaryPath

def directory : TemporaryPath → Place
  | root _ => .temporary
  | nar _ => .narTemporary

def name : TemporaryPath → Name
  | root name | nar name => name

end TemporaryPath

inductive PublicationState where
  | staging
  | streaming
  | validated
  | linked (destination : StorePath)
  | published (destination : StorePath)
  deriving DecidableEq, Repr

def PublicationState.canTransitionTo : PublicationState → PublicationState → Bool
  | staging, next => next = streaming
  | streaming, next => next = validated
  | validated, linked _ => true
  | validated, published _ => true
  | validated, _ => false
  | linked destination, published next => destination = next
  | linked _, _ => false
  | published _, _ => false

structure TransactionRecord where
  temporary : TemporaryPath
  state : PublicationState
  deriving DecidableEq, Repr

/-- A path with a name that the code gives to temporary files; other names may be refused. -/
def TemporaryPath.Generated (path : TemporaryPath) : Prop :=
  ∃ tempPrefix process sequence, path.name = .temporary tempPrefix process sequence

/-- The serialization of records, which reads back what the code writes. -/
structure RecordCodec where
  encode : TransactionRecord → Bytes
  decode : Bytes → Option TransactionRecord
  decode_encode : ∀ record, record.temporary.Generated → decode (encode record) = some record

inductive StorageError where
  | io (kind : ErrorKind)
  | conflict
  | narMismatch
  | collectionBusy
  deriving DecidableEq, Repr

abbrev StoreDisk := Disk Place Name Bytes

/-- The disk and what the process counts. The history is that of the disk, latest first; no step
reads it. -/
structure Storage where
  disk : StoreDisk
  history : List StoreDisk
  process : ℕ
  nextTransaction : ℕ
  nextTemp : ℕ

def Storage.start (disk : StoreDisk) (process nextTransaction nextTemp : ℕ) : Storage :=
  ⟨disk, [], process, nextTransaction, nextTemp⟩

abbrev Action := Faulty Storage StorageError

section Operations

def ioFailure : StorageError := .io .other

def onDisk {α : Type} (act : StoreDisk → Except StorageError (α × StoreDisk)) : Action α :=
  operation ioFailure fun s =>
    (act s.disk).map fun result =>
      (result.1, { s with disk := result.2, history := s.disk :: s.history })

def createNewAt (place : Place) (name : Name) : Action ℕ :=
  onDisk fun d =>
    match d.entry place name with
    | some _ => .error (.io .alreadyExists)
    | none => .ok (d.nextFile, d.create place name [])

def writeAll (file : ℕ) (contents : Bytes) : Action Unit :=
  onDisk fun d => .ok ((), d.write file contents)

def syncFile (file : ℕ) : Action Unit := onDisk fun d => .ok ((), d.syncFile file)

def syncDirectory (place : Place) : Action Unit := onDisk fun d => .ok ((), d.syncDirectory place)

/-- An operation that may fail and changes nothing that is modelled: setting permissions, opening
a directory, duplicating its handle or taking a lease. -/
def inspect : Action Unit := onDisk fun d => .ok ((), d)

def unlinkAt (place : Place) (name : Name) : Action Unit :=
  onDisk fun d =>
    match d.entry place name with
    | none => .error (.io .notFound)
    | some _ => .ok ((), d.unlink place name)

def hardLinkAt (source : Place) (sourceName : Name) (destination : Place)
    (destinationName : Name) : Action Unit :=
  onDisk fun d =>
    match h : d.entry source sourceName with
    | none => .error (.io .notFound)
    | some i =>
      match d.entry destination destinationName with
      | some _ => .error (.io .alreadyExists)
      | none => .ok ((), d.link destination destinationName i (d.entry_lt h))

/-- The two directories change independently of each other in a crash. -/
def renameAt (source : Place) (sourceName : Name) (destination : Place)
    (destinationName : Name) : Action Unit :=
  onDisk fun d =>
    match h : d.entry source sourceName with
    | none => .error (.io .notFound)
    | some i =>
      .ok ((), (d.link destination destinationName i (d.entry_lt h)).unlink source sourceName)

def openRegularAt (place : Place) (name : Name) : Action ℕ :=
  onDisk fun d =>
    match d.entry place name with
    | none => .error (.io .notFound)
    | some i => .ok (i, d)

def readToEnd (file : ℕ) : Action Bytes := onDisk fun d => .ok ((d.files file).contents, d)

def readBoundedBytes (file limit : ℕ) : Action Bytes :=
  onDisk fun d =>
    let bytes := (d.files file).contents
    if limit < bytes.length then .error (.io .invalidData) else .ok (bytes, d)

def currentProcess : Action ℕ := update fun s => (s.process, s)

def fetchAddTransaction : Action ℕ :=
  update fun s => (s.nextTransaction, { s with nextTransaction := s.nextTransaction + 1 })

def fetchAddTemp : Action ℕ :=
  update fun s => (s.nextTemp, { s with nextTemp := s.nextTemp + 1 })

end Operations

inductive TransactionInstall where
  | create
  | replace
  deriving DecidableEq, Repr

structure PublicationTransaction where
  name : RecordName
  path : TemporaryPath
  state : PublicationState
  deriving DecidableEq, Repr

def maxTransactionBytes : ℕ := 256

section Journal

variable (codec : RecordCodec)

def serializeTransaction (temporary : TemporaryPath) (state : PublicationState) :
    Except StorageError Bytes :=
  let bytes := codec.encode ⟨temporary, state⟩
  if maxTransactionBytes < bytes.length then .error (.io .invalidData) else .ok bytes

def parseTransaction (contents : Bytes) : Except StorageError TransactionRecord :=
  if maxTransactionBytes < contents.length then .error (.io .invalidData)
  else
    match codec.decode contents with
    | none => .error (.io .invalidData)
    | some record => .ok record

def writeTransactionDraft (draftName : Name) (contents : Bytes) : Action Unit := do
  let draft ← createNewAt .transactions draftName
  inspect
  writeAll draft contents
  syncFile draft

def installRecord (draftName recordName : Name) : TransactionInstall → Action Unit
  | .create => do
    hardLinkAt .transactions draftName .transactions recordName
    unlinkAt .transactions draftName
  | .replace => renameAt .transactions draftName .transactions recordName

def publishTransactionRecord (name : RecordName) (contents : Bytes)
    (installation : TransactionInstall) : Action Unit := do
  let sequence ← fetchAddTransaction
  handle
    (do
      writeTransactionDraft (.draft name sequence) contents
      installRecord (.draft name sequence) (.record name) installation
      syncDirectory .transactions)
    pure
    fun error => do
      let _ ← attempt (unlinkAt .transactions (.draft name sequence))
      stop error

namespace PublicationTransaction

def transition (transaction : PublicationTransaction) (state : PublicationState) :
    Action PublicationTransaction :=
  if transaction.state.canTransitionTo state then do
    let contents ← ofExcept (serializeTransaction codec transaction.path state)
    publishTransactionRecord transaction.name contents .replace
    pure { transaction with state := state }
  else stop (.io .invalidInput)

def complete (transaction : PublicationTransaction) : Action Unit := do
  unlinkAt .transactions (.record transaction.name)
  syncDirectory .transactions

def cancel (transaction : PublicationTransaction) : Action Unit := do
  let _ ← attempt transaction.complete
  pure ()

end PublicationTransaction

/-- The loop of `begin` over record names, with the number of names left to try. -/
def allocateTransaction (path : TemporaryPath) (contents : Bytes) :
    ℕ → Action PublicationTransaction
  | 0 => stop (.io .alreadyExists)
  | tries + 1 => do
    let sequence ← fetchAddTransaction
    let process ← currentProcess
    handle (publishTransactionRecord ⟨process, sequence⟩ contents .create)
      (fun _ => do
        inspect
        pure ⟨⟨process, sequence⟩, path, .staging⟩)
      fun error =>
        if error = .io .alreadyExists then allocateTransaction path contents tries else stop error

def beginTransaction (path : TemporaryPath) : Action PublicationTransaction := do
  let contents ← ofExcept (serializeTransaction codec path .staging)
  allocateTransaction path contents 128

end Journal

inductive DestinationPublication where
  | link
  | replace
  | repair (output : EncodedIdentity)
  | repairCanonical (identity : NarIdentity)
  | renewAdvertisement (store : StoreHash)
  deriving DecidableEq

inductive TemporaryDirectory where
  | root
  | nar
  deriving DecidableEq, Repr

structure PublicationDestination where
  path : StorePath
  temporaryDirectory : TemporaryDirectory
  publication : DestinationPublication
  tempPrefix : Bytes
  deriving DecidableEq

def leaseName (store : StoreHash) : Bytes :=
  store.bytes ++ ascii ['.', 'l', 'e', 'a', 's', 'e']

def isNormalComponent (name : Bytes) : Bool :=
  name ≠ [] && name ≠ ascii ['.'] && name ≠ ascii ['.', '.'] && !name.contains 47

/-- A renewal may only go to the lease of its store, and the path must be one that a record can
name. -/
def PublicationDestination.validatePath (destination : PublicationDestination) :
    Except StorageError Unit :=
  let redirected : Bool := match destination.publication with
    | .renewAdvertisement store => destination.path ≠ .advertisement (leaseName store)
    | _ => false
  if redirected then .error (.io .invalidInput)
  else if (ByteArray.mk destination.path.text.toArray).validateUTF8 then
    if isNormalComponent destination.path.text then .ok () else .error (.io .invalidData)
  else .error (.io .invalidInput)

structure TemporaryFile where
  path : TemporaryPath
  file : ℕ
  deriving DecidableEq

inductive TemporaryLocation where
  | staging
  | destination
  deriving DecidableEq, Repr

inductive DestinationPublicationAttempt where
  | existing
  | created (location : TemporaryLocation)
  | repaired (location : TemporaryLocation)
  deriving DecidableEq, Repr

inductive PublicationProgress where
  | unpublished
  | uncertain (location : TemporaryLocation)
  | durable (location : TemporaryLocation)
  deriving DecidableEq, Repr

namespace DestinationPublicationAttempt

def progress : DestinationPublicationAttempt → PublicationProgress
  | existing => .unpublished
  | created location | repaired location => .uncertain location

def temporaryLocation : DestinationPublicationAttempt → TemporaryLocation
  | existing => .staging
  | created location | repaired location => location

def outcome : DestinationPublicationAttempt → PublishOutcome
  | existing => .identical
  | created _ | repaired _ => .created

end DestinationPublicationAttempt

namespace PublicationProgress

def temporaryLocation : PublicationProgress → TemporaryLocation
  | unpublished => .staging
  | uncertain location | durable location => location

def markDurable : PublicationProgress → PublicationProgress
  | unpublished => .durable .staging
  | uncertain location | durable location => .durable location

end PublicationProgress

inductive PublishBoundary where
  | beforeTempCreate
  | afterTempCreate
  | afterStream
  | afterTempSync
  | beforeFinalLink
  | beforeParentSync
  | afterParentSync
  deriving DecidableEq, Repr

def checkpoint (_ : PublishBoundary) : Action Unit := inspect

section Commit

variable (codec : RecordCodec) (sha256 : Bytes → Digest)

def removeTemp (temp : TemporaryFile) : Action Unit := do
  unlinkAt temp.path.directory temp.path.name
  syncDirectory temp.path.directory

/-- Dropping a publication before its commit. The temporary file is removed a second time when
the first attempt fails. -/
def abandon (temp : TemporaryFile) (transaction : PublicationTransaction) : Action Unit :=
  handle (removeTemp temp) (fun _ => transaction.cancel) fun _ => do
    let _ ← attempt (removeTemp temp)
    pure ()

def nextTempName (target : PublicationDestination) : Action Name := do
  let sequence ← fetchAddTemp
  let process ← currentProcess
  pure (.temporary target.tempPrefix process sequence)

def temporaryPath (target : PublicationDestination) (name : Name) : TemporaryPath :=
  match target.temporaryDirectory with
  | .root => .root name
  | .nar => .nar name

def beginJournaledTemporary (target : PublicationDestination) :
    Action (TemporaryFile × PublicationTransaction) := do
  ofExcept target.validatePath
  let name ← nextTempName target
  let path := temporaryPath target name
  let transaction ← beginTransaction codec path
  handle
    (do
      checkpoint .beforeTempCreate
      inspect
      createNewAt path.directory path.name)
    (fun file =>
      handle inspect (fun _ => pure (⟨path, file⟩, transaction)) fun error => do
        abandon ⟨path, file⟩ transaction
        stop error)
    fun error => do
      transaction.cancel
      stop error

/-- From the new temporary file to the validated one: the end of `begin_publication` and
`finish_and_sync`. -/
def stage (temp : TemporaryFile) (transaction : PublicationTransaction) (source : Bytes) :
    Action PublicationTransaction :=
  handle
    (do
      let transaction ← transaction.transition codec .streaming
      checkpoint .afterTempCreate
      writeAll temp.file source
      checkpoint .afterStream
      syncFile temp.file
      checkpoint .afterTempSync
      transaction.transition codec .validated)
    pure
    fun error => do
      abandon temp transaction
      stop error

def renameTemporary (destination : StorePath) (temp : TemporaryFile)
    (result : DestinationPublicationAttempt) : Action DestinationPublicationAttempt := do
  renameAt temp.path.directory temp.path.name destination.directory destination.name
  pure result

def filesEqualAt (left : Place) (leftName : Name) (right : Place) (rightName : Name) :
    Action Bool := do
  let leftFile ← openRegularAt left leftName
  let rightFile ← openRegularAt right rightName
  let leftContents ← readToEnd leftFile
  let rightContents ← readToEnd rightFile
  pure (leftContents = rightContents)

/-- Link the temporary file, or compare it with what stands at the destination. -/
def linkTemporary (destination : StorePath) (temp : TemporaryFile) :
    Action DestinationPublicationAttempt :=
  handle (hardLinkAt temp.path.directory temp.path.name destination.directory destination.name)
    (fun _ => pure (.created .staging))
    fun error =>
      if error = .io .alreadyExists then do
        let identical ← filesEqualAt temp.path.directory temp.path.name destination.directory
          destination.name
        if identical then pure .existing else stop .conflict
      else stop error

/-- Replace what stands at the destination unless it has the expected contents. -/
def repairDestination (destination : StorePath) (temp : TemporaryFile)
    (fileMatches : Bytes → Bool) : Action DestinationPublicationAttempt :=
  handle (openRegularAt destination.directory destination.name)
    (fun file => do
      let contents ← readToEnd file
      if fileMatches contents then pure .existing
      else renameTemporary destination temp (.repaired .destination))
    fun error =>
      if error = .io .notFound then renameTemporary destination temp (.created .destination)
      else stop error

def placeTemporary (destination : PublicationDestination) (temp : TemporaryFile) :
    Action DestinationPublicationAttempt :=
  match destination.publication with
  | .replace | .renewAdvertisement _ =>
    renameTemporary destination.path temp (.created .destination)
  | .link => linkTemporary destination.path temp
  | .repair output =>
    repairDestination destination.path temp fun contents =>
      contents.length = output.size ∧ sha256 contents = output.hash
  | .repairCanonical identity =>
    repairDestination destination.path temp fun contents =>
      contents.length = identity.size ∧ sha256 contents = identity.hash

def synchronizeSourceDirectory (temp : TemporaryFile) : TemporaryLocation → Action Unit
  | .staging => pure ()
  | .destination => syncDirectory temp.path.directory

def recordLinkedDestination (path : StorePath) (transaction : PublicationTransaction) :
    DestinationPublicationAttempt → Action PublicationTransaction
  | .existing => pure transaction
  | .created _ | .repaired _ => transaction.transition codec (.linked path)

def barrier (destination : StorePath) (temp : TemporaryFile)
    (result : DestinationPublicationAttempt) (transaction : PublicationTransaction) :
    Action PublicationTransaction := do
  synchronizeSourceDirectory temp result.temporaryLocation
  let transaction ← recordLinkedDestination codec destination transaction result
  checkpoint .beforeParentSync
  syncDirectory destination.directory
  pure transaction

def rollbackDestinationBeforeDurability (destination : StorePath) :
    TemporaryLocation → Action PublicationProgress
  | .staging => do
    unlinkAt destination.directory destination.name
    syncDirectory destination.directory
    pure .unpublished
  | .destination => pure (.uncertain .destination)

def rollbackNewLink (destination : StorePath) :
    DestinationPublicationAttempt → Action PublicationProgress
  | .existing => pure .unpublished
  | .created location | .repaired location =>
    rollbackDestinationBeforeDurability destination location

abbrev Commit := Except StorageError PublishOutcome × PublicationProgress

def finalizeDestination (destination : StorePath) (temp : TemporaryFile)
    (transaction : PublicationTransaction) (result : DestinationPublicationAttempt) :
    Action Commit :=
  handle (barrier codec destination temp result transaction)
    (fun transaction =>
      -- From here on the destination is durable, whatever happens to the journal.
      handle
        (do
          let _ ← transaction.transition codec (.published destination)
          checkpoint .afterParentSync)
        (fun _ => pure (.ok result.outcome, result.progress.markDurable))
        fun error => pure (.error error, result.progress.markDurable))
    fun error =>
      handle (rollbackNewLink destination result)
        (fun progress => pure (.error error, progress))
        fun _ => pure (.error error, result.progress)

def publishTemporary (destination : PublicationDestination) (temp : TemporaryFile)
    (transaction : PublicationTransaction) : Action Commit :=
  handle
    (do
      inspect
      inspect
      checkpoint .beforeFinalLink
      placeTemporary sha256 destination temp)
    (finalizeDestination codec destination.path temp transaction)
    fun error => pure (.error error, .unpublished)

def removeTemporary (temp : TemporaryFile) : TemporaryLocation → Action Unit
  | .staging => removeTemp temp
  | .destination => pure ()

/-- Remove what is left of the publication, keeping the record while the destination is
uncertain. -/
def finish (temp : TemporaryFile) (transaction : PublicationTransaction) :
    Commit → Action PublishOutcome
  | (.error error, .uncertain location) => do
    let _ ← attempt (removeTemporary temp location)
    stop error
  | (result, progress) => do
    let completion ← attempt do
      removeTemporary temp progress.temporaryLocation
      transaction.complete
    match result, completion with
    | .ok outcome, .ok () => pure outcome
    | .ok _, .error error => stop error
    | .error error, _ => stop error

def commitTemporaryWithActivity (destination : PublicationDestination) (temp : TemporaryFile)
    (transaction : PublicationTransaction) : Action PublishOutcome := do
  let commit ← publishTemporary codec sha256 destination temp transaction
  finish temp transaction commit

def publicationActivity (destination : PublicationDestination) : Action Unit :=
  match destination.publication with
  | .renewAdvertisement _ => do
    ofExcept destination.validatePath
    inspect
  | .link | .replace | .repair _ | .repairCanonical _ => inspect

def commitTemporary (destination : PublicationDestination) (temp : TemporaryFile)
    (transaction : PublicationTransaction) : Action PublishOutcome := do
  publicationActivity destination
  commitTemporaryWithActivity codec sha256 destination temp transaction

/-- Whether the lease is taken before the temporary file exists, brought by the caller, or taken
for the commit. -/
inductive PublicationActivity where
  | operation
  | collection
  | commit
  deriving DecidableEq, Repr

namespace PublicationActivity

def acquire (target : PublicationDestination) : PublicationActivity → Action Unit
  | operation => publicationActivity target
  | collection | commit => pure ()

def commitStaged (destination : PublicationDestination) (temp : TemporaryFile)
    (transaction : PublicationTransaction) : PublicationActivity → Action PublishOutcome
  | operation | collection => commitTemporaryWithActivity codec sha256 destination temp transaction
  | commit => commitTemporary codec sha256 destination temp transaction

end PublicationActivity

/-- The whole publication of the bytes of a source. Uploads stage their file for another target
than the one they commit it to. -/
def publish (activity : PublicationActivity) (target destination : PublicationDestination)
    (source : Bytes) : Action PublishOutcome := do
  activity.acquire target
  let (temp, transaction) ← beginJournaledTemporary codec target
  let transaction ← stage codec temp transaction source
  activity.commitStaged codec sha256 destination temp transaction

end Commit

section Recovery

variable (codec : RecordCodec)

inductive TransactionEntry where
  | record (name : RecordName)
  | draft (name : RecordName) (sequence : ℕ)
  deriving DecidableEq, Repr

namespace TransactionEntry

/-- Only records and drafts may stand in the journal directory. -/
def parse : Name → Except StorageError TransactionEntry
  | .record name => .ok (record name)
  | .draft name sequence => .ok (draft name sequence)
  | .temporary _ _ _ | .file _ => .error (.io .invalidData)

def name : TransactionEntry → Name
  | record name => .record name
  | draft name sequence => .draft name sequence

end TransactionEntry

def validateEntry (entry : TransactionEntry) : Action Unit := do
  inspect
  match entry with
  | .record name => do
    let _ ← openRegularAt .transactions (.record name)
    pure ()
  | .draft _ _ => pure ()

def transactionEntries (names : List Name) : Action (List TransactionEntry) := do
  let entries ← ofExcept (names.mapM TransactionEntry.parse)
  forEach entries validateEntry
  pure entries

def verifyDestination (destination : StorePath) : Action Unit := do
  inspect
  let _ ← openRegularAt destination.directory destination.name
  pure ()

def removeTemporaryPath (temporary : TemporaryPath) : Action Unit := do
  inspect
  handle (unlinkAt temporary.directory temporary.name)
    (fun _ => syncDirectory temporary.directory)
    fun error => if error = .io .notFound then pure () else stop error

def verifyState : PublicationState → Action Unit
  | .staging | .streaming | .validated => pure ()
  | .linked destination =>
    -- A rollback removes the destination and leaves the record.
    handle (verifyDestination destination) pure fun error =>
      if error = .io .notFound then pure () else stop error
  | .published destination => verifyDestination destination

def recoverTransaction (transaction : TransactionRecord) : Action Unit := do
  verifyState transaction.state
  removeTemporaryPath transaction.temporary

def recoverNamedTransaction (name : RecordName) : Action Unit := do
  let record ← openRegularAt .transactions (.record name)
  let contents ← readBoundedBytes record maxTransactionBytes
  let transaction ← ofExcept (parseTransaction codec contents)
  recoverTransaction transaction
  unlinkAt .transactions (.record name)

def clearEntry : TransactionEntry → Action Unit
  | .draft name sequence => unlinkAt .transactions (.draft name sequence)
  | .record name => recoverNamedTransaction codec name

def clearTransactions (names : List Name) : Action Unit := do
  let entries ← transactionEntries names
  forEach entries (clearEntry codec)
  syncDirectory .transactions

end Recovery

end PublicationJournal
