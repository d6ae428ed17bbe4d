import BareLine.Replace.Receipt

/-!
# Applying, reconciling and rolling back

The three procedures that read and write the receipt of a job, as the source has them.
-/

namespace BareLine.Replace

open Lib

/-- What returns an `io::Result`. -/
abbrev Task (Digest α : Type) := ExceptT IoError (Program (Op Digest) Op.Answer) α

section Operations

variable {Digest : Type}

/-! ## §1 One operation each -/

/-- An operation that cannot fail. -/
def use (op : Op Digest) : Task Digest op.Answer := liftM (Program.ask op)

/-- The result of a computation, kept instead of returned early. -/
def resultOf {α : Type} (task : Task Digest α) : Task Digest (Except IoError α) :=
  ExceptT.lift task.run

/-- `if c { return Err(..) }` -/
def refuseIf (c : Prop) [Decidable c] (text : String) : Task Digest Unit :=
  if c then throw (.other text) else pure ()

def isCancelled : Task Digest Bool := use Op.isCancelled

def isOpen (path : Path) (identity : FileIdentity) : Task Digest Bool :=
  use (Op.isOpen path identity)

def memory : Task Digest (ReplaceReceipt Digest) := use Op.memory

def assign (receipt : ReplaceReceipt Digest) : Task Digest Unit := use (Op.assign receipt)

def setAfterHash (index : Nat) (hash : Digest) : Task Digest Unit :=
  use (Op.setAfterHash index hash)

def setBackup (index : Nat) (path : Path) : Task Digest Unit := use (Op.setBackup index path)

def setState (index : Nat) (state : ReceiptState) : Task Digest Unit :=
  use (Op.setState index state)

def approve (path : Path) (write : Bool) : Task Digest Unit :=
  ExceptT.mk (Program.ask (Op.approve path write))

def identityOf (path : Path) : Task Digest FileIdentity :=
  ExceptT.mk (Program.ask (Op.identity path))

def read (path : Path) : Task Digest Bytes := ExceptT.mk (Program.ask (Op.read path))

def isReadOnly (path : Path) : Task Digest Bool := ExceptT.mk (Program.ask (Op.isReadOnly path))

def attempt : Task Digest Unit := ExceptT.mk (Program.ask Op.attempt)

def lockOpenFiles : Task Digest Unit := ExceptT.mk (Program.ask Op.lockOpenFiles)

def newJobDirectory (parent : Path) : Task Digest Path :=
  ExceptT.mk (Program.ask (Op.newJobDirectory parent))

def copyNew (source target : Path) : Task Digest Bytes :=
  ExceptT.mk (Program.ask (Op.copyNew source target))

def syncAll (path : Path) : Task Digest Unit := ExceptT.mk (Program.ask (Op.syncAll path))

def save (target : Path) (expected : Fingerprint Digest) (bytes : Bytes) : Task Digest Unit :=
  ExceptT.mk (Program.ask (Op.save target expected bytes))

def readReceiptFile : Task Digest (ReplaceReceipt Digest) :=
  ExceptT.mk (Program.ask Op.readReceipt)

def publishJson : Task Digest Unit := ExceptT.mk (Program.ask Op.publishJson)

end Operations

section Procedures

variable {Digest Edit Encoding : Type} [DecidableEq Digest]
variable (services : Services Digest Edit Encoding)

/-! ## §2 Publishing and reading -/

/-- `persist` -/
def persist : Task Digest Unit := do
  let receipt ← memory
  refuseIf ((services.serialized receipt).length > MAX_RECEIPT) "receipt budget"
  publishJson

/-- `Opened`, or `PagedOpened`: a fingerprint and the decoded bytes. -/
structure Opened (Digest : Type) where
  fingerprint : Fingerprint Digest
  content : Bytes

/-- `open_encoded_streaming`, or `open_paged_encoded`; only the former has a limit. -/
def openEncoded (path : Path) (paged : Bool) : Task Digest (Opened Digest) := do
  let before ← identityOf path
  refuseIf (paged = false ∧ before.length > SUBJECT_LIMIT) "file requires streaming"
  let content ← read path
  refuseIf (content.length ≠ before.length) "source changed while opening"
  refuseIf (before ≠ (← identityOf path)) "source changed while opening"
  attempt
  return ⟨⟨before, services.sha256 content⟩, content⟩

/-- `open`, behind an approval. -/
def openTrusted (path : Path) : Task Digest (Opened Digest) := do
  let expected ← identityOf path
  let opened ← openEncoded services path false
  refuseIf (opened.fingerprint.identity ≠ expected) "Source changed during trusted open"
  refuseIf ((← identityOf path) ≠ expected) "Source changed during trusted open"
  return opened

/-- `disk_source::open` -/
def openPaged (path : Path) : Task Digest (Opened Digest) := do
  approve path false
  let expected ← identityOf path
  let opened ← openEncoded services path true
  refuseIf (opened.fingerprint.identity ≠ expected) "Source changed during decode"
  refuseIf ((← identityOf path) ≠ expected) "Source changed during decode"
  return opened

/-- `current_fingerprint`; only a job that was given can be cancelled. -/
def currentFingerprint (path : Path) (cancellable : Bool) : Task Digest (Fingerprint Digest) := do
  approve path false
  let identity ← identityOf path
  refuseIf ((← isCancelled) = true ∧ cancellable = true) "Cancelled"
  let content ← read path
  refuseIf ((← identityOf path) ≠ identity) "Source changed during fingerprint"
  refuseIf ((← identityOf path) ≠ identity) "Source changed during fingerprint"
  return ⟨identity, services.sha256 content⟩

/-- `backup` -/
def backup (path target : Path) (expected : Fingerprint Digest) : Task Digest Unit := do
  approve path false
  refuseIf ((← identityOf path) ≠ expected.identity) "changed before backup"
  refuseIf ((← isCancelled) = true) "cancelled"
  let content ← copyNew path target
  refuseIf (content.length > expected.identity.length) "Backup source grew"
  refuseIf (services.sha256 content ≠ expected.sha256) "changed during backup"
  refuseIf ((← identityOf path) ≠ expected.identity) "changed during backup"
  syncAll target

/-! ## §3 Applying -/

/-- `classify_interrupted` -/
def classifyInterrupted (path : Path) (index : Nat) (error : IoError) :
    Task Digest ReceiptState := do
  let receipt ← memory
  match receipt.files[index]? with
  | none => return .uncertain error.text
  | some record =>
    match ← resultOf (currentFingerprint services path false) with
    | .ok current =>
      if record.afterHash = some current.sha256 then return .committed
      else if record.original.sha256 = current.sha256 then
        if ← isCancelled then return .skipped ("Cancelled before commit: " ++ error.text)
        else return .failed ("Not committed: " ++ error.text)
      else return .conflict
    | .error _ => return .uncertain error.text

end Procedures

section Apply

variable {Digest Edit Encoding : Type} [DecidableEq Digest] (job : Job Digest Edit Encoding)

/-- The file of one record, opened for the job. -/
def openTarget (file : DiskPreviewFile job.services) : Task Digest (Opened Digest) := do
  if file.paged then
    refuseIf (job.paging = false) "Paged save service unavailable"
    approve file.path true
    openPaged job.services file.path
  else
    approve file.path true
    openTrusted job.services file.path

/-- Render the output of a file, back the file up, and publish the intent to replace it. -/
def stage (directory : Path) (index : Nat) (file : DiskPreviewFile job.services)
    (opened : Opened Digest) : Task Digest Bytes := do
  attempt
  let output ← liftExcept (job.services.rendered file.paged file.encoding file.bom file.edits
    opened.content)
  setAfterHash index (job.services.sha256 output)
  if job.options.backup = .required then
    let target := directory ++ ["original-" ++ toString index ++ ".bak"]
    backup job.services file.path target file.fingerprint
    setBackup index target
  setState index .staged
  persist job.services
  return output

/-- How the work on one file ended. -/
inductive Outcome where
  | saved
  /-- `attempted_commit` -/
  | interrupted (error : IoError)
  /-- `review_changed` -/
  | reviewChanged (error : IoError)
  | failed (error : IoError)

/-- The work on one file. -/
def replaceFile (directory : Path) (index : Nat) (file : DiskPreviewFile job.services) :
    Task Digest Outcome := do
  match ← resultOf (openTarget job file) with
  | .error error => return .failed error
  | .ok opened =>
    if opened.fingerprint ≠ file.fingerprint then
      return .reviewChanged (.other "Source changed; review again")
    match ← resultOf (stage job directory index file opened) with
    | .error error => return .failed error
    | .ok output =>
      match ← resultOf (save file.path file.fingerprint output) with
      | .error error => return .interrupted error
      | .ok () => return .saved

/-- The state of a record after the work on its file. -/
def outcomeState (index : Nat) (file : DiskPreviewFile job.services) :
    Outcome → Task Digest ReceiptState
  | .saved => return .committed
  | .interrupted error => classifyInterrupted job.services file.path index error
  | .reviewChanged error => return .skipped error.text
  | .failed error => return .failed error.text

/-- Skip the records from `index` on. -/
def skipFrom (index : Nat) : Nat → Task Digest Unit
  | 0 => return ()
  | count + 1 => do
    setState index (.skipped "Cancelled before commit")
    skipFrom (index + 1) count

/-- `apply_disk_files_impl`, from the record `index` on. -/
def applyFrom (directory : Path) : Nat → List (DiskPreviewFile job.services) → Task Digest Unit
  | _, [] => return ()
  | index, file :: rest => do
    if ← isCancelled then
      skipFrom index (file :: rest).length
      persist job.services
    else
      lockOpenFiles
      if ← isOpen file.path file.fingerprint.identity then
        setState index (.skipped "File is open; review its document revision")
        persist job.services
        applyFrom directory (index + 1) rest
      else
        match ← resultOf (do approve file.path true; isReadOnly file.path) with
        | .ok true =>
          setState index
            (.skipped "File is read-only; change its permissions and preview again")
          persist job.services
          applyFrom directory (index + 1) rest
        | _ =>
          let outcome ← replaceFile job directory index file
          setState index (← outcomeState job index file outcome)
          persist job.services
          applyFrom directory (index + 1) rest

/-- The receipt a job starts from. -/
def Job.receipt : ReplaceReceipt Digest where
  version := 1
  openOutcomes := job.options.openOutcomes
  files := job.selected.map fun file => {
    path := file.path
    original := file.fingerprint
    afterHash := none
    backup := none
    matched := file.edits.length
    state := .planned }

/-- `apply_disk_files_impl` -/
def applyDiskFiles : Task Digest (ReplaceReceipt Digest) := do
  approve job.options.receiptDirectory true
  let directory ← newJobDirectory job.options.receiptDirectory
  assign job.receipt
  persist job.services
  applyFrom job directory 0 job.selected
  memory

end Apply

section Receipts

variable {Digest Edit Encoding : Type} [DecidableEq Digest]
variable (services : Services Digest Edit Encoding) (paging : Bool)

/-! ## §4 Reconciling -/

/-- `read_receipt` -/
def readReceipt : Task Digest (ReplaceReceipt Digest) := do
  let receipt ← readReceiptFile
  refuseIf ((services.serialized receipt).length > MAX_RECEIPT) "receipt budget"
  refuseIf (receipt.version ≠ 1 ∨ receipt.files.length > MAX_FILES) "unsupported receipt"
  return receipt

/-- What the bytes of its target say about an unresolved record. -/
def reconciledState (record : FileReceipt Digest) (sha256 : Digest) : ReceiptState :=
  if record.state = .rollbackStaged ∧ record.original.sha256 = sha256 then .rolledBack
  else if record.afterHash = some sha256 then .reconciledCommitted
  else if record.original.sha256 = sha256 then
    .skipped "Interrupted before commit; no automatic retry"
  else .conflict

/-- One record of the loop in `reconcile_receipt`. -/
def reconcileRecord (index : Nat) (record : FileReceipt Digest) : Task Digest Unit := do
  refuseIf ((← isCancelled) = true) "cancelled"
  match ← resultOf (currentFingerprint services record.path true) with
  | .ok fingerprint => setState index (reconciledState record fingerprint.sha256)
  | .error error =>
    -- A missing target is a real content mismatch; anything else may be transient.
    if error.kind = .notFound then setState index .conflict
    else
      refuseIf ((← isCancelled) = true) "cancelled"
      if record.state ≠ .rollbackStaged then setState index (.uncertain error.text)

/-- The loop of `reconcile_receipt` over `count` records from `index` on. -/
def reconcileFrom : Nat → Nat → Task Digest Unit
  | _, 0 => return ()
  | index, count + 1 => do
    match (← memory).files[index]? with
    | some record => if record.state.unresolved then reconcileRecord services index record
    | none => pure ()
    reconcileFrom (index + 1) count

/-- `reconcile_receipt` -/
def reconcileReceipt : Task Digest (ReplaceReceipt Digest) := do
  let receipt ← readReceipt services
  assign receipt
  reconcileFrom services 0 receipt.files.length
  persist services
  memory

/-! ## §5 Rolling back -/

/-- `Restore` -/
inductive Restore where
  | restored
  | alreadyOriginal
  | conflict
  | backupMissing
  deriving DecidableEq, Repr

/-- Publish the intent and write the bytes of a backup back to the target. -/
def writeBack (index : Nat) (record : FileReceipt Digest) (current : Fingerprint Digest)
    (paged : Bool) (original : Opened Digest) : Task Digest Restore := do
  if original.fingerprint.sha256 ≠ record.original.sha256 then return .conflict
  setState index .rollbackStaged
  persist services
  save record.path current (← liftExcept (services.rewritten paged original.content))
  return .restored

/-- What a missing file means, and other failures as they are. -/
def orMissing {α β : Type} (result : Except IoError α) (missing : β) (next : α → Task Digest β) :
    Task Digest β :=
  match result with
  | .ok a => next a
  | .error error => if error.kind = .notFound then return missing else throw error

/-- The restoring of one record whose target holds this job's output. -/
def restoreBackup (index : Nat) (record : FileReceipt Digest) (backupPath : Path)
    (current : Fingerprint Digest) : Task Digest Restore := do
  if current.identity.length > SUBJECT_LIMIT ∨ record.original.identity.length > SUBJECT_LIMIT then
    refuseIf (paging = false) "Paged rollback service unavailable"
    orMissing (← resultOf (openPaged services backupPath)) .backupMissing fun original =>
      writeBack services index record current true original
  else
    orMissing (← resultOf (approve backupPath false)) .backupMissing fun () => do
      let original ← openTrusted services backupPath
      writeBack services index record current false original

/-- The closure of `rollback_receipt_impl`. -/
def restore (index : Nat) (record : FileReceipt Digest) (backupPath : Path) :
    Task Digest Restore := do
  orMissing (← resultOf (approve record.path true)) .conflict fun () => do
    orMissing (← resultOf (currentFingerprint services record.path true)) .conflict fun current => do
      refuseIf ((← identityOf record.path) ≠ current.identity) "Target changed during rollback approval"
      refuseIf ((← isOpen record.path current.identity) = true) "Target is open; close it before rollback"
      if record.afterHash ≠ some current.sha256 then
        -- Only real content decides a conflict; the original needs no restore.
        return if current.sha256 = record.original.sha256 then .alreadyOriginal else .conflict
      restoreBackup services paging index record backupPath current

/-- What the bytes of a target say after a restore was attempted. -/
def restoredState (record : FileReceipt Digest) (outcome : Except IoError Restore)
    (sha256 : Digest) : ReceiptState :=
  if sha256 = record.original.sha256 then .rolledBack
  else if record.afterHash = some sha256 then
    .rollbackFailed (match outcome with
      | .error error => error.text
      | .ok _ => "Restore left the target unchanged")
  else
    match outcome with
    | .ok _ => .failed "Restored bytes do not match the original fingerprint; backup retained"
    | .error _ => .conflict

/-- The state of a record after the attempt to restore it. -/
def rollbackState (record : FileReceipt Digest) (staged : Bool) :
    Except IoError Restore → Task Digest ReceiptState
  | .ok .alreadyOriginal => return .rolledBack
  | .ok .conflict => return .conflict
  | .ok .backupMissing => return .skipped "Backup missing; the target keeps this job's output"
  | outcome => do
    match outcome, staged with
    -- Nothing was written: the target still holds this job's output.
    | .error error, false => return .rollbackFailed error.text
    | outcome, _ =>
      match ← resultOf (currentFingerprint services record.path false) with
      | .ok now => return restoredState record outcome now.sha256
      -- Keep the durable intent: reconciliation compares original and output hashes.
      | .error _ => return .rollbackStaged

/-- One record of the loop in `rollback_receipt_impl`. -/
def rollbackRecord (index : Nat) (record : FileReceipt Digest) (backupPath : Path) :
    Task Digest Unit := do
  lockOpenFiles
  let outcome ← resultOf (restore services paging index record backupPath)
  let staged := ((← memory).files[index]?.map (·.state)) = some .rollbackStaged
  setState index (← rollbackState services record staged outcome)
  persist services

/-- The loop of `rollback_receipt_impl` over `count` records from `index` on. -/
def rollbackFrom : Nat → Nat → Task Digest Unit
  | _, 0 => return ()
  | index, count + 1 => do
    if ← isCancelled then return ()
    match (← memory).files[index]? with
    | some record =>
      if record.state.restorable then
        match record.backup with
        | some backupPath => rollbackRecord services paging index record backupPath
        | none => pure ()
    | none => pure ()
    rollbackFrom (index + 1) count

/-- Report the records applied without a backup, which can never be restored. -/
def skipUnprotected : Nat → Nat → Task Digest Bool
  | _, 0 => return false
  | index, count + 1 => do
    match (← memory).files[index]? with
    | some record =>
      if record.state.restorable && record.backup.isNone then
        setState index (.skipped "No backup; replaced without a backup")
        let _ ← skipUnprotected (index + 1) count
        return true
      else skipUnprotected (index + 1) count
    | none => return false

/-- `rollback_receipt_impl` -/
def rollbackReceipt : Task Digest (ReplaceReceipt Digest) := do
  let receipt ← reconcileReceipt services
  if ← skipUnprotected 0 receipt.files.length then persist services
  rollbackFrom services paging 0 receipt.files.length
  memory

end Receipts

end BareLine.Replace
