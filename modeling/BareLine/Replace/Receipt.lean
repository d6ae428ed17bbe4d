import BareLine.Lib.Program
import BareLine.Lib.LineBreaks

/-!
# Replacement jobs on disk

Replace in Files rewrites the previewed files one after the other and keeps a receipt of
what became of each.  The other programs of the machine may change any target and any backup
at any moment, and a job may end at any moment.
-/

namespace BareLine.Replace

open Lib

/-! ## §1 Previews and receipts -/

/-- `io::ErrorKind`, as far as the procedures look at it. -/
inductive ErrorKind where
  | notFound
  | other
  deriving DecidableEq, Repr

/-- `io::Error` -/
structure IoError where
  kind : ErrorKind
  text : String
  deriving DecidableEq, Repr

/-- `io::Error::other` -/
def IoError.other (text : String) : IoError := ⟨.other, text⟩

/-- `Path`, by its components. -/
abbrev Path := List String

/-- `FileIdentity` -/
structure FileIdentity where
  volume : Nat
  file : Nat
  length : Nat
  modified : Nat
  deriving DecidableEq, Repr

/-- `Fingerprint`; a receipt keeps the same data as `ReceiptFingerprint`. -/
structure Fingerprint (Digest : Type) where
  identity : FileIdentity
  sha256 : Digest
  deriving DecidableEq, Repr

/-- `ReceiptState` -/
inductive ReceiptState where
  | planned
  | staged
  | uncertain (reason : String)
  | committed
  | reconciledCommitted
  | rollbackStaged
  | rolledBack
  | skipped (reason : String)
  | failed (reason : String)
  | conflict
  | rollbackFailed (reason : String)
  deriving DecidableEq, Repr

namespace ReceiptState

/-- Records that a restart must reconcile by hash before anything else uses them. -/
def unresolved : ReceiptState → Bool
  | planned | staged | uncertain _ | rollbackStaged => true
  | _ => false

/-- Records whose target a rollback may still restore from its backup. -/
def restorable : ReceiptState → Bool
  | committed | reconciledCommitted | rollbackFailed _ => true
  | _ => false

/-- The states that report a replacement. -/
def isCommitted : ReceiptState → Bool
  | committed | reconciledCommitted => true
  | _ => false

theorem restorable_of_isCommitted {state : ReceiptState} (h : state.isCommitted = true) :
    state.restorable = true := by
  cases state <;> first | rfl | cases h

theorem not_restorable {state : ReceiptState} (h : state.unresolved = true) :
    state.restorable = false := by
  cases state <;> first | rfl | cases h

end ReceiptState

/-- `FileReceipt` -/
structure FileReceipt (Digest : Type) where
  path : Path
  original : Fingerprint Digest
  afterHash : Option Digest
  backup : Option Path
  matched : Nat
  state : ReceiptState
  deriving DecidableEq, Repr

/-- `ReplaceReceipt` -/
structure ReplaceReceipt (Digest : Type) where
  version : Nat
  files : List (FileReceipt Digest)
  openOutcomes : List String
  deriving DecidableEq, Repr

/-- `MAX_FILES` -/
def MAX_FILES : Nat := 10000

/-- `MAX_RECEIPT` -/
def MAX_RECEIPT : Nat := 8 * 1024 * 1024

/-- `regex::SUBJECT_LIMIT` -/
def SUBJECT_LIMIT : Nat := 16 * 1024 * 1024

/-- `DiskChange`: an edit and whether the user kept it. -/
structure DiskChange (Edit : Type) where
  included : Bool
  edit : Edit

/-- What the job takes from the hash function, from serde and from the codecs. -/
structure Services (Digest Edit Encoding : Type) where
  sha256 : Bytes → Digest
  /-- `serde_json::to_vec` of a receipt -/
  serialized : ReplaceReceipt Digest → Bytes
  /-- The bytes of a file decoded, edited, and written in an encoding with or without a BOM. -/
  rendered (paged : Bool) (encoding : Encoding) (bom : Bool) (edits : List Edit) (content : Bytes) :
    Except IoError Bytes
  /-- The bytes of a file decoded and written back under the encoding it was opened with. -/
  rewritten (paged : Bool) (content : Bytes) : Except IoError Bytes

/-- `DiskPreviewFile`, with the bytes the preview read. -/
structure DiskPreviewFile {Digest Edit Encoding : Type} (services : Services Digest Edit Encoding)
    where
  path : Path
  source : Bytes
  fingerprint : Fingerprint Digest
  fingerprint_source : fingerprint.sha256 = services.sha256 source
  paged : Bool
  bom : Bool
  encoding : Encoding
  included : Bool
  changes : List (DiskChange Edit)

/-- `BackupPolicy` -/
inductive BackupPolicy where
  | required
  | disabledForThisJob
  deriving DecidableEq, Repr

/-- `DiskReplaceOptions` -/
structure DiskReplaceOptions where
  receiptDirectory : Path
  backup : BackupPolicy
  openOutcomes : List String

/-- A job: the services, the preview under review, the options, and whether there is a paging
service. -/
structure Job (Digest Edit Encoding : Type) where
  services : Services Digest Edit Encoding
  files : List (DiskPreviewFile services)
  files_bounded : files.length ≤ MAX_FILES
  options : DiskReplaceOptions
  paging : Bool

namespace DiskPreviewFile

variable {Digest Edit Encoding : Type} {services : Services Digest Edit Encoding}

/-- The edits the user kept. -/
def edits (file : DiskPreviewFile services) : List Edit :=
  (file.changes.filter (·.included)).map (·.edit)

/-- The bytes the job writes to the file, if it is still as previewed. -/
def output (file : DiskPreviewFile services) : Except IoError Bytes :=
  services.rendered file.paged file.encoding file.bom file.edits file.source

end DiskPreviewFile

/-- The files a job rewrites. -/
def Job.selected {Digest Edit Encoding : Type} (job : Job Digest Edit Encoding) :
    List (DiskPreviewFile job.services) :=
  job.files.filter fun file => file.included && file.changes.any (·.included)

/-! ## §2 Operations and the world -/

/-- What the procedures ask of the machine they run on and do to the receipt in memory. -/
inductive Op (Digest : Type) where
  /-- `job.is_cancelled()` -/
  | isCancelled
  /-- `approved`, for reading or writing -/
  | approve (path : Path) (write : Bool)
  /-- `platform.identity` of the file at a path -/
  | identity (path : Path)
  /-- the file at a path, read in full -/
  | read (path : Path)
  /-- the permissions of the file at a path -/
  | isReadOnly (path : Path)
  /-- work on private copies, that may fail -/
  | attempt
  /-- `open_files.0.lock()` -/
  | lockOpenFiles
  /-- whether an open document holds the path or the identity -/
  | isOpen (path : Path) (identity : FileIdentity)
  /-- `new_job_directory` -/
  | newJobDirectory (parent : Path)
  /-- the file at `source`, read in full and written to a new file -/
  | copyNew (source target : Path)
  | syncAll (path : Path)
  /-- `save_encoded_cancellable`, `save_utf8_cancellable` and `save_paged_cancellable` -/
  | save (target : Path) (expected : Fingerprint Digest) (bytes : Bytes)
  /-- the receipt at the receipt path, parsed -/
  | readReceipt
  /-- `publish_json` of the receipt in memory -/
  | publishJson
  /-- the receipt in memory, and assignments to it -/
  | memory
  | assign (receipt : ReplaceReceipt Digest)
  | setAfterHash (index : Nat) (hash : Digest)
  | setBackup (index : Nat) (path : Path)
  | setState (index : Nat) (state : ReceiptState)

/-- The answers to an operation. -/
abbrev Op.Answer {Digest : Type} : Op Digest → Type
  | isCancelled | isOpen .. => Bool
  | approve .. | attempt | lockOpenFiles | syncAll _ | save .. | publishJson => Except IoError Unit
  | identity _ => Except IoError FileIdentity
  | read _ | copyNew .. => Except IoError Bytes
  | isReadOnly _ => Except IoError Bool
  | newJobDirectory _ => Except IoError Path
  | readReceipt => Except IoError (ReplaceReceipt Digest)
  | memory => ReplaceReceipt Digest
  | assign _ | setAfterHash .. | setBackup .. | setState .. => Unit

/-- The procedures of a job. -/
inductive Procedure where
  | apply
  | reconcile
  | rollback
  deriving DecidableEq, Repr

/-- What is remembered of a run. -/
inductive Event where
  /-- a file was read in full, and held these bytes -/
  | observed (path : Path) (content : Bytes)
  /-- a file that held `before` was replaced by `after` -/
  | overwritten (procedure : Procedure) (path : Path) (before after : Bytes)
  /-- a new file was written with the bytes that `source` held -/
  | copied (source target : Path) (content : Bytes)
  /-- a record was given a state -/
  | classified (index : Nat) (state : ReceiptState)
  deriving DecidableEq, Repr

/-- A file of the machine. -/
structure FileEntry where
  identity : FileIdentity
  content : Bytes
  deriving DecidableEq, Repr

/-- The receipt on disk and the one in memory, the procedure that runs, and the events so far,
the latest first. -/
structure Trail (Digest : Type) where
  disk : Option (ReplaceReceipt Digest)
  memory : ReplaceReceipt Digest
  procedure : Procedure
  log : List Event

/-- The files of the machine, and the job's own data. -/
structure World (Digest : Type) where
  files : Path → Option FileEntry
  trail : Trail Digest

/-- What a procedure last saw in a file: what it read there, or wrote. -/
def lastSeen (path : Path) : List Event → Option Bytes
  | [] => none
  | .observed p content :: log => if p = path then some content else lastSeen path log
  | .overwritten _ p _ after :: log => if p = path then some after else lastSeen path log
  | _ :: log => lastSeen path log

section Machine

variable {Digest : Type}

namespace Trail

/-- An assignment to one record of the receipt in memory. -/
def modify (t : Trail Digest) (index : Nat) (f : FileReceipt Digest → FileReceipt Digest) :
    Trail Digest :=
  { t with memory := { t.memory with files := t.memory.files.modify index f } }

def note (t : Trail Digest) (event : Event) : Trail Digest := { t with log := event :: t.log }

def setAfterHash (t : Trail Digest) (index : Nat) (hash : Digest) : Trail Digest :=
  t.modify index fun record => { record with afterHash := some hash }

def setBackup (t : Trail Digest) (index : Nat) (path : Path) : Trail Digest :=
  t.modify index fun record => { record with backup := some path }

def setState (t : Trail Digest) (index : Nat) (state : ReceiptState) : Trail Digest :=
  (t.modify index fun record => { record with state }).note (.classified index state)

def publish (t : Trail Digest) : Trail Digest := { t with disk := some t.memory }

end Trail

namespace World

def note (w : World Digest) (event : Event) : World Digest :=
  { w with trail := w.trail.note event }

/-- A file replaced by another. -/
def put (w : World Digest) (path : Path) (entry : FileEntry) : World Digest :=
  { w with files := Function.update w.files path (some entry) }

end World

variable (sha256 : Bytes → Digest)

/-- A save replaces its target, which is as expected, by the new bytes in one go. -/
def Saved (w : World Digest) (target : Path) (expected : Fingerprint Digest) (bytes : Bytes)
    (w' : World Digest) : Prop :=
  ∃ entry identity, w.files target = some entry ∧
    expected = ⟨entry.identity, sha256 entry.content⟩ ∧
    w' = (w.put target ⟨identity, bytes⟩).note
      (.overwritten w.trail.procedure target entry.content bytes)

/-- The answers to an operation, and what it does, with the files as they are at that moment.
Whatever the procedures do not decide themselves may come out either way. -/
def respond (w : World Digest) : (op : Op Digest) → op.Answer → World Digest → Prop
  | .read path, .ok content, w' =>
    (∃ entry, w.files path = some entry ∧ entry.content = content) ∧
      w' = w.note (.observed path content)
  | .copyNew source target, .ok content, w' =>
    w.files target = none ∧ ∃ entry identity, w.files source = some entry ∧
      entry.content = content ∧
      w' = (w.put target ⟨identity, content⟩).note (.copied source target content)
  | .save target expected bytes, .ok (), w' => Saved sha256 w target expected bytes w'
  -- A save that reports a failure may have replaced the file before it failed.
  | .save target expected bytes, .error _, w' => w' = w ∨ Saved sha256 w target expected bytes w'
  | .readReceipt, .ok receipt, w' => w.trail.disk = some receipt ∧ w' = w
  | .publishJson, .ok (), w' => w' = { w with trail := w.trail.publish }
  -- Publication is atomic, but may fail after the new receipt is in place.
  | .publishJson, .error _, w' => w' = w ∨ w' = { w with trail := w.trail.publish }
  | .memory, receipt, w' => receipt = w.trail.memory ∧ w' = w
  | .assign receipt, _, w' => w' = { w with trail := { w.trail with memory := receipt } }
  | .setAfterHash index hash, _, w' => w' = { w with trail := w.trail.setAfterHash index hash }
  | .setBackup index path, _, w' => w' = { w with trail := w.trail.setBackup index path }
  | .setState index state, _, w' => w' = { w with trail := w.trail.setState index state }
  | _, _, w' => w' = w

/-- The machine: between any two operations other programs change files as they like. -/
def machine : Machine (Op Digest) Op.Answer (World Digest) :=
  fun w op answer w' => ∃ files, respond sha256 { w with files } op answer w'

end Machine

end BareLine.Replace
