import BareLine.SaveTransaction.Cleanup

/-!
# Committing a save transaction

- §1: `prepare` and `abort`.
- §2: the four ways to publish.
- §3: `commit`.
- §4: the directories while others change the target name.
-/

namespace BareLine.SaveTransaction

open Lib

/-! ## §1 `prepare` and `abort` -/

/-- `SaveStrategy` -/
inductive SaveStrategy where
  | transactional
  | renameReplace
  | inPlace
  | inPlaceLockedFolder
  | copyOnly
  deriving DecidableEq, Repr

def SaveStrategy.rewrites : SaveStrategy → Bool
  | .inPlace | .inPlaceLockedFolder => true
  | _ => false

/-- What `prepare` is asked for, with its paths resolved. -/
structure Request where
  target : Bytes
  mode : CommitMode
  strategy : SaveStrategy
  /-- The stage and the target have one parent, as given and as resolved. -/
  together : Bool
  resolvedTogether : Bool
  /-- The stage is in the store, which exists. -/
  inStore : Bool

/-- The guards of a `PreparedCommit`. -/
structure Prepared where
  mode : CommitMode
  strategy : SaveStrategy
  generation : Generation
  proposed : Node
  deriving DecidableEq

/-- `create_transaction`, with a name that is free. -/
def createTransaction : Task Unit := do
  use .makeFolder
  match ← resultOf (do use .openFolder; use .leaseShared) with
  | .ok () => pure ()
  | .error error => do
    let _ ← resultOf (use .removeFolder)
    throw error

/-- `copy_commit_bytes_into`; one write stands for its chunks. -/
def copyCommitBytes (source : Name) (destination : Node) : Task Unit := do
  let node ← use (.openAny source)
  use .checkCancelled
  let bytes ← use (.read node)
  use (.write destination bytes)
  use .checkCancelled
  use .sync

/-- The files of a transaction, up to its first state record. -/
def fillTransaction (generation : Generation) (request : Request) : Task Node := do
  let bytes ← ofExcept (manifestBytes generation ⟨request.target, request.mode⟩)
  writeRecord .manifest bytes
  let proposed ← use (.create (.entry .editor))
  copyCommitBytes .stage proposed
  publishCommitState .precommit
  use .sync
  use .sync
  return proposed

/-- What `prepare` does where filling the transaction failed. -/
def withdraw : List Entry → Task Unit
  | [] => do
    let _ ← resultOf removeTransaction
    pure ()
  | entry :: entries => do
    let _ ← resultOf (unlinkPresent entry)
    withdraw entries

/-- `prepare` -/
def prepare (generation : Generation) (request : Request) : Task Prepared := do
  refuseIf (request.strategy = .copyOnly) .denied
  let locked : Bool := request.strategy == .inPlaceLockedFolder
  refuseIf (locked = false ∧ request.together = false) .invalidData
  refuseIf (locked = true ∧ request.mode = .createNew) .denied
  refuseIf (request.strategy.rewrites = false ∧ request.resolvedTogether = false) .invalidData
  refuseIf (locked = true ∧ request.inStore = false) .invalidData
  createTransaction
  match ← resultOf (fillTransaction generation request) with
  | .ok proposed => return ⟨request.mode, request.strategy, generation, proposed⟩
  | .error error => do
    withdraw [.editor, .manifest, .state .precommit]
    throw error

/-- `abort` -/
def abort (prepared : Prepared) : Task Unit := do
  removeVerified .editor prepared.proposed
  unlinkPresent (.state .precommit)
  unlinkPresent (.state .conflict)
  unlinkPresent .manifest
  removeTransaction

/-! ## §2 The four ways to publish -/

/-- `carry_metadata` -/
def carryMetadata : Task Unit := do
  let _ ← use (.stat .target)
  let stage ← use (.openAny .stage)
  let _ ← resultOf (use (.setMetadata stage))
  use (.setMetadata stage)

/-- `rename_no_replace` -/
def renameNoReplace (source destination : Name) : Task Unit := do
  match ← resultOf (use (.renameNoReplace source destination)) with
  | .ok () => pure ()
  | .error .unsupported =>
    match ← resultOf (use (.stat destination)) with
    | .ok _ => throw .alreadyExists
    | .error .notFound => use (.rename source destination)
    | .error error => throw error
  | .error error => throw error

/-- `replace_by_rename` -/
def replaceByRename : Task Unit := do
  renameNoReplace .target (.entry .displaced)
  match ← resultOf (renameNoReplace .stage .target) with
  | .ok () => pure ()
  | .error error => do
    let _ ← resultOf (renameNoReplace (.entry .displaced) .target)
    throw error

/-- `replace_by_exchange` -/
def replaceByExchange : Task SaveStrategy := do
  match ← resultOf (use (.exchange .stage .target)) with
  | .error .unsupported => do
    replaceByRename
    return .renameReplace
  | .error error => throw error
  | .ok () =>
    match ← resultOf (renameNoReplace .stage (.entry .displaced)) with
    | .ok () => return .transactional
    | .error error => do
      -- Swap back so a failed save leaves the approved version in place.
      let _ ← resultOf (use (.exchange .stage .target))
      throw error

/-- The closure `rewrite`: one write stands for `io::copy`. -/
def rewrite (file source : Node) : Task Unit := do
  let bytes ← use (.read source)
  use (.write file bytes)
  use (.setLen file bytes.length)
  use .sync

def rewriteFrom (file : Node) (source : Task Node) : Task Unit := do
  let source ← source
  rewrite file source

/-- The exact prior bytes, retained. -/
def retain (file : Node) : Task Unit := do
  let previous ← use (.create (.entry .displaced))
  let bytes ← use (.read file)
  use (.write previous bytes)
  use .sync

/-- `rewrite_in_place` -/
def rewriteInPlace : Task Unit := do
  let file ← use (.openAny .target)
  let kind ← use (.kind file)
  refuseIf (kind ≠ .regular) .denied
  retain file
  match ← resultOf (rewriteFrom file (use (.openAny .stage))) with
  | .ok () => pure ()
  | .error error => do
    let _ ← resultOf (rewriteFrom file (openRegular (.entry .displaced)))
    throw error

/-! ## §3 `commit` -/

/-- The publication step of `commit`. -/
def publication (mode : CommitMode) (strategy : SaveStrategy) : Task SaveStrategy :=
  match mode with
  | .createNew => do
    renameNoReplace .stage .target
    return strategy
  | .replace =>
    if strategy.rewrites then do
      rewriteInPlace
      return strategy
    else do
      carryMetadata
      if strategy = .transactional then replaceByExchange
      else do
        replaceByRename
        return .renameReplace

/-- `commit`, with the token of its receipt. -/
def commit (prepared : Prepared) : Task Cleanup := do
  use .stillNamed
  match ← resultOf (publication prepared.mode prepared.strategy) with
  | .error error => do
    if prepared.mode = .createNew ∧ error = .alreadyExists then
      let _ ← resultOf (publishCommitState .conflict)
    throw error
  | .ok _ => do
    use .sync
    use .sync
    use .stillNamed
    let _ ← openRegular .target
    let displaced ←
      if prepared.mode = .replace then do
        let node ← openRegular (.entry .displaced)
        pure [(Entry.displaced, node)]
      else pure []
    markState prepared.generation (if prepared.mode = .replace then .replaced else .created)
    return ⟨prepared.generation, (.editor, prepared.proposed) :: displaced, false⟩

/-! ## §4 The directories while others change the target name -/

/-- Another process creates, replaces or removes the target name, with an object that the
transaction does not name. -/
inductive Outside (d : Disk) : Disk → Prop
  | removes : Outside d (d.setName .target none)
  | creates (object : Object) : Outside d (d.withObject .target object)
  | brings (node : Node) (hknown : node < d.fresh)
      (hother : ∀ name, name ≠ .target → d.names name ≠ some node) :
      Outside d (d.setName .target (some node))

/-- The disk, and what the transaction did to the target. -/
structure Publishing where
  disk : Disk
  /-- The first version that the transaction displaced. -/
  version : Option (Node × Bytes)
  /-- It is off the target name, or its object holds something else. -/
  out : Bool
  /-- An object lost its last name by an operation of the transaction. -/
  overwrote : Bool
  /-- The operations that were refused, newest first. -/
  refused : List (Op × Errno)

namespace Publishing

/-- The object is none of the folder. -/
def foreignTo (d : Disk) (node : Node) : Bool :=
  Entry.all.all fun entry => d.names (.entry entry) != some node

/-- The object at the target name, with its bytes. -/
def atTarget (d : Disk) : Option (Node × Bytes) :=
  (d.names .target).map fun node => (node, (d.object node).bytes)

/-- The version, and whether it is out, after an operation. -/
def versionAfter (w : Publishing) (d d' : Disk) : (op : Op) → op.Answer →
    Option (Node × Bytes) × Bool
  | .renameNoReplace .target (.entry .displaced), .ok _
  | .rename .target (.entry .displaced), .ok _ => (atTarget d, true)
  | .renameNoReplace (.entry .displaced) .target, .ok _
  | .rename (.entry .displaced) .target, .ok _ => (w.version, false)
  | .exchange .stage .target, .ok _ =>
    if w.out then (w.version, false) else (atTarget d, true)
  | .write node _, _ | .setLen node _, _ =>
    if foreignTo d node then
      let version := w.version.getD (node, (d.object node).bytes)
      (some version, (d'.object node).bytes != version.2)
    else (w.version, w.out)
  | _, _ => (w.version, w.out)

/-- The object at the target has no name any more. -/
def loses (d d' : Disk) : Bool :=
  match d.names .target with
  | none => false
  | some node =>
    d'.names .target != some node && d'.names .stage != some node &&
      d'.names (.entry .displaced) != some node

def refusal (op : Op) : op.Answer → List (Op × Errno)
  | .ok _ => []
  | .error error => [(op, error)]

def after (w : Publishing) (d : Disk) (op : Op) (answer : op.Answer) (d' : Disk) : Publishing where
  disk := d'
  version := (w.versionAfter d d' op answer).1
  out := (w.versionAfter d d' op answer).2
  overwrote := w.overwrote || loses d d'
  refused := refusal op answer ++ w.refused

/-- The machine of a save: others act before every operation, which may fail. -/
def machine : Machine Op Op.Answer Publishing := fun w op answer w' =>
  ∃ d d', Relation.ReflTransGen Outside w.disk d ∧ Performs true d op answer d' ∧
    w' = w.after d op answer d'

/-- A save begins: nothing is displaced. -/
def start (d : Disk) : Publishing := ⟨d, none, false, false, []⟩

end Publishing

end BareLine.SaveTransaction
