import BareLine.SaveTransaction.Records

/-!
# Cleaning up a save transaction

- §1: `Cleanup` and `mark_state`.
- §2: `inspect`.
- §3: `resume`.
- §4: `reclaim`.
-/

namespace BareLine.SaveTransaction

open Lib

/-! ## §1 `Cleanup` and `mark_state` -/

/-- `Cleanup`; the artifacts are in the order in which they are removed. -/
structure Cleanup where
  generation : Generation
  artifacts : List (Entry × Node)
  authority : Bool

/-- `publish_cleanup_authority` -/
def publishCleanupAuthority (token : Cleanup) : Task Cleanup := do
  if token.authority then return token
  let bytes ← readRegular (.entry .manifest) MANIFEST_LIMIT
  let _ ← ofExcept (parseManifest bytes token.generation)
  match ← resultOf (writeRecord .authority bytes) with
  | .ok () => pure ()
  | .error .alreadyExists => do
    let existing ← readRegular (.entry .authority) MANIFEST_LIMIT
    refuseIf (existing ≠ bytes) .invalidData
  | .error error => throw error
  use .sync
  return { token with authority := true }

/-- `mark_state`: cleanup is announced only under a durable authority. -/
def markState (generation : Generation) (state : CommitState) : Task Unit := do
  if state = .cleanupPending then
    use .openFolder
    let _ ← readManifest .authority generation
  publishCommitState state

/-- The loop over the artifacts; what it returns is still to be removed. -/
def removeArtifacts :
    List (Entry × Node) → Program Op Op.Answer (Except Errno Unit × List (Entry × Node))
  | [] => pure (.ok (), [])
  | (entry, node) :: artifacts => do
    match ← (removeVerified entry node).run with
    | .ok () => removeArtifacts artifacts
    | .error error => pure (.error error, (entry, node) :: artifacts)

/-- The records, in the order in which they go. -/
def retiredRecords : List Entry :=
  [.state .precommit, .state .created, .state .replaced, .state .conflict, .manifest,
    .state .cleanupPending, .authority]

def unlinkAll : List Entry → Task Unit
  | [] => pure ()
  | entry :: entries => do
    unlinkPresent entry
    unlinkAll entries

/-- `Transaction::remove` -/
def removeTransaction : Task Unit := do
  use .stillNamed
  use .removeFolder
  use .sync

/-- `cleanup`, with the token as it leaves it. -/
def cleanup (token : Cleanup) : Program Op Op.Answer (Except Errno Unit × Cleanup) := do
  match ← (use .stillNamed).run with
  | .error error => pure (.error error, token)
  | .ok () =>
    let (removed, artifacts) ← removeArtifacts token.artifacts
    match removed with
    | .error error => pure (.error error, { token with artifacts := artifacts })
    | .ok () =>
      match ← (unlinkAll retiredRecords).run with
      | .error error => pure (.error error, { token with artifacts := artifacts })
      | .ok () =>
        let result ← removeTransaction.run
        pure (result, { token with artifacts := artifacts, authority := false })

/-- `SaveCleanup::retry`, and the end of a save: each step only after the one before. -/
def retire (token : Cleanup) : Program Op Op.Answer (Except Errno Unit × Cleanup) := do
  match ← (publishCleanupAuthority token).run with
  | .error error => pure (.error error, token)
  | .ok token =>
    match ← (markState token.generation .cleanupPending).run with
    | .error error => pure (.error error, token)
    | .ok () => cleanup token

/-! ## §2 `inspect` -/

/-- `Path::is_absolute` -/
def isAbsolute (path : Bytes) : Bool := path.head? == some 47

/-- `Path::parent` of a resolved path: it has no repeated and no trailing slash. -/
def parentOf (path : Bytes) : Option Bytes :=
  match path.reverse.dropWhile (· != 47) with
  | [] => if path = [] then none else some []
  | [_] => if path = [47] then none else some [47]
  | _ :: rest => some rest.reverse

/-- The folder a transaction is inspected for, the folder it is in, and the store. -/
structure Place where
  folder : Bytes
  home : Bytes
  store : Option Bytes

/-- The transaction is in the store. -/
def Place.stored (place : Place) : Bool := decide (place.home ≠ place.folder)

/-- `CommitRecovery`; its other paths are the names of the folder. -/
structure CommitRecovery where
  target : Option Bytes
  displaced : Bool
  state : CommitState
  verified : Bool
  deriving DecidableEq

/-- `unverified` -/
def CommitRecovery.unverified : CommitRecovery := ⟨none, false, .unverified, false⟩

def isOk {α : Type} (result : Except Errno α) : Bool :=
  match result with
  | .ok _ => true
  | .error _ => false

/-- `regular_child` -/
def regularChild (entry : Entry) : Task Bool := do
  return isOk (← resultOf (openRegular (.entry entry)))

/-- What `inspect_in` makes of what it read. -/
def recoveryOf (place : Place) (state : CommitState) (manifest authority : Except Errno Manifest)
    (proposed displaced : Bool) : Option CommitRecovery :=
  let durable := isOk authority && (state == .cleanupPending || state == .unverified)
  let state := if state = .unverified ∧ durable then .cleanupPending else state
  let named : Option Manifest :=
    match manifest.toOption.orElse fun _ => authority.toOption with
    | some found =>
      if isAbsolute found.target ∧ parentOf found.target = some place.folder then some found
      else none
    | none => none
  if named = none ∧ place.stored then none
  else
    let target := named.map Manifest.target
    let other := named.map Manifest.mode == some .replace && displaced
    if target = none ∧ proposed = false ∧ displaced = false ∧ state = .unverified then none
    else
      let verified := target.isSome && state != .unverified && (proposed || state == .cleanupPending)
      some ⟨target, other, if verified then state else .unverified, verified⟩

/-- The body of the loop of `inspect_in` for the transaction. -/
def inspectEntry (place : Place) (generation : Generation) : Task (Option CommitRecovery) := do
  let opened ← resultOf do
    use .openFolder
    use .leaseShared
  match opened with
  | .error _ => return if place.stored then none else some .unverified
  | .ok () => do
    let state ← stateFromRecords
    let manifest ← resultOf (readManifest .manifest generation)
    let authority ← resultOf (readManifest .authority generation)
    let proposed ← regularChild .editor
    let displaced ← regularChild .displaced
    use .release
    return recoveryOf place state manifest authority proposed displaced

/-- `inspect`, as far as it concerns the transaction. -/
def inspect (place : Place) (generation : Generation) : Task (Option CommitRecovery) := do
  let visited ← use .listed
  use .checkCancelled
  if visited then inspectEntry place generation else return none

/-! ## §3 `resume` -/

/-- An entry to clean up, where it is there. -/
def preserved (entry : Entry) : Task (List (Entry × Node)) := do
  match ← resultOf (openRegular (.entry entry)) with
  | .ok node => return [(entry, node)]
  | .error .notFound => return []
  | .error error => throw error

/-- `resume`, under the lease. -/
def resumeLeased (place : Place) (generation : Generation) (recovery : CommitRecovery) :
    Task Cleanup := do
  let state ← stateFromRecords
  let manifest ← readManifest .authority generation
  refuseIf (¬(state = .cleanupPending ∨ state = .unverified)) .denied
  refuseIf (recovery.target ≠ some manifest.target ∨
    (parentOf manifest.target ≠ some place.home ∧ place.store ≠ some place.home)) .denied
  match ← resultOf (readManifest .manifest generation) with
  | .ok primary => refuseIf (primary ≠ manifest) .denied
  | .error _ => pure ()
  let _ ← openRegular .target
  let proposed ← preserved .editor
  let displaced ← if recovery.displaced then preserved .displaced else pure []
  return ⟨generation, displaced ++ proposed, true⟩

/-- `resume`; the lease goes with an error. -/
def resume (place : Place) (generation : Generation) (recovery : CommitRecovery) :
    Task (Option Cleanup) := do
  if recovery.verified = false ∨ recovery.state ≠ .cleanupPending then return none
  use .openFolder
  use .leaseShared
  match ← resultOf (resumeLeased place generation recovery) with
  | .ok token => return some token
  | .error error => do
    use .release
    throw error

/-! ## §4 `reclaim` -/

/-- `holds_only` -/
def holdsOnly (names : List Entry) : Task Bool := do
  let entries ← use .list
  if ∃ entry ∈ entries, ∀ name ∈ names, entry ≠ some name then return false
  match ← resultOf (openRegular (.entry .editor)) with
  | .ok _ | .error .notFound => return true
  | .error _ => return false

/-- The body of the loop of `reclaim_in` for the transaction. -/
def reclaimEntry (folder : Bytes) (generation : Generation) : Task Unit := do
  use .openFolder
  let manifest ← readManifest .manifest generation
  if parentOf manifest.target = some folder then
    use .leaseExclusive
    if ← holdsOnly [.manifest, .editor] then
      unlinkPresent .editor
      unlinkPresent .manifest
      removeTransaction

end BareLine.SaveTransaction
