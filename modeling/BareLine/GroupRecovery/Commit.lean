import BareLine.GroupRecovery.Operations

/-!
# Group commits

- §1: `group::commit`.
- §2: `committed_root`.
- §3: histories of a recovery root.
-/

namespace BareLine.GroupRecovery

open Lib

section Procedures

variable (sha256 : Bytes → Digest)

/-! ## §1 `group::commit` -/

/-- `GroupEdits`, by which append of the writer they take. -/
inductive GroupEdits where
  | source
  | history
  deriving DecidableEq, Repr

/-- The previous committed group, as the new pointer carries it. -/
def previousPointer (d : Directory) : Task (Option Pointer) := do
  if (← pointerExists d) then
    let previous ← readPointer d
    refuseIf (SMALL < (Json.bytes previous.json).length) "Group metadata limit"
    if (← markerExists d.parent previous.id) then
      return some { previous with previous := none }
    else return previous.previous
  else return none

/-- A member of a group, up to its pointer. -/
def prepareMember (id : Nat) (d : Directory) (snapshot : Snapshot) :
    Task (Member × RootReceipt) := do
  attempt
  flushDeferred sha256 d
  -- The baseline has settled, and the writer is locked.
  attempt
  prepareRecipeRevision d snapshot.revision
  attempt
  let (root, _) ← prepareRoot sha256 d snapshot.revision false none snapshot.draft
  publishIntent d id root
  let previous ← previousPointer d
  publishPointer d ⟨1, id, root.revision, previous⟩
  return (⟨d.name.text, root.revision, sha256 (Json.bytes root.json)⟩, root)

def prepareMembers (id : Nat) : List (Directory × Snapshot) → Task (List (Member × RootReceipt))
  | [] => pure []
  | (d, snapshot) :: members => do
    let prepared ← prepareMember sha256 id d snapshot
    let rest ← prepareMembers id members
    return prepared :: rest

/-- `break_continuity`; a writer whose lock failed is stopped as well. -/
def breakContinuity (d : Directory) : Task Unit := do
  assign d { ← memory d with poisoned := true }

/-- `group_root_committed` -/
def groupRootCommitted (d : Directory) (root : RootReceipt) : Task Unit := do
  let journal ← memory d
  assign d { journal with groupRoots := root.revision :: journal.groupRoots }
  rememberRoot d root

/-- The record of a member after the marker. -/
def maintain (d : Directory) (root : RootReceipt) : Task Unit := do
  attempt
  appendRecord d root.revision
  checkpoint d

def settle (d : Directory) (maintenance : Except String Unit) : Task Unit :=
  match maintenance with
  | .ok () => pure ()
  | .error _ => breakContinuity d

/-- The ordinary journal of a member continues after the marker. -/
def continueMember (d : Directory) (root : RootReceipt) : Task Unit := do
  let maintenance ← resultOf (maintain d root)
  settle d maintenance
  groupRootCommitted d root

def continueMembers : List (Directory × RootReceipt) → Task Unit
  | [] => pure ()
  | (d, root) :: members => do
    continueMember d root
    continueMembers members

/-- `group::commit` -/
def commit (journals : List Directory) (snapshots : List Snapshot) (edits : List GroupEdits)
    (id : Nat) : Task Unit := do
  refuseIf
    (journals.length < 2 ∨ 100 < journals.length ∨ journals.length ≠ snapshots.length ∨
      edits.length ≠ snapshots.length)
    "Invalid recovery group"
  let parent := (journals.head?.map Directory.parent).getD ""
  refuseIf (∃ journal ∈ journals, journal.parent ≠ parent) "Recovery group roots differ"
  attempt
  let prepared ← prepareMembers sha256 id (journals.zip snapshots)
  let marker : Marker := ⟨1, id, prepared.map Prod.fst⟩
  refuseIf (SMALL < (Json.bytes marker.json).length) "Recovery group marker limit"
  attempt
  -- This single atomic publication is the transaction commit point.
  publishMarker parent id marker
  continueMembers (journals.zip (prepared.map Prod.snd))

/-! ## §2 `committed_root` -/

/-- `verify_asset` -/
def verifyAsset (w : World) (d : Directory) (name : AssetName) (length : Option Nat)
    (expected : Digest) : Except String Unit :=
  match (w.folder d).asset name with
  | none => .error "not found"
  | some content =>
    if ∃ size ∈ length, content.length ≠ size then .error "Group payload length changed"
    else if sha256 content ≠ expected then .error "Group payload changed"
    else .ok ()

/-- The owned payload of a receipt. -/
def verifyOwned (w : World) (d : Directory) (receipt : RootReceipt) : Except String Unit :=
  match receipt.owned with
  | none => .ok ()
  | some owned =>
    if owned.name ≠ .owned receipt.revision then .error "Invalid group owned payload"
    else verifyAsset sha256 w d owned.name (some owned.len) owned.sha256

/-- The receipt of a member, when it and what it names are as the marker says. -/
def verifyMember (w : World) (d : Directory) (id : Nat) (member : Member) :
    Except String RootReceipt :=
  match (w.folder d).intent id with
  | none => .error "not found"
  | some receipt =>
    if SMALL < (Json.bytes receipt.json).length then .error "Group metadata limit"
    else if sha256 (Json.bytes receipt.json) ≠ member.receiptHash then
      .error "Group member receipt changed"
    else if receipt.revision ≠ member.revision then .error "Group member revision changed"
    else if ¬(receipt.version = 1 ∨ receipt.version = 2) ∨ receipt.base.isSome ∨
        receipt.file ≠ .root receipt.revision then
      .error "Invalid group recipe"
    else do
      verifyAsset sha256 w d receipt.file none receipt.sha256
      verifyOwned sha256 w d receipt
      return receipt

/-- The loop over the members of a marker, for the document in `directory`. -/
def selectMember (w : World) (directory : Directory) (pointer : Pointer) :
    List (List Char) → Option RootReceipt → List Member → Except String (Option RootReceipt)
  | _, selected, [] => .ok selected
  | names, selected, member :: members =>
    if h : validMember member.directory = true then
      if member.directory ∈ names then .error "Invalid group member"
      else do
        let d : Directory := ⟨directory.parent, ⟨member.directory, h⟩⟩
        let receipt ← verifyMember sha256 w d pointer.id member
        if d = directory then
          if receipt.revision ≠ pointer.revision then .error "Group pointer revision changed"
          else selectMember w directory pointer (member.directory :: names) (some receipt) members
        else selectMember w directory pointer (member.directory :: names) selected members
    else .error "Invalid group member"

/-- The group a pointer selects: its own, or the one before it. -/
def committedPointer (w : World) (directory : Directory) (pointer : Pointer) :
    Except String (Option Pointer) :=
  if (w.marker directory.parent pointer.id).isSome then .ok (some pointer)
  else match pointer.previous with
    | none => .ok none
    | some previous =>
      if previous.previous.isSome then .error "Group fallback depth limit"
      else if (w.marker directory.parent previous.id).isNone then
        .error "Previous committed group is missing"
      else .ok (some previous)

/-- The root of a group whose marker exists. -/
def markedRoot (w : World) (directory : Directory) (pointer : Pointer) (marker : Marker) :
    Except String (Option RootReceipt) :=
  if SMALL < (Json.bytes marker.json).length then .error "Group metadata limit"
  else if marker.version ≠ 1 ∨ marker.id ≠ pointer.id ∨ marker.members.length < 2 ∨
      100 < marker.members.length then
    .error "Invalid group commit marker"
  else do
    match ← selectMember sha256 w directory pointer [] none marker.members with
    | some receipt => return some receipt
    | none => throw "Document missing from recovery group"

/-- `committed_root` -/
def committedRoot (w : World) (directory : Directory) : Except String (Option RootReceipt) :=
  match (w.folder directory).pointer with
  | none => .ok none
  | some pointer =>
    if SMALL < (Json.bytes pointer.json).length then .error "Group metadata limit"
    else if pointer.version ≠ 1 then .error "Unsupported group pointer"
    else do
      match ← committedPointer w directory pointer with
      | none => return none
      | some pointer =>
        match w.marker directory.parent pointer.id with
        | none => throw "not found"
        | some marker => markedRoot sha256 w directory pointer marker

end Procedures

end BareLine.GroupRecovery
