import BareLine.Document.History

/-!
# Groups of documents

A group edit changes several documents at once and tags one history entry of each; group
undo and redo move those entries together.  Documents are kept by their ids.  What a group
operation sees of the budgets and of the other workers is a `GroupWorld`: the room of a
history budget is an answer that may depend on the turn, on the documents it has locked and
on the claims it already holds.
-/

namespace BareLine

open Lib BareLine.Tree

/-! ## §1 Tags and members -/

/-- `group::members`: the sorted ids of two to a hundred different documents. -/
def groupMembers (documents : List Document) : Except Error (List Nat) :=
  if documents.length < 2 ∨ documents.length > MAX_GROUP_DOCUMENTS then .error .outOfBounds
  else
    let ids := (documents.map fun d => d.current.documentId).insertionSort (· ≤ ·)
    if (ids.zip ids.tail).any fun pair => pair.1 == pair.2 then .error .wrongDocument
    else .ok ids

/-! ## §2 The world of a group operation -/

/-- A member of a group edit: its staged edit, the allocator's next segment after staging,
and the room that its history entry asks for. -/
structure Member where
  id : Nat
  prepared : PreparedEdit
  next : Nat
  demand : Demand
  deriving DecidableEq, Repr

/-- What a group operation sees of the rest of the process. -/
structure GroupWorld where
  /-- Layout, byte budget and fresh names, by document id. -/
  env : Nat → Env
  /-- The history budget of a document. -/
  budget : Nat → Nat
  /-- Retired, or with requests waiting. -/
  busy : Nat → Bool
  /-- The registered documents whose locks are free, each once. -/
  registered : List Nat
  nodup : registered.Nodup
  /-- `Budget::available` of a history budget at a turn, while the locked documents and the
  charged members are these. -/
  available : Nat → (Nat → Document) → List Member → Nat → Nat

/-- One document's view of that world at a turn. -/
def GroupWorld.view (w : GroupWorld) (turn : Nat) (documents : Nat → Document)
    (charged : List Member) (id : Nat) : Env :=
  { w.env id with
    historyAvailable := fun d =>
      w.available turn (Function.update documents id d) charged (w.budget id) }

/-! ## §3 Admitting the members -/

/-- `Document::oldest_history` -/
def Document.oldestHistory (d : Document) (keep : Nat × Nat) : Option Nat :=
  match d.evictable keep with
  | (some undo, some redo) => some (min undo redo)
  | (some undo, none) => some undo
  | (none, redo) => redo

section Admission

variable (w : GroupWorld)

/-- The first document of a budget with the oldest evictable entry. -/
def oldestAmong (documents : Nat → Document) (budget : Nat) : List Nat → Option (Nat × Nat)
  | [] => none
  | id :: rest =>
    let oldest := if w.budget id = budget then (documents id).oldestHistory (0, 0) else none
    match oldest, oldestAmong documents budget rest with
    | none, found => found
    | some sequence, none => some (sequence, id)
    | some sequence, some found => if sequence ≤ found.1 then some (sequence, id) else some found

/-- `evict_oldest` for a history budget, keeping nothing. -/
def evictOldest (documents : Nat → Document) (ids : List Nat) (budget : Nat) :
    Option (Nat → Document) :=
  (oldestAmong w documents budget ids).bind fun found =>
    ((documents found.2).evictOldestEntry (w.env found.2) (0, 0) false).map fun evicted =>
      Function.update documents found.2 evicted.2

/-- The eviction loop for one member; each turn drops an entry, and the fuel counts them. -/
def evictWhile (turn : Nat) (charged : List Member) (ids : List Nat) (member : Member) :
    Nat → (Nat → Document) → (Nat → Document)
  | 0, documents => documents
  | fuel + 1, documents =>
    if (documents member.id).lacksRoom (w.view turn documents charged member.id)
        member.demand then
      match evictOldest w documents ids (w.budget member.id) with
      | none => documents
      | some documents => evictWhile turn charged ids member fuel documents
    else documents

/-- Entries that eviction may drop. -/
def historyEntries (documents : Nat → Document) (ids : List Nat) : Nat :=
  (ids.map fun id => (documents id).historyLength).sum

/-- What one member's demand may evict. -/
def relieveMember (turn : Nat) (charged : List Member) (ids : List Nat) (member : Member)
    (documents : Nat → Document) : Nat → Document :=
  let documents := Function.update documents member.id
    ((documents member.id).relieveRedo (w.view turn documents charged member.id)
      member.demand).2
  evictWhile w turn charged ids member (historyEntries documents ids) documents

/-- The loop of `run_group` that admits one member after the other. -/
def admitMembers (relieve : Bool) (ids : List Nat) :
    Nat → (Nat → Document) → List Member → List Member →
      Except Error (List Member) × (Nat → Document)
  | _, documents, charged, [] => (.ok charged, documents)
  | turn, documents, charged, member :: rest =>
    let documents :=
      if relieve then relieveMember w turn charged ids member documents else documents
    match (documents member.id).undo.tryReserve (w.env member.id).layout.history
        (w.available (turn + 1) documents charged (w.budget member.id)) 1 with
    | .error _ => (.error .budgetExceeded, documents)
    | .ok undo =>
      let documents := Function.update documents member.id
        { documents member.id with undo := undo }
      match (documents member.id).charge (w.view (turn + 2) documents charged member.id)
          member.prepared 0 with
      | none => (.error .budgetExceeded, documents)
      | some prepared =>
        admitMembers relieve ids (turn + 3) documents
          (charged ++ [{ member with prepared := prepared }]) rest

/-- Whether a member's demand lacks room. -/
def pressured (documents : Nat → Document) (members : List Member) : Bool :=
  members.any fun member =>
    (documents member.id).lacksRoom (w.view 0 documents [] member.id) member.demand

/-- `group_admissible`: members that share a budget are checked against it together. -/
def groupAdmissible (documents : Nat → Document) (ids : List Nat) (members : List Member) :
    Bool :=
  members.all fun member =>
    let budget := w.budget member.id
    let need := (members.filter fun other => w.budget other.id == budget).foldl
      (fun sum other => saturatingAdd sum
        ((documents other.id).historyNeed (w.env other.id) other.demand)) 0
    let missing := need - w.available 1 documents [] budget
    (ids.filter fun id => w.budget id == budget).foldl
      (fun missing id =>
        missing - (documents id).freeableHistory (w.env id) (0, 0) missing) missing == 0

/-- Staging, member by member. -/
def stageMembers (documents : Nat → Document) :
    List (Nat × EditTransaction) → Except Error (List Member)
  | [] => .ok []
  | (id, transaction) :: rest =>
    match (documents id).stage (w.env id) transaction with
    | .error e => .error e
    | .ok (prepared, heap) =>
      match stageMembers documents rest with
      | .error e => .error e
      | .ok members =>
        .ok (⟨id, prepared, heap.next, (documents id).editDemand (w.env id) prepared 0⟩ :: members)

/-! ## §4 Committing and moving -/

/-- The staged edit with the group's tag on its entry. -/
def PreparedEdit.tagged (p : PreparedEdit) (tag : GroupTag) : PreparedEdit :=
  { p with entry := { p.entry with group := some tag } }

/-- The checks and slots of `group::commit`. -/
def reserveSlots (charged : List Member) :
    Nat → (Nat → Document) → List Member → Except Error Unit × (Nat → Document)
  | _, documents, [] => (.ok (), documents)
  | turn, documents, member :: rest =>
    match (documents member.id).validatePrepared member.prepared with
    | .error e => (.error e, documents)
    | .ok () =>
      match (documents member.id).undo.tryReserve (w.env member.id).layout.history
          (w.available turn documents charged (w.budget member.id)) 1 with
      | .error _ => (.error .budgetExceeded, documents)
      | .ok undo =>
        reserveSlots charged (turn + 1)
          (Function.update documents member.id { documents member.id with undo := undo }) rest

/-- The last loop of `group::commit`; nothing in it can fail. -/
def commitMembers (tag : GroupTag) (documents : Nat → Document) (members : List Member) :
    Nat → Document :=
  members.foldl (fun documents member =>
    Function.update documents member.id
      ((documents member.id).commitPreparedUnchecked (w.env member.id) member.next
        (member.prepared.tagged tag))) documents

/-- `group::commit`; `id` is the new group. -/
def groupCommit (turn : Nat) (id : Nat) (documents : Nat → Document) (members : List Member) :
    Except Error Nat × (Nat → Document) :=
  match groupMembers (members.map fun member => documents member.id) with
  | .error e => (.error e, documents)
  | .ok ids =>
    match reserveSlots w members turn documents members with
    | (.error e, documents) => (.error e, documents)
    | (.ok (), documents) => (.ok id, commitMembers w ⟨id, ids, true⟩ documents members)

/-- A step of one member that `move_history` has prepared. -/
structure Move where
  id : Nat
  revision : Nat
  change : AppliedChange
  deriving DecidableEq, Repr

/-- The last entry changes sides. -/
def Document.moveEntry (d : Document) (redo : Bool) (move : Move) : Document :=
  let history := if redo then d.redo else d.undo
  match history.entries.getLast? with
  | none => d
  | some entry =>
    let rest : HistoryStack := { history with entries := history.entries.dropLast }
    { d with
      undo := if redo then d.undo.push entry else rest
      redo := if redo then rest else d.redo.push entry
      current := { d.current with
        appliedChange := some move.change
        metadata := if redo then entry.afterMetadata else entry.beforeMetadata
        root := if redo then entry.after else entry.before
        contentState := if redo then entry.afterState else entry.beforeState
        revision := move.revision } }

/-- The first loop of `move_history`. -/
def prepareMoves (expected : Nat) (members : List Nat) (redo : Bool) :
    Nat → (Nat → Document) → List Nat → Except Error (List Move) × (Nat → Document)
  | _, documents, [] => (.ok [], documents)
  | turn, documents, id :: rest =>
    let d := documents id
    match (if redo then d.redo else d.undo).entries.getLast? with
    | none => (.error .emptyHistory, documents)
    | some entry =>
      match entry.group with
      | none => (.error .linkedUndoRequired, documents)
      | some tag =>
        if tag.id ≠ expected ∨ tag.members ≠ members ∨ tag.linked = false then
          (.error .linkedUndoRequired, documents)
        else match d.nextRevision with
          | .error e => (.error e, documents)
          | .ok revision =>
            match AppliedChange.owned (w.env id).layout d.current.documentId
                d.current.revision revision d.current.contentState
                (if redo then entry.afterState else entry.beforeState)
                (if redo then .redo else .undo) entry.edits ((w.env id).heap d) with
            | .error e => (.error e, documents)
            | .ok (change, _) =>
              match (if redo then d.undo else d.redo).tryReserve (w.env id).layout.history
                  (w.available turn documents [] (w.budget id)) 1 with
              | .error _ => (.error .budgetExceeded, documents)
              | .ok stack =>
                let reserved : Document :=
                  if redo then { d with undo := stack } else { d with redo := stack }
                match prepareMoves expected members redo (turn + 1)
                    (Function.update documents id reserved) rest with
                | (.error e, documents) => (.error e, documents)
                | (.ok moves, documents) => (.ok (⟨id, revision, change⟩ :: moves), documents)

/-- The last loop of `move_history`. -/
def moveMembers (redo : Bool) (documents : Nat → Document) (moves : List Move) :
    Nat → Document :=
  moves.foldl (fun documents move =>
    Function.update documents move.id ((documents move.id).moveEntry redo move)) documents

/-- `group::undo` and `group::redo` -/
def moveHistory (documents : Nat → Document) (ids : List Nat) (expected : Nat) (redo : Bool) :
    Except Error Unit × (Nat → Document) :=
  match groupMembers (ids.map documents) with
  | .error e => (.error e, documents)
  | .ok members =>
    match prepareMoves w expected members redo 0 documents ids with
    | (.error e, documents) => (.error e, documents)
    | (.ok moves, documents) => (.ok (), moveMembers redo documents moves)

/-! ## §5 `run_group` -/

/-- `GroupParticipant`: a document and the caller's snapshot of it. -/
structure Participant where
  id : Nat
  snapshot : DocumentSnapshot
  deriving DecidableEq, Repr

/-- `GroupMutation` -/
inductive GroupMutation where
  | apply (edits : List (Participant × EditTransaction))
  | undo (group : Nat) (participants : List Participant)
  | redo (group : Nat) (participants : List Participant)

def GroupMutation.participants : GroupMutation → List Participant
  | .apply edits => edits.map Prod.fst
  | .undo _ participants => participants
  | .redo _ participants => participants

/-- The check of one participant. -/
def checkParticipant (documents : Nat → Document) (p : Participant) : Except Error Unit :=
  if w.busy p.id then .error .actorBusy
  else if p.snapshot.complete = false then .error .incompleteSource
  else if (documents p.id).current.documentId ≠ p.snapshot.documentId then .error .wrongDocument
  else if (documents p.id).current.revision ≠ p.snapshot.revision then .error .staleRevision
  else .ok ()

def checkParticipants (documents : Nat → Document) : List Participant → Except Error Unit
  | [] => .ok ()
  | p :: rest =>
    match checkParticipant w documents p with
    | .error e => .error e
    | .ok () => checkParticipants documents rest

/-- Sorted by document id. -/
def sortTargets {α : Type} (id : α → Nat) (targets : List α) : List α :=
  targets.insertionSort fun a b => id a ≤ id b

/-- The `Apply` branch of `run_group`, once the participants are checked. -/
def applyGroup (group : Nat) (documents : Nat → Document)
    (targets : List (Participant × EditTransaction)) :
    Except Error Nat × (Nat → Document) :=
  match stageMembers w documents (targets.map fun target => (target.1.id, target.2)) with
  | .error e => (.error e, documents)
  | .ok members =>
    let pressured := pressured w documents members
    let peers := w.registered.filter fun id => !members.any fun member => member.id == id
    let ids := members.map Member.id ++ if pressured then peers else []
    let relieve := pressured && groupAdmissible w documents ids members
    match admitMembers w relieve ids 2 documents [] members with
    | (.error e, documents) => (.error e, documents)
    | (.ok charged, documents) =>
      groupCommit w (3 * members.length + 2) group documents charged

/-- `run_group`; `group` is the answer of `unique()` for a new group. -/
def runGroup (group : Nat) (documents : Nat → Document) :
    GroupMutation → Except Error Nat × (Nat → Document)
  | .apply edits =>
    let targets := sortTargets (fun target => target.1.id) edits
    match checkParticipants w documents (targets.map Prod.fst) with
    | .error e => (.error e, documents)
    | .ok () => applyGroup w group documents targets
  | .undo expected participants =>
    let targets := sortTargets Participant.id participants
    match checkParticipants w documents targets with
    | .error e => (.error e, documents)
    | .ok () =>
      match moveHistory w documents (targets.map Participant.id) expected false with
      | (.error e, documents) => (.error e, documents)
      | (.ok (), documents) => (.ok expected, documents)
  | .redo expected participants =>
    let targets := sortTargets Participant.id participants
    match checkParticipants w documents targets with
    | .error e => (.error e, documents)
    | .ok () =>
      match moveHistory w documents (targets.map Participant.id) expected true with
      | (.error e, documents) => (.error e, documents)
      | (.ok (), documents) => (.ok expected, documents)

/-- The checks of `submit_group` on the participants' ids. -/
def validGroup (mutation : GroupMutation) : Bool :=
  let ids := (mutation.participants.map Participant.id).insertionSort (· ≤ ·)
  decide (2 ≤ ids.length) && decide (ids.length ≤ MAX_GROUP_DOCUMENTS) &&
    !(ids.zip ids.tail).any fun pair => pair.1 == pair.2

end Admission

end BareLine
