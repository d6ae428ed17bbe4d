import BareLine.Lib.Splice
import BareLine.Tree.Text

/-!
# The resident document

The state of a `Document`: the current snapshot, the undo and redo stacks and the history
policy.  The budgets, the allocator and the threads that share them are not part of that
state; what one call sees of them is an `Env`, and every operation is a function of the
environment, the document and its arguments.

- `Env` answers for the byte budget exactly: `bytesUsed` counts the segments the
  document's own roots keep alive, once each, next to everything held elsewhere.
- The history budget and the `Arc` counts are answers the environment gives, since peers
  and worker threads change them between any two steps.
-/

namespace BareLine

open Lib BareLine.Tree

/-! ## §1 Transactions and receipts -/

/-- `Edit`: replace the bytes of a range. -/
structure Edit where
  range : Range
  insert : Bytes
  deriving DecidableEq, Repr

/-- The splice an edit asks for. -/
def Edit.toSplice (e : Edit) : Splice UInt8 := ⟨e.range.start, e.range.stop, e.insert⟩

structure EditTransaction where
  baseRevision : Nat
  edits : List Edit
  deriving DecidableEq, Repr

inductive ChangeDirection where
  | edit
  | undo
  | redo
  deriving DecidableEq, Repr

structure CompactEdit where
  before : Range
  insertedLen : Nat
  deriving DecidableEq, Repr

/-- `AppliedChange`: the acknowledged transition, without its text. -/
structure AppliedChange where
  documentId : Nat
  beforeRevision : Nat
  afterRevision : Nat
  beforeState : Nat
  afterState : Nat
  direction : ChangeDirection
  edits : List CompactEdit
  deriving DecidableEq, Repr

/-- The receipt's edits are sorted and disjoint in `t`, and some texts of the listed
lengths make it a batch that turns `t` into `u`. -/
def AppliedChange.Gives (change : AppliedChange) (t u : Bytes) : Prop :=
  ∃ texts : List Bytes, texts.map List.length = change.edits.map CompactEdit.insertedLen ∧
    let es := change.edits.zipWith (fun e text => (⟨e.before.start, e.before.stop, text⟩ :
      Splice UInt8)) texts
    Ordered 0 es t.length ∧ splice es t = u

/-! ## §2 Selections and history policy -/

structure Selection where
  anchor : Nat
  caret : Nat
  deriving DecidableEq, Repr

/-- `EditOrigin`; `command` is the default. -/
inductive EditOrigin where
  | typing
  | paste
  | macroRun
  | multiCursor
  | replaceAll
  | extension
  | command
  deriving DecidableEq, Repr

def MAX_SELECTIONS : Nat := 1024

structure EditMetadata where
  before : List Selection
  after : List Selection
  origin : EditOrigin
  boundary : Nat
  monotonicMs : Nat
  deriving DecidableEq, Repr

namespace EditMetadata

def default : EditMetadata := ⟨[], [], .command, 0, 0⟩

/-- `EditMetadata::validate` -/
def validate (m : EditMetadata) (beforeLen afterLen : Nat) : Except Error Unit :=
  if m.before.length > MAX_SELECTIONS ∨ m.after.length > MAX_SELECTIONS then
    .error .budgetExceeded
  else if m.before.any (fun s => decide (s.anchor > beforeLen ∨ s.caret > beforeLen)) ||
      m.after.any (fun s => decide (s.anchor > afterLen ∨ s.caret > afterLen)) then
    .error .outOfBounds
  else .ok ()

/-- `EditMetadata::follows`: `m` continues the typing run that ended with `previous`. -/
def follows (m previous : EditMetadata) (interval : Nat) : Bool :=
  m.origin == .typing && previous.origin == .typing && m.before.length == 1 &&
    m.after.length == 1 && previous.after == m.before && m.boundary == previous.boundary &&
    (decide (previous.monotonicMs ≤ m.monotonicMs) &&
      decide (m.monotonicMs - previous.monotonicMs ≤ interval))

end EditMetadata

structure HistoryPolicy where
  maxChanges : Nat
  typingIntervalMs : Nat
  deriving DecidableEq, Repr

def HistoryPolicy.default : HistoryPolicy := ⟨100000, 1000⟩

/-- `DocumentMetadata`: the sorted entries of its map. -/
structure DocumentMetadata where
  values : List (String × String)
  deriving DecidableEq, Repr

namespace DocumentMetadata

def default : DocumentMetadata := ⟨[]⟩

/-- `DocumentMetadata::charge` -/
def charge (m : DocumentMetadata) : Nat :=
  (m.values.map fun (key, value) => key.utf8ByteSize + value.utf8ByteSize + 128).sum

end DocumentMetadata

/-! ## §3 History entries and stacks -/

/-- `OwnedEdit`: the replaced text (`inverse`) at `beforeRange` of the text before the
edit, and the new text (`inserted`) at `afterRange` of the text after it. -/
structure OwnedEdit where
  beforeRange : Range
  afterRange : Range
  inverse : Root
  inserted : Root
  deriving DecidableEq, Repr

/-- `GroupTag`; `linked` is the flag its members share. -/
structure GroupTag where
  id : Nat
  members : List Nat
  linked : Bool
  deriving DecidableEq, Repr

/-- `History`: one undo step.  `undoReservation` and `structureCharge` are the bytes of
its claims on the history budget. -/
structure History where
  beforeMetadata : DocumentMetadata
  afterMetadata : DocumentMetadata
  before : Root
  after : Root
  beforeState : Nat
  afterState : Nat
  undoReservation : List Nat
  structureCharge : Option Nat
  sequence : Nat
  edits : List OwnedEdit
  group : Option GroupTag
  metadata : EditMetadata
  typingInsert : Bool
  deriving DecidableEq, Repr

/-- `HistoryStack`: its entries, oldest first, and the slots it was charged for. -/
structure HistoryStack where
  entries : List History
  capacity : Nat
  deriving DecidableEq, Repr

namespace HistoryStack

def empty : HistoryStack := ⟨[], 0⟩

/-- `HistoryStack::growth_bytes` for slots of `size` bytes. -/
def growthBytes (stack : HistoryStack) (size additional : Nat) : Nat :=
  let requested := saturatingAdd stack.entries.length additional
  if requested ≤ stack.capacity then 0
  else saturatingMul (max (max requested (saturatingMul stack.capacity 2)) 1) size

/-- `HistoryStack::try_reserve_exact`: the new allocation is charged while the old one is
still held, and the allocator grants exactly what is asked for. -/
def tryReserve (stack : HistoryStack) (size available additional : Nat) :
    Except Error HistoryStack :=
  match checkedAdd stack.entries.length additional with
  | none => .error .budgetExceeded
  | some requested =>
    if requested ≤ stack.capacity then .ok stack
    else match checkedMul stack.capacity 2 with
      | none => .error .budgetExceeded
      | some doubled =>
        let requested := max (max requested doubled) 1
        match checkedMul requested size with
        | none => .error .budgetExceeded
        | some bytes =>
          if bytes ≤ available then .ok { stack with capacity := requested }
          else .error .budgetExceeded

/-- `HistoryStack::push`: an entry no slot was admitted for is dropped. -/
def push (stack : HistoryStack) (entry : History) : HistoryStack :=
  if stack.entries.length < stack.capacity then
    { stack with entries := stack.entries ++ [entry] }
  else stack

/-- `HistoryStack::clear`; the slots stay charged. -/
def clear (stack : HistoryStack) : HistoryStack := { stack with entries := [] }

/-- `drain(..n)`: drop the `n` oldest entries. -/
def drain (stack : HistoryStack) (n : Nat) : HistoryStack :=
  { stack with entries := stack.entries.drop n }

@[simp] theorem clear_entries (stack : HistoryStack) : stack.clear.entries = [] := rfl

@[simp] theorem drain_entries (stack : HistoryStack) (n : Nat) :
    (stack.drain n).entries = stack.entries.drop n := rfl

@[simp] theorem drain_capacity (stack : HistoryStack) (n : Nat) :
    (stack.drain n).capacity = stack.capacity := rfl

/-- A slot admitted for one more entry is there. -/
theorem tryReserve_ok {stack stack' : HistoryStack} {size available : Nat}
    (h : stack.tryReserve size available 1 = .ok stack') :
    stack'.entries = stack.entries ∧ stack'.entries.length < stack'.capacity := by
  rw [tryReserve] at h
  cases hreq : checkedAdd stack.entries.length 1 with
  | none => simp [hreq] at h
  | some requested =>
    obtain ⟨-, rfl⟩ := checkedAdd_eq_some.mp hreq
    simp only [hreq] at h
    split_ifs at h with hle
    · obtain rfl := Except.ok.inj h
      exact ⟨rfl, hle⟩
    · cases hdbl : checkedMul stack.capacity 2 with
      | none => simp [hdbl] at h
      | some doubled =>
        simp only [hdbl] at h
        cases hbytes : checkedMul (max (max (stack.entries.length + 1) doubled) 1) size with
        | none => rw [hbytes] at h; cases h
        | some bytes =>
          rw [hbytes] at h
          dsimp only at h
          split_ifs at h
          obtain rfl := Except.ok.inj h
          exact ⟨rfl, by simp only; omega⟩

theorem push_entries {stack : HistoryStack} (h : stack.entries.length < stack.capacity)
    (entry : History) : (stack.push entry).entries = stack.entries ++ [entry] := by
  rw [push, if_pos h]

end HistoryStack

/-! ## §4 The document -/

structure DocumentSnapshot where
  appliedChange : Option AppliedChange
  metadata : DocumentMetadata
  root : Root
  revision : Nat
  contentState : Nat
  documentId : Nat
  complete : Bool
  deriving DecidableEq, Repr

namespace DocumentSnapshot

/-- `DocumentSnapshot::len` -/
def len (s : DocumentSnapshot) : Nat := (summary s.root).bytes

/-- The text of a snapshot. -/
def text (s : DocumentSnapshot) : Bytes := Tree.text s.root

/-- `DocumentSnapshot::is_boundary` -/
def isBoundary (s : DocumentSnapshot) (offset : Nat) : Bool :=
  decide (offset ≤ s.len) && boundary s.root offset

/-- `DocumentSnapshot::validate_range` -/
def validateRange (s : DocumentSnapshot) (range : Range) : Except Error Unit :=
  if range.start > range.stop ∨ range.stop > s.len then .error .outOfBounds
  else if s.isBoundary range.start && s.isBoundary range.stop then .ok ()
  else .error .invalidBoundary

end DocumentSnapshot

structure Document where
  current : DocumentSnapshot
  savedState : Nat
  historyPolicy : HistoryPolicy
  undo : HistoryStack
  redo : HistoryStack
  lastMerged : Bool
  lastUntracked : Bool
  deriving DecidableEq, Repr

/-- `Revision(u64)` runs out at `u64::MAX`. -/
def Document.nextRevision (d : Document) : Except Error Nat :=
  if d.current.revision + 1 < 2 ^ 64 then .ok (d.current.revision + 1)
  else .error .revisionOverflow

/-! ## §5 The environment -/

/-- `std::mem::size_of` of the types whose sizes are charged. -/
structure Layout where
  usize : Nat
  compactEdit : Nat
  appliedChange : Nat
  ownedEdit : Nat
  selection : Nat
  history : Nat
  node : Nat
  deriving DecidableEq, Repr

/-- What one call on a document sees of the rest of the process. -/
structure Env where
  layout : Layout
  /-- `Budget::limit` of the byte budget. -/
  bytesLimit : Nat
  /-- Byte claims nothing of this document alone keeps alive. -/
  otherBytes : Nat
  /-- Segments that something outside this document holds as well; `otherBytes` counts
  them. -/
  pinned : Nat → Bool
  /-- `Arc::strong_count` of a segment, while the document is in the given state. -/
  strongCount : Document → Nat → Nat
  /-- `Budget::available` of the history budget in the given state. -/
  historyAvailable : Document → Nat
  /-- Whether a spilled copy shares the claims of an entry. -/
  chargeShared : History → Bool
  /-- The answers of `unique()` for a new content state and a new history entry. -/
  contentState : Nat
  sequence : Nat
  /-- Address of the next segment. -/
  nextSegment : Nat

/-- The owned segments below a node. -/
def Tree.Node.segments : Node → List Segment
  | .leaf piece => [piece.segment]
  | .branch left right _ _ => left.segments ++ right.segments
  | _ => []

/-- Every root the entry holds. -/
def History.roots (e : History) : List Root :=
  e.before :: e.after :: e.edits.flatMap fun edit => [edit.inverse, edit.inserted]

namespace Document

/-- Every root the document holds. -/
def roots (d : Document) : List Root :=
  d.current.root :: (d.undo.entries ++ d.redo.entries).flatMap History.roots

/-- One segment for each address. -/
def distinctSegments : List Segment → List Segment
  | [] => []
  | s :: rest =>
    if rest.any (·.id == s.id) then distinctSegments rest else s :: distinctSegments rest

/-- Bytes of the segments only this document keeps alive. -/
def ownText (env : Env) (d : Document) : Nat :=
  let segments := distinctSegments (d.roots.flatMap fun root => root.elim [] Node.segments)
  ((segments.filter fun s => !env.pinned s.id).map fun s => s.text.length).sum

end Document

/-- `AppliedChange::charged_bytes` -/
def AppliedChange.chargedBytes (sizes : Layout) (change : AppliedChange) : Nat :=
  change.edits.length * sizes.compactEdit + sizes.appliedChange + 2 * sizes.usize

namespace Env

/-- `Budget::used` of the byte budget. -/
def bytesUsed (env : Env) (d : Document) : Nat :=
  env.otherBytes + d.ownText env +
    d.current.appliedChange.elim 0 (AppliedChange.chargedBytes env.layout)

/-- The byte budget and the allocator as a call on `d` finds them. -/
def heap (env : Env) (d : Document) : Heap :=
  ⟨env.bytesLimit, env.bytesUsed d, env.nextSegment⟩

end Env

end BareLine
