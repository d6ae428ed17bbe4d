import BareLine.Power.Rows
import BareLine.Power.Selections

/-!
# Transforming the selected text

A command gathers the ranges it works on, rewrites the text of each, turns the rewrites into
edits, and places the selections on the new text.
-/

namespace BareLine.Power

open Lib
open Search (Text)
open String (utf8Len)

/-! ## §1 Where selections land -/

/-- `Placement` -/
inductive Placement where
  | kept
  | whole (sameOffsets : Bool)
  | moved (origin : Nat) (block : MovedBlock)
  | rows (rows : List RowPlacement)
  deriving DecidableEq, Repr

/-- `while !text.is_char_boundary(at) { at -= 1 }` -/
def charDown (text : Text) : Nat → Nat
  | 0 => 0
  | n + 1 => if isScalarBoundary text (n + 1) then n + 1 else charDown text n

/-- `floor_char` -/
def floorChar (text : Text) (offset : Nat) : Nat := charDown text (min offset (utf8Len text))

/-- The offset of a column of a row in the row's output. -/
def RowPlacement.place (row : RowPlacement) (column : Nat) (collapsed : Bool) : Nat :=
  -- a selection from a line start keeps whole lines selected
  if column = 0 ∧ collapsed = false then 0
  else if row.body ≤ column then row.outputBody + (column - row.body)
  else if row.body - row.suffixBytes ≤ column then row.outputBody - (row.body - column)
  else if column ≤ row.prefixBytes then column
  else row.outputBody - row.suffixBytes

namespace Placement

/-- The output offset before it is floored. -/
def offsetOf (placement : Placement) (offset : Nat) (result : Text) (start collapsed : Bool) :
    Nat :=
  match placement with
  | .kept => offset
  | .whole sameOffsets =>
    if collapsed then (if sameOffsets then offset else utf8Len result)
    else if start then 0 else utf8Len result
  | .moved origin block => block.map (offset - origin)
  | .rows placed =>
    match (placed.takeWhile fun row => row.source ≤ offset).getLast? with
    | none => offset
    | some row => row.output + row.place (offset - row.source) collapsed

/-- `Placement::place` -/
def place (placement : Placement) (offset : Nat) (result : Text) (start collapsed : Bool) : Nat :=
  floorChar result (placement.offsetOf offset result start collapsed)

end Placement

/-! ## §2 The ranges -/

/-- A range the command works on, and the selections it covers. -/
structure Target where
  range : Range
  members : List Selection
  deriving DecidableEq, Repr

/-- The last offset a selection touches. -/
def Selection.lastTouched (s : Selection) : Nat :=
  if s.range.start < s.range.stop then s.range.stop - 1 else s.range.stop

/-- The line of that offset, which may lie inside a scalar. -/
def lastLine (u : Unicode) (snapshot : DocumentSnapshot) (limits : Limits) (s : Selection) :
    Except Error Nat :=
  match snapshot.lineAt s.lastTouched with
  | .ok line => .ok line
  | .error _ => do snapshot.lineAt (← snap u snapshot (s.range.stop - 1) limits)

/-- The range of a selection, for a command on lines that of the lines it touches. -/
def targetRange (u : Unicode) (snapshot : DocumentSnapshot) (action : Transform)
    (limits : Limits) (s : Selection) : Except Error Range :=
  if action.linewise then do
    let first ← snapshot.lineAt s.range.start
    let last ← lastLine u snapshot limits s
    let head ← snapshot.lineRange first
    let tail ← snapshot.lineRange last
    pure ⟨head.start, tail.stop⟩
  else pure s.range

/-- The loop that gathers the ranges, behind the last target: one that starts at or before its
end joins it. -/
def gatherFrom : Target → List (Range × Selection) → List Target
  | last, [] => [last]
  | last, (r, s) :: rest =>
    if r.start ≤ last.range.stop then
      gatherFrom ⟨⟨last.range.start, max last.range.stop r.stop⟩, last.members ++ [s]⟩ rest
    else last :: gatherFrom ⟨r, [s]⟩ rest

def gather : List (Range × Selection) → List Target
  | [] => []
  | (r, s) :: rest => gatherFrom ⟨r, [s]⟩ rest

/-- The targets of normalized selections. -/
def targets (u : Unicode) (snapshot : DocumentSnapshot) (action : Transform) (limits : Limits)
    (selections : List Selection) : Except Error (List Target) := do
  let ranges ← selections.mapM (targetRange u snapshot action limits)
  pure (gather (ranges.zip selections))

/-! ## §3 Rewriting a range -/

/-- A range, its text, what is written for it, and where its selections land. -/
structure Rewrite where
  range : Range
  source : Text
  result : Text
  placement : Placement
  deriving DecidableEq, Repr

/-- The default arm: the rows are arranged, rewritten and terminated. -/
def rewriteRows (u : Unicode) (action : Transform) (limits : Limits) (fallbackEol source : Text) :
    Except Error (Text × Placement) := do
  let rows := splitRows source
  let eol := firstEol rows fallbackEol
  let trailing := rows.getLast?.any fun row => !row.2.isEmpty
  let written ← writeRows u action limits eol trailing ⟨[], [], 0⟩ (arrangeRows u action rows)
  pure (written.out, if action.rowLocal then .rows written.placed else .whole false)

/-- The case of a word of `Titlecase`. -/
def titlecaseWord (u : Unicode) : Text → Text
  | [] => []
  | c :: rest => u.toUppercase c ++ u.strToLowercase rest

/-- The case actions. -/
def mapCase (u : Unicode) (action : Transform) (source : Text) : Text :=
  match action with
  | .uppercase => u.strToUppercase source
  | .lowercase => u.strToLowercase source
  | .titlecase => (u.splitWordBounds source).flatMap (titlecaseWord u)
  | .invertCase => source.flatMap fun c => if u.isUppercase c then u.toLowercase c else u.toUppercase c
  | _ => source

/-- What is written for a range, and which range that replaces. -/
def rewrite (u : Unicode) (snapshot : DocumentSnapshot) (action : Transform) (limits : Limits)
    (range : Range) (source : Text) : Except Error Rewrite :=
  let fallbackEol := snapshot.insertionEol
  match action with
  | .moveUp => do
    let first ← snapshot.lineAt range.start
    if 0 < first then
      let (start, previous) ← snapshot.line (first - 1) limits
      let (moved, block) := moveRows source previous false fallbackEol
      pure ⟨⟨start, range.stop⟩, previous ++ source, moved, .moved (range.start - start) block⟩
    else pure ⟨range, source, source, .kept⟩
  | .moveDown => do
    let _first ← snapshot.lineAt range.start
    if range.stop < snapshot.len then
      let next ← snapshot.lineAt range.stop
      let (start, following) ← snapshot.line next limits
      let (moved, block) := moveRows source following true fallbackEol
      pure ⟨⟨range.start, start + utf8Len following⟩, source ++ following, moved, .moved 0 block⟩
    else pure ⟨range, source, source, .kept⟩
  | .duplicateSelections =>
    if limits.maxBytes / 2 < utf8Len source then .error .budgetExceeded
    else pure ⟨range, source, source ++ source, .kept⟩
  | .duplicate =>
    let eol := firstEol (splitRows source) fallbackEol
    let separator := if endsWithEol source then [] else eol
    if utf8Len source * 2 + utf8Len separator ≤ usizeMax ∧
        utf8Len source * 2 + utf8Len separator ≤ limits.maxBytes then
      pure ⟨range, source, source ++ separator ++ source, .kept⟩
    else .error .budgetExceeded
  | .uppercase | .lowercase | .titlecase | .invertCase =>
    pure ⟨range, source, mapCase u action source, .whole false⟩
  | _ => do
    let (result, placement) ← rewriteRows u action limits fallbackEol source
    pure ⟨range, source, result, placement⟩

/-- The placement once the result is known. -/
def settlePlacement (action : Transform) (w : Rewrite) : Placement :=
  match w.placement with
  | .moved origin block => .moved origin block
  | .whole _ =>
    if w.result = w.source then .kept
    else .whole (action.case && decide (utf8Len w.result = utf8Len w.source))
  | placement => if w.result = w.source then .kept else placement

/-! ## §4 The edits -/

/-- `checked_add_signed`; the offsets of a text fit in an `isize`, so their differences do. -/
def addSigned (offset : Nat) (delta : Int) : Except Error Nat :=
  if 0 ≤ offset + delta ∧ offset + delta ≤ usizeMax then .ok (offset + delta).toNat
  else .error .budgetExceeded

/-- The loop of `finish` over the sorted edits: the checks, and the caret behind each edit. -/
def finishFrom (snapshot : DocumentSnapshot) (limits : Limits) :
    Nat → Option Nat → Int → List Edit → Except Error (List Selection)
  | _, _, _, [] => .ok []
  | total, previous, delta, e :: rest =>
    if e.range.stop < e.range.start ∨ snapshot.isBoundary e.range.start = false ∨
        snapshot.isBoundary e.range.stop = false then .error .invalidBoundary
    else if previous.any fun stop => e.range.start < stop then .error .overlappingEdits
    else do
      let total ← charge total (e.range.stop - e.range.start) limits
      let total ← charge total (utf8Len e.insert) limits
      let p ← addSigned e.range.start delta
      if usizeMax < p + utf8Len e.insert then .error .budgetExceeded
      else do
        let carets ← finishFrom snapshot limits total (some e.range.stop)
          (delta + utf8Len e.insert - (e.range.stop - e.range.start : Nat)) rest
        pure (⟨p + utf8Len e.insert, p + utf8Len e.insert⟩ :: carets)

/-- `finish` -/
def finish (snapshot : DocumentSnapshot) (edits : List Edit) (limits : Limits) :
    Except Error PowerEdit :=
  if limits.maxBytes < limits.tabWidth then .error .budgetExceeded
  else if !snapshot.complete then .error .incompleteSource
  else if limits.maxSelections < edits.length then .error .budgetExceeded
  else do
    let edits := edits.insertionSort fun a b => a.range.start ≤ b.range.start
    let carets ← finishFrom snapshot limits 0 none 0 edits
    pure ⟨snapshot.revision, edits, ⟨if carets.isEmpty then [⟨0, 0⟩] else carets, 0⟩⟩

/-! ## §5 The command -/

/-- The edits and the placed selections. -/
structure Output where
  edits : List Edit
  after : List Selection
  deriving DecidableEq, Repr

/-- A selection on the text written for its range. -/
def placeSelection (w : Rewrite) (placement : Placement) (output : Nat) (s : Selection) :
    Selection :=
  let collapsed := decide (s.anchor = s.caret)
  let place := fun offset start =>
    output + placement.place (offset - w.range.start) w.result start collapsed
  ⟨place s.anchor (decide (s.anchor ≤ s.caret)), place s.caret (decide (s.caret < s.anchor))⟩

/-- The edit of a rewrite; an unchanged range is none. -/
def Rewrite.edits (w : Rewrite) : List Edit :=
  if w.result = w.source then [] else [⟨w.range, w.result⟩]

/-- How much the edit of a rewrite moves what is behind it. -/
def Rewrite.shift (w : Rewrite) : Int :=
  if w.result = w.source then 0 else (utf8Len w.result : Int) - utf8Len w.source

/-- The loop of `transform` over the targets: the bytes charged, and how far what is behind the
edits so far moved. -/
def transformFrom (u : Unicode) (snapshot : DocumentSnapshot) (action : Transform)
    (limits : Limits) : Nat → Int → List Target → Except Error Output
  | _, _, [] => .ok ⟨[], []⟩
  | total, delta, target :: rest => do
    let source ← snapshot.readText target.range limits.maxBytes
    let total ← charge total (utf8Len source) limits
    let w ← rewrite u snapshot action limits target.range source
    let total ← charge total (utf8Len w.result) limits
    let output ← addSigned w.range.start delta
    let out ← transformFrom u snapshot action limits total (delta + w.shift) rest
    pure ⟨w.edits ++ out.edits,
      target.members.map (placeSelection w (settlePlacement action w) output) ++ out.after⟩

/-- `transform` -/
def transform (u : Unicode) (snapshot : DocumentSnapshot) (set : SelectionSet)
    (action : Transform) (limits : Limits) : Except Error PowerEdit := do
  let set ← normalizeDirected u snapshot set limits
  let targets ← targets u snapshot action limits set.selections
  let out ← transformFrom u snapshot action limits 0 0 targets
  let prepared ← finish snapshot out.edits limits
  pure { prepared with selections := mergeDirected out.after set.primary }

end BareLine.Power
