import BareLine.Power.Cuts
import BareLine.Power.Transform
import BareLine.Lib.LineBreaks

/-!
# Editing a rectangle

Text or numbers are put into the rows of a rectangle of display columns, or the rectangle is taken
out of them.  A tab that an edge cuts leaves spaces for its outside columns.
-/

namespace BareLine.Power

open Lib
open Search (Text)
open String (utf8Len)

/-! ## §1 What is put in -/

/-- `Rectangle` -/
structure Rectangle where
  firstLine : Nat
  lastLine : Nat
  startColumn : Nat
  endColumn : Nat
  deriving DecidableEq, Repr

/-- The column of the left edge. -/
def Rectangle.left (rectangle : Rectangle) : Nat := min rectangle.startColumn rectangle.endColumn

/-- The column of the right edge. -/
def Rectangle.right (rectangle : Rectangle) : Nat := max rectangle.startColumn rectangle.endColumn

/-- `ColumnInsert` -/
inductive ColumnInsert where
  | text (s : Text)
  | numbers (start step : Int) (width base repeated : Nat)
  deriving DecidableEq, Repr

/-- `number` -/
def number (value : Int) (base width : Nat) : Except Error Text :=
  if base ∉ [2, 8, 10, 16] then .error .outOfBounds
  else
    let digits := Nat.toDigits base value.natAbs
    .ok ((if value < 0 then ['-'] else []) ++
      (List.replicate (width - digits.length) '0' ++ digits))

/-- A result of `i64` arithmetic that is checked. -/
def checkedI64 (value : Int) : Except Error Int :=
  if -2 ^ 63 ≤ value ∧ value < 2 ^ 63 then .ok value else .error .budgetExceeded

/-- What is put into a row. -/
def ColumnInsert.value (insert : ColumnInsert) (row : Nat) (limits : Limits) : Except Error Text :=
  match insert with
  | .text s => if limits.maxBytes < utf8Len s then .error .budgetExceeded else .ok s
  | .numbers start step width base repeated =>
    if limits.maxBytes < width ∨ limits.maxBytes < repeated then .error .budgetExceeded
    else do
      let row ← checkedI64 row
      let offset ← checkedI64 (step * row)
      let value ← checkedI64 (start + offset)
      let s ← number value base width
      if usizeMax < utf8Len s * repeated ∨ limits.maxBytes < utf8Len s * repeated then
        .error .budgetExceeded
      else pure (List.replicate repeated s).flatten

/-! ## §2 The rows -/

/-- A scalar of a line terminator. -/
def isBreak (c : Char) : Bool := c == '\r' || c == '\n'

/-- `content` -/
def content (text : Text) : Text := text.rdropWhile isBreak

/-- `DocumentSnapshot::line_count` -/
def DocumentSnapshot.lineCount (snapshot : DocumentSnapshot) : Nat :=
  breaks (encode snapshot.text) + 1

/-- The map of a row: one of those that are given, else that of the fallback widths. -/
def rowMap (u : Unicode) (limits : Limits) (maps : Option (Nat → Option DisplayColumnMap)) (n : Nat)
    (body : Text) : Except Error DisplayColumnMap :=
  match maps with
  | none => .ok (DisplayColumnMap.new u body limits.tabWidth)
  | some maps =>
    match maps n with
    | none => .error .outOfBounds
    | some map => .ok map

/-- `body[byte..].starts_with('\t')` -/
def startsWithTab (body : Text) (byte : Nat) : Bool :=
  ((getFrom body byte).bind List.head?) == some '\t'

/-! ## §3 Where a row is cut -/

/-- What is taken out of a row, and the spaces written in front of and behind what is put in. -/
structure RowCut where
  start : Nat
  stop : Nat
  pad : Nat
  suffix : Nat
  deriving DecidableEq, Repr

/-- Where `column_insert_mapped` cuts a row. -/
def insertCut (map : DisplayColumnMap) (body : Text) (left right : Nat) : RowCut :=
  let (a, inside) := map.atColumn left
  let pad := if a < utf8Len body ∧ startsWithTab body a = false then 0 else inside
  let (rightByte, beyond) := map.atColumn right
  -- a tab that the right edge cuts is expanded; any other cluster is snapped as a unit
  if 0 < beyond ∧ rightByte < utf8Len body ∧ startsWithTab body rightByte = true then
    let next := (map.stopAfter rightByte).getD (rightByte, right)
    ⟨a, next.1, pad, next.2 - right⟩
  else if left < right ∧ map.column rightByte < right ∧ rightByte < utf8Len body then
    ⟨a, ((map.stopAfter rightByte).map Prod.fst).getD rightByte, pad, 0⟩
  else ⟨a, rightByte, pad, 0⟩

/-- Where `rectangle_delete_mapped` cuts a row. -/
def deleteCut (map : DisplayColumnMap) (body : Text) (left right : Nat) (backward : Option Bool) :
    RowCut :=
  let next := fun byte => ((map.stopAfter byte).map Prod.fst).getD byte
  let (a, inside) := map.atColumn left
  if utf8Len body ≤ a then
    -- the row ends at or before the column; only Backspace at its exact end removes text
    if backward = some true ∧ inside = 0 ∧ 0 < a ∧ right = left then
      ⟨((map.stopBefore a).map Prod.fst).getD 0, a, 0, 0⟩
    else ⟨utf8Len body, utf8Len body, 0, 0⟩
  else if left < right then
    let pad := if startsWithTab body a = true then inside else 0
    let (b, beyond) := map.atColumn right
    if 0 < beyond ∧ b < utf8Len body ∧ startsWithTab body b = true then
      let stop := (map.stopAfter b).getD (b, right)
      ⟨a, stop.1, pad, stop.2 - right⟩
    else if map.column b < right ∧ b < utf8Len body then ⟨a, next b, pad, 0⟩
    else ⟨a, b, pad, 0⟩
  else
    match backward with
    | none => ⟨a, a, 0, 0⟩
    | some back =>
      -- inside a tab or a wide cluster either key removes that cluster
      if 0 < inside then ⟨a, next a, 0, 0⟩
      else if back then ⟨((map.stopBefore a).map Prod.fst).getD a, a, 0, 0⟩
      else ⟨a, next a, 0, 0⟩

/-! ## §4 The commands -/

/-- The checks of a rectangle. -/
def checkRectangle (snapshot : DocumentSnapshot) (rectangle : Rectangle) (limits : Limits) :
    Except Error Unit :=
  if rectangle.lastLine < rectangle.firstLine ∨ snapshot.lineCount ≤ rectangle.lastLine then
    .error .outOfBounds
  else if limits.maxSelections ≤ rectangle.lastLine - rectangle.firstLine then
    .error .budgetExceeded
  else .ok ()

/-- The rows of a rectangle. -/
def Rectangle.lines (rectangle : Rectangle) : List Nat :=
  List.range' rectangle.firstLine (rectangle.lastLine + 1 - rectangle.firstLine)

/-- The loop of `column_insert_mapped`. -/
def columnInsertFrom (u : Unicode) (snapshot : DocumentSnapshot) (rectangle : Rectangle)
    (insert : ColumnInsert) (limits : Limits) (maps : Option (Nat → Option DisplayColumnMap)) :
    Nat → Nat → List Nat → Except Error (List Edit)
  | _, _, [] => .ok []
  | total, row, n :: lines => do
    let (start, text) ← snapshot.line n limits
    let body := content text
    let map ← rowMap u limits maps n body
    let cut := insertCut map body rectangle.left rectangle.right
    let value ← insert.value row limits
    let total ← charge total cut.pad limits
    let total ← charge total (utf8Len value) limits
    let total ← charge total cut.suffix limits
    let edits ← columnInsertFrom u snapshot rectangle insert limits maps total (row + 1) lines
    pure (⟨⟨start + cut.start, start + cut.stop⟩,
      List.replicate cut.pad ' ' ++ (value ++ List.replicate cut.suffix ' ')⟩ :: edits)

/-- `column_insert_mapped` -/
def columnInsertMapped (u : Unicode) (snapshot : DocumentSnapshot) (rectangle : Rectangle)
    (insert : ColumnInsert) (limits : Limits) (maps : Option (Nat → Option DisplayColumnMap)) :
    Except Error PowerEdit := do
  checkRectangle snapshot rectangle limits
  let edits ← columnInsertFrom u snapshot rectangle insert limits maps 0 0 rectangle.lines
  finish snapshot edits limits

/-- `column_insert` -/
def columnInsert (u : Unicode) (snapshot : DocumentSnapshot) (rectangle : Rectangle)
    (insert : ColumnInsert) (limits : Limits) : Except Error PowerEdit :=
  columnInsertMapped u snapshot rectangle insert limits none

/-- The loop of `rectangle_delete_mapped`: the edits and the carets. -/
def rectangleDeleteFrom (u : Unicode) (snapshot : DocumentSnapshot) (rectangle : Rectangle)
    (backward : Option Bool) (limits : Limits) (maps : Option (Nat → Option DisplayColumnMap)) :
    Nat → Int → List Nat → Except Error (List Edit × List Selection)
  | _, _, [] => .ok ([], [])
  | total, delta, n :: lines => do
    let (start, text) ← snapshot.line n limits
    let body := content text
    let map ← rowMap u limits maps n body
    let cut := deleteCut map body rectangle.left rectangle.right backward
    let moved ← addSigned (start + cut.start) delta
    let caret ← (checkedAdd moved cut.pad).elim (.error .budgetExceeded) .ok
    if cut.start < cut.stop ∨ 0 < cut.pad + cut.suffix then
      let total ← charge total (cut.pad + cut.suffix) limits
      let insert := List.replicate (cut.pad + cut.suffix) ' '
      let (edits, carets) ← rectangleDeleteFrom u snapshot rectangle backward limits maps total
        (delta + (utf8Len insert - (cut.stop - cut.start : Nat))) lines
      pure (⟨⟨start + cut.start, start + cut.stop⟩, insert⟩ :: edits, ⟨caret, caret⟩ :: carets)
    else do
      let (edits, carets) ←
        rectangleDeleteFrom u snapshot rectangle backward limits maps total delta lines
      pure (edits, ⟨caret, caret⟩ :: carets)

/-- `rectangle_delete_mapped` -/
def rectangleDeleteMapped (u : Unicode) (snapshot : DocumentSnapshot) (rectangle : Rectangle)
    (backward : Option Bool) (limits : Limits)
    (maps : Option (Nat → Option DisplayColumnMap)) : Except Error PowerEdit := do
  checkRectangle snapshot rectangle limits
  let (edits, carets) ←
    rectangleDeleteFrom u snapshot rectangle backward limits maps 0 0 rectangle.lines
  let prepared ← finish snapshot edits limits
  pure { prepared with selections := ⟨carets, 0⟩ }

end BareLine.Power
