import BareLine.Power.Types

/-!
# Rewriting rows

What the line commands do with the rows of a block: put them in another order, drop some,
rewrite each one, and write them out again with terminators; or exchange the block with the
line next to it.
-/

namespace BareLine.Power

open Lib
open Search (Text)
open String (utf8Len)

/-- A row and its terminator. -/
abbrev Row := Text × Text

/-! ## §1 Terminators -/

/-- `strip_one_eol` -/
def stripOneEol (text : Text) : Text :=
  match text.reverse with
  | '\n' :: '\r' :: rest => rest.reverse
  | '\n' :: rest => rest.reverse
  | '\r' :: rest => rest.reverse
  | _ => text

/-- `text.ends_with(['\r', '\n'])` -/
def endsWithEol (text : Text) : Bool :=
  text.getLast?.any fun c => c == '\r' || c == '\n'

/-- The first terminator of some rows, or a fallback. -/
def firstEol (rows : List Row) (fallback : Text) : Text :=
  ((rows.find? fun row => !row.2.isEmpty).map Prod.snd).getD fallback

/-! ## §2 The order of the rows -/

/-- The key of `sort_key`: numbers first by value, then texts. -/
structure SortKey where
  textual : Bool
  bits : Int
  text : Text
  deriving DecidableEq, Repr

/-- The derived order of the key's tuple. -/
def SortKey.le (a b : SortKey) : Prop :=
  (a.textual = false ∧ b.textual = true) ∨ a.textual = b.textual ∧
    (a.bits < b.bits ∨ a.bits = b.bits ∧ a.text ≤ b.text)

instance SortKey.decidableLe (a b : SortKey) : Decidable (a.le b) :=
  inferInstanceAs (Decidable ((a.textual = false ∧ b.textual = true) ∨ a.textual = b.textual ∧
    (a.bits < b.bits ∨ a.bits = b.bits ∧ a.text ≤ b.text)))

/-- `str::trim_start` -/
def trimStart (text : Text) : Text := text.dropWhile isWhitespace

/-- `str::trim_end` -/
def trimEnd (text : Text) : Text := (text.reverse.dropWhile isWhitespace).reverse

/-- `str::trim` -/
def trim (text : Text) : Text := trimEnd (trimStart text)

/-- `sort_key` -/
def sortKey (u : Unicode) (text : Text) (caseSensitive numeric : Bool) : SortKey :=
  let folded := if caseSensitive then text else u.strToLowercase text
  match if numeric then u.number (trim folded) else none with
  | some bits => ⟨false, bits, folded⟩
  | none => ⟨true, 0, folded⟩

/-- `rows.retain(|(s, _)| seen.insert(*s))` -/
def retainFirst : List Text → List Row → List Row
  | _, [] => []
  | seen, row :: rows =>
    if row.1 ∈ seen then retainFirst seen rows else row :: retainFirst (row.1 :: seen) rows

/-- `rows.dedup_by(|a, b| a.0 == b.0)`, behind a row that was retained. -/
def dedupFrom : Row → List Row → List Row
  | _, [] => []
  | last, row :: rows => if row.1 = last.1 then dedupFrom last rows else row :: dedupFrom row rows

def dedupRows : List Row → List Row
  | [] => []
  | row :: rows => row :: dedupFrom row rows

/-- The rows in the order the action writes them, without those it drops; the sort is stable. -/
def arrangeRows (u : Unicode) (action : Transform) (rows : List Row) : List Row :=
  match action with
  | .sort descending caseSensitive numeric =>
    let key := fun row : Row => sortKey u row.1 caseSensitive numeric
    let sorted := rows.insertionSort fun a b => (key a).le (key b)
    if descending then sorted.reverse else sorted
  | .removeDuplicates => retainFirst [] rows
  | .removeConsecutiveDuplicates => dedupRows rows
  | .removeEmpty => rows.filter fun row => !row.1.isEmpty
  | .removeBlank => rows.filter fun row => !(trim row.1).isEmpty
  | _ => rows

/-! ## §3 One row -/

/-- The loop of `TabsToSpaces` over the clusters of a row. -/
def tabsToSpacesFrom (u : Unicode) (limits : Limits) :
    Text → Nat → List Text → Except Error Text
  | out, _, [] => .ok out
  | out, col, g :: clusters =>
    if g = ['\t'] then
      let n := max limits.tabWidth 1 - col % max limits.tabWidth 1
      if limits.maxBytes < utf8Len out + n then .error .budgetExceeded
      else tabsToSpacesFrom u limits (out ++ List.replicate n ' ') (col + n) clusters
    else tabsToSpacesFrom u limits (out ++ g) (col + u.displayColumn g limits.tabWidth) clusters

/-- The loop of `SpacesToTabs` that writes the spaces counted so far; each turn writes one. -/
def flushSpaces (width : Nat) : Nat → Text → Nat → Nat → Text × Nat
  | 0, out, col, _ => (out, col)
  | fuel + 1, out, col, spaces =>
    if spaces = 0 then (out, col)
    else
      let n := width - col % width
      if n ≤ spaces ∧ 1 < n then flushSpaces width fuel (out ++ ['\t']) (col + n) (spaces - n)
      else flushSpaces width fuel (out ++ [' ']) (col + 1) (spaces - 1)

/-- The loop of `SpacesToTabs` over the clusters of a row. -/
def spacesToTabsFrom (u : Unicode) (width : Nat) : Text → Nat → Nat → List Text → Text
  | out, _, _, [] => out
  | out, col, spaces, g :: clusters =>
    if g = [' '] then spacesToTabsFrom u width out col (spaces + 1) clusters
    else
      let (out, col) := flushSpaces width spaces out col spaces
      spacesToTabsFrom u width (out ++ g)
        (col + if g = ['\t'] then width - col % width else u.displayColumn g width) 0 clusters

/-- The loop of `Split` over the clusters of a row. -/
def splitFrom (column : Nat) (eol : Text) : Text → Nat → List Text → Text
  | out, _, [] => out
  | out, n, g :: clusters =>
    let out := if 0 < n ∧ n % max column 1 = 0 then out ++ eol else out
    splitFrom column eol (out ++ g) (n + 1) clusters

/-- `Unindent` -/
def unindent (tabWidth : Nat) (body : Text) : Text :=
  match body with
  | '\t' :: rest => rest
  | _ => body.drop ((body.take tabWidth).takeWhile (· == ' ')).length

/-- What the action writes for a row. -/
def rewriteRow (u : Unicode) (action : Transform) (limits : Limits) (eol body : Text) :
    Except Error Text :=
  match action with
  | .trimStart => .ok (trimStart body)
  | .trimEnd => .ok (trimEnd body)
  | .trim => .ok (trim body)
  | .indent => .ok (List.replicate (min limits.tabWidth limits.maxBytes) ' ' ++ body)
  | .unindent => .ok (unindent limits.tabWidth body)
  | .tabsToSpaces => tabsToSpacesFrom u limits [] 0 (u.graphemes body)
  | .spacesToTabs =>
    .ok (spacesToTabsFrom u (max limits.tabWidth 1) [] 0 0 (u.graphemes body ++ [[]]))
  | .split column => .ok (splitFrom column eol [] 0 (u.graphemes body))
  | _ => .ok body

/-! ## §4 Moving a block -/

/-- `MovedBlock` -/
structure MovedBlock where
  start : Nat
  body : Nat
  eol : Nat
  deriving DecidableEq, Repr

/-- `MovedBlock::map` -/
def MovedBlock.map (block : MovedBlock) (offset : Nat) : Nat :=
  block.start + if offset ≤ block.body then offset else block.body + block.eol

/-- `move_rows` -/
def moveRows (selected neighbor : Text) (down : Bool) (fallbackEol : Text) : Text × MovedBlock :=
  let eol := firstEol (splitRows selected ++ splitRows neighbor) fallbackEol
  let trailing := if down then endsWithEol neighbor else endsWithEol selected
  let (a, b) := if down then (neighbor, selected) else (selected, neighbor)
  let text := stripOneEol a ++ eol ++ stripOneEol b ++ (if trailing then eol else [])
  let body := utf8Len (stripOneEol selected)
  let block : MovedBlock :=
    if down then
      ⟨utf8Len (stripOneEol neighbor) + utf8Len eol, body, if trailing then utf8Len eol else 0⟩
    else ⟨0, body, utf8Len eol⟩
  (text, block)

/-! ## §5 Writing the rows -/

/-- `RowPlacement` -/
structure RowPlacement where
  source : Nat
  body : Nat
  output : Nat
  outputBody : Nat
  prefixBytes : Nat
  suffixBytes : Nat
  deriving DecidableEq, Repr

/-- The length of the longest common front of two byte strings. -/
def commonFront : List UInt8 → List UInt8 → Nat
  | x :: xs, y :: ys => if x = y then commonFront xs ys + 1 else 0
  | _, _ => 0

/-- `while !(a.is_char_boundary(n) && b.is_char_boundary(n)) { n -= 1 }` -/
def frontDown (a b : Text) : Nat → Nat
  | 0 => 0
  | n + 1 =>
    if isScalarBoundary a (n + 1) && isScalarBoundary b (n + 1) then n + 1 else frontDown a b n

/-- The same loop for a number of bytes at the ends of the two texts. -/
def backDown (a b : Text) : Nat → Nat
  | 0 => 0
  | n + 1 =>
    if isScalarBoundary a (utf8Len a - (n + 1)) && isScalarBoundary b (utf8Len b - (n + 1)) then
      n + 1
    else backDown a b n

/-- `common_affixes` -/
def commonAffixes (a b : Text) : Nat × Nat :=
  let (x, y) := (encode a, encode b)
  let front := frontDown a b (commonFront x y)
  let limit := min x.length y.length - front
  (front, backDown a b (commonFront (x.reverse.take limit) (y.reverse.take limit)))

/-- The terminator the action writes behind a row. -/
def rowEnding (action : Transform) (eol ending : Text) (more trailing : Bool) : Text :=
  match action with
  | .join => if more then [' '] else ending
  | .sort .. | .removeDuplicates | .removeConsecutiveDuplicates | .removeEmpty | .removeBlank =>
    if more || trailing then eol else []
  | _ => ending

/-- What is written for the rows so far, and where their texts landed. -/
structure Written where
  out : Text
  placed : List RowPlacement
  sourceRow : Nat
  deriving DecidableEq, Repr

/-- The loop over the rows. -/
def writeRows (u : Unicode) (action : Transform) (limits : Limits) (eol : Text) (trailing : Bool) :
    Written → List Row → Except Error Written
  | written, [] => .ok written
  | written, (row, ending) :: rows => do
    let body ← rewriteRow u action limits eol row
    let written :=
      if action.rowLocal then
        let (front, back) := commonAffixes row body
        { written with
          placed := written.placed ++ [⟨written.sourceRow, utf8Len row, utf8Len written.out,
            utf8Len body, front, back⟩]
          sourceRow := written.sourceRow + utf8Len row + utf8Len ending }
      else written
    let out := written.out ++ body ++ rowEnding action eol ending (!rows.isEmpty) trailing
    if limits.maxBytes < utf8Len out then .error .budgetExceeded
    else writeRows u action limits eol trailing { written with out } rows

end BareLine.Power
