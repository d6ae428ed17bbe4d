import BareLine.Search.Snapshot
import BareLine.Lib.Images

/-!
# Power edits

Selections, commands and prepared edits of the editor surface, over a complete snapshot whose
text is its scalars.  What the crate takes from Unicode tables and from the segmentation crate
is one record, with what their documentation promises.
-/

namespace BareLine.Power

open Lib
open Search (Text slice)
open String (utf8Len)

/-! ## §1 Selections and edits -/

/-- `Selection` -/
structure Selection where
  anchor : Nat
  caret : Nat
  deriving DecidableEq, Repr

/-- `Selection::range` -/
def Selection.range (s : Selection) : Range := ⟨min s.anchor s.caret, max s.anchor s.caret⟩

/-- `SelectionSet` -/
structure SelectionSet where
  selections : List Selection
  primary : Nat
  deriving DecidableEq, Repr

/-- `Limits` -/
structure Limits where
  maxBytes : Nat
  maxSelections : Nat
  tabWidth : Nat
  deriving DecidableEq, Repr

/-- `Edit` -/
structure Edit where
  range : Range
  insert : Text
  deriving DecidableEq, Repr

/-- `PowerEdit`, the transaction by its revision and its edits. -/
structure PowerEdit where
  baseRevision : Nat
  edits : List Edit
  selections : SelectionSet
  deriving DecidableEq, Repr

/-- `Transform` -/
inductive Transform where
  | uppercase
  | lowercase
  | titlecase
  | invertCase
  | trimStart
  | trimEnd
  | trim
  | indent
  | unindent
  | tabsToSpaces
  | spacesToTabs
  | duplicate
  | duplicateSelections
  | moveUp
  | moveDown
  | join
  | split (column : Nat)
  | sort (descending caseSensitive numeric : Bool)
  | removeDuplicates
  | removeConsecutiveDuplicates
  | removeEmpty
  | removeBlank
  deriving DecidableEq, Repr

/-- The action maps the case of what is selected. -/
def Transform.case : Transform → Bool
  | .uppercase | .lowercase | .titlecase | .invertCase => true
  | _ => false

/-- The action works on whole lines. -/
def Transform.linewise (action : Transform) : Bool :=
  !action.case && decide (action ≠ .duplicateSelections)

/-- The action rewrites each row in its place. -/
def Transform.rowLocal : Transform → Bool
  | .trimStart | .trimEnd | .trim | .indent | .unindent | .tabsToSpaces | .spacesToTabs => true
  | _ => false

/-- `charge` -/
def charge (total n : Nat) (limits : Limits) : Except Error Nat :=
  if total + n ≤ usizeMax ∧ total + n ≤ limits.maxBytes then .ok (total + n)
  else .error .budgetExceeded

/-! ## §2 Unicode -/

/-- The Unicode tables of the standard library, the segmentation crate, the columns of the
surface's display, and parsing of a number (the number as its total-order bits).  `seek` is what
the loops over a grapheme cursor find: the last cluster boundary at or before an offset. -/
structure Unicode where
  toUppercase : Char → Text
  toLowercase : Char → Text
  isUppercase : Char → Bool
  isCased : Char → Bool
  isCaseIgnorable : Char → Bool
  number : Text → Option Int
  graphemes : Text → List Text
  splitWordBounds : Text → List Text
  displayColumn : Text → Nat → Nat
  seek : Text → Nat → Limits → Except Error Nat
  graphemes_flatten : ∀ text, (graphemes text).flatten = text
  seek_boundary : ∀ text offset limits found, seek text offset limits = .ok found →
    found ≤ offset ∧ isScalarBoundary text found = true
  /-- Clusters break around CR and LF, but between the two. -/
  seek_line : ∀ text offset limits found, seek text offset limits = .ok found →
    ∀ c ∈ slice text ⟨found, offset⟩, (c = '\r' ∨ c = '\n') →
      slice text ⟨found, offset⟩ = ['\r'] ∧ (getFrom text offset).bind List.head? = some '\n'
  /-- They never break between the two. -/
  seek_pair : ∀ before after offset limits, seek (before ++ after) offset limits =
    .ok (utf8Len before) → ¬(before.getLast? = some '\r' ∧ after.head? = some '\n')

/-- `char::is_whitespace` -/
def isWhitespace (c : Char) : Bool :=
  (9 ≤ c.toNat && c.toNat ≤ 13) || c.toNat == 0x20 || c.toNat == 0x85 || c.toNat == 0xA0 ||
    c.toNat == 0x1680 || (0x2000 ≤ c.toNat && c.toNat ≤ 0x200A) || c.toNat == 0x2028 ||
    c.toNat == 0x2029 || c.toNat == 0x202F || c.toNat == 0x205F || c.toNat == 0x3000

namespace Unicode

variable (u : Unicode)

/-- `case_ignorable_then_cased` -/
def caseIgnorableThenCased (text : Text) : Bool :=
  (text.dropWhile u.isCaseIgnorable).head?.any u.isCased

/-- `map_uppercase_sigma`: a sigma that ends a word has its own form. -/
def mapUppercaseSigma (before after : Text) : Char :=
  if u.caseIgnorableThenCased before.reverse && !u.caseIgnorableThenCased after then 'ς' else 'σ'

/-- The loop of `str::to_lowercase` behind `done`. -/
def lowercaseFrom : Text → Text → Text
  | _, [] => []
  | done, c :: rest =>
    (if c = 'Σ' then [u.mapUppercaseSigma done rest] else u.toLowercase c) ++
      lowercaseFrom (done ++ [c]) rest

/-- `str::to_lowercase` -/
def strToLowercase (text : Text) : Text := u.lowercaseFrom [] text

/-- `str::to_uppercase` -/
def strToUppercase (text : Text) : Text := text.flatMap u.toUppercase

end Unicode

/-! ## §3 The snapshot -/

/-- `split_rows`, with the scalars of the row that is open: each row and its terminator. -/
def splitRowsFrom : Text → Text → List (Text × Text)
  | body, [] => if body.isEmpty then [] else [(body, [])]
  | body, '\r' :: '\n' :: rest => (body, ['\r', '\n']) :: splitRowsFrom [] rest
  | body, '\r' :: rest => (body, ['\r']) :: splitRowsFrom [] rest
  | body, '\n' :: rest => (body, ['\n']) :: splitRowsFrom [] rest
  | body, c :: rest => splitRowsFrom (body ++ [c]) rest

/-- `split_rows` -/
def splitRows (text : Text) : List (Text × Text) := splitRowsFrom [] text

/-- `DocumentSnapshot` with the metadata `file.new_document_eol`. -/
structure DocumentSnapshot extends Search.DocumentSnapshot where
  newDocumentEol : Option Text
  deriving DecidableEq, Repr

namespace DocumentSnapshot

variable (snapshot : DocumentSnapshot)

/-- The rows that end with a terminator. -/
def countEol (eol : Text) : Nat := (splitRows snapshot.text).countP fun row => row.2 == eol

/-- `insertion_eol` -/
def insertionEol : Text :=
  let cr := snapshot.countEol ['\r']
  let lf := snapshot.countEol ['\n']
  let crlf := snapshot.countEol ['\r', '\n']
  match decide (0 < cr), decide (0 < lf), decide (0 < crlf) with
  | false, false, false =>
    if snapshot.newDocumentEol = some ['c', 'r', 'l', 'f'] then ['\r', '\n']
    else if snapshot.newDocumentEol = some ['c', 'r'] then ['\r']
    else ['\n']
  | false, true, false => ['\n']
  | true, false, false => ['\r']
  | false, false, true => ['\r', '\n']
  | _, _, _ =>
    if lf ≤ crlf ∧ cr ≤ crlf then ['\r', '\n'] else if cr ≤ lf then ['\n'] else ['\r']

/-- `read` -/
def readText (range : Range) (maxBytes : Nat) : Except Error Text :=
  match snapshot.chunks range with
  | none =>
    if range.stop < range.start ∨ snapshot.len < range.stop then .error .outOfBounds
    else .error .invalidBoundary
  | some chunks =>
    if maxBytes < range.stop - range.start then .error .budgetExceeded else .ok chunks.flatten

/-- `line_at` -/
def lineAt (offset : Nat) : Except Error Nat :=
  if snapshot.len < offset then .error .outOfBounds
  else if snapshot.isBoundary offset then .ok (Lib.lineAt (encode snapshot.text) offset)
  else .error .invalidBoundary

/-- `line_start` -/
def lineStart (line : Nat) : Option Nat :=
  if line = 0 then some 0
  else (List.range (snapshot.len + 1)).find? fun offset =>
    endsLine (encode snapshot.text) offset && Lib.lineAt (encode snapshot.text) offset == line

/-- `line_range` -/
def lineRange (line : Nat) : Except Error Range :=
  match snapshot.lineStart line with
  | none => .error .outOfBounds
  | some start => .ok ⟨start, (snapshot.lineStart (line + 1)).getD snapshot.len⟩

/-- `line`: where a line starts, and its text. -/
def line (number : Nat) (limits : Limits) : Except Error (Nat × Text) := do
  let range ← snapshot.lineRange number
  let text ← snapshot.readText range limits.maxBytes
  pure (range.start, text)

end DocumentSnapshot

/-! ## §4 Unicode of ASCII texts -/

/-- The clusters of an ASCII text: CR LF is one, every other scalar one of its own. -/
def asciiClusters : Text → List Text
  | [] => []
  | '\r' :: '\n' :: rest => ['\r', '\n'] :: asciiClusters rest
  | c :: rest => [c] :: asciiClusters rest

theorem asciiClusters_flatten (text : Text) : (asciiClusters text).flatten = text := by
  fun_induction asciiClusters text with
  | case1 => rfl
  | case2 rest ih => rw [List.flatten_cons, ih]; rfl
  | case3 c rest _ ih => rw [List.flatten_cons, ih]; rfl

/-- The cluster boundary at or before an offset of an ASCII text. -/
def asciiSeek (text : Text) (offset : Nat) : Except Error Nat :=
  match splitAtByte text offset with
  | none => .error .invalidBoundary
  | some (before, after) =>
    if before.getLast? = some '\r' ∧ after.head? = some '\n' then .ok (utf8Len before.dropLast)
    else .ok offset

theorem asciiSeek_spec {text : Text} {offset found : Nat} (h : asciiSeek text offset = .ok found) :
    ∃ before part after, text = before ++ (part ++ after) ∧ found = utf8Len before ∧
      offset = utf8Len before + utf8Len part ∧
      (part = [] ∧ ¬(before.getLast? = some '\r' ∧ after.head? = some '\n') ∨
        part = ['\r'] ∧ after.head? = some '\n') := by
  rw [asciiSeek] at h
  split at h
  · exact nomatch h
  · rename_i before after hsplit
    obtain ⟨rfl, rfl⟩ := splitAtByte_eq_some.mp hsplit
    split at h
    · rename_i hpair
      obtain rfl := Except.ok.inj h
      obtain ⟨init, rfl⟩ := List.getLast?_eq_some_iff.mp hpair.1
      exact ⟨init, ['\r'], after, by simp, by simp, by simp, .inr ⟨rfl, hpair.2⟩⟩
    · rename_i hpair
      obtain rfl := Except.ok.inj h
      exact ⟨before, [], after, rfl, rfl, rfl, .inl ⟨rfl, hpair⟩⟩

/-- Unicode as far as ASCII texts need it that hold no numbers and whose words nobody asks for. -/
def ascii : Unicode where
  toUppercase c := [c.toUpper]
  toLowercase c := [c.toLower]
  isUppercase c := c.isUpper
  isCased c := c.isAlpha
  isCaseIgnorable c := c.toNat ∈ [0x27, 0x2E, 0x3A, 0x5E, 0x60]
  number _ := none
  graphemes := asciiClusters
  splitWordBounds text := [text]
  displayColumn _ _ := 1
  seek text offset _ := asciiSeek text offset
  graphemes_flatten := asciiClusters_flatten
  seek_boundary text offset _ found h := by
    obtain ⟨before, part, after, rfl, rfl, rfl, -⟩ := asciiSeek_spec h
    exact ⟨Nat.le_add_right _ _, isScalarBoundary_iff.mpr ⟨before, part ++ after, rfl, rfl⟩⟩
  seek_line text offset _ found h c hc _ := by
    obtain ⟨before, part, after, rfl, rfl, rfl, hpart⟩ := asciiSeek_spec h
    rw [Search.slice_parts] at hc ⊢
    rcases hpart with ⟨rfl, -⟩ | ⟨rfl, hnext⟩
    · exact nomatch hc
    · refine ⟨rfl, ?_⟩
      rw [← List.append_assoc, ← String.utf8Len_append, getFrom_append]
      exact hnext
  seek_pair before after offset _ h := by
    obtain ⟨before', part, after', htext, hlen, rfl, hpart⟩ := asciiSeek_spec h
    obtain ⟨rfl, rfl⟩ := append_inj_of_utf8Len htext hlen
    rcases hpart with ⟨rfl, hpair⟩ | ⟨rfl, -⟩
    · exact hpair
    · exact fun hpair => nomatch hpair.2

/-- Limits that none of the texts below reaches. -/
def roomy : Limits := ⟨1000, 10, 4⟩

/-- A complete snapshot of a text. -/
def opened (text : Text) (fits : utf8Len [text].flatten ≤ usizeMax) : DocumentSnapshot :=
  ⟨⟨[text], 1, true, fits⟩, none⟩

end BareLine.Power
