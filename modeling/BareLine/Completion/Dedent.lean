import BareLine.Completion.Comments
import BareLine.Lib.Cover
import BareLine.Lib.Nesting
import BareLine.Syntax.Request

/-!
# Automatic dedent

A closing bracket typed behind the blanks of a line takes the indentation of its opener, which a
bounded walk backwards finds: chunk by chunk, with a counter of the brackets that are open and a
cursor among the strings and comments of the syntax result.  The size of a chunk is a parameter.
-/

namespace BareLine.Power.Completion

open Lib
open Search (Text)
open String (utf8Len)

/-! ## §1 Literals -/

/-- A snapshot with what `same_document` compares. -/
structure Source where
  snapshot : DocumentSnapshot
  documentId : Nat
  deriving DecidableEq, Repr

/-- `SyntaxResult`, by its source and its spans. -/
structure SyntaxResult where
  source : Source
  spans : List Syntax.StyleSpan
  deriving DecidableEq, Repr

/-- `SyntaxResult::is_current` -/
def SyntaxResult.isCurrent (self : SyntaxResult) (current : Source) : Bool :=
  self.source.documentId == current.documentId &&
    self.source.snapshot.revision == current.snapshot.revision

/-- `matches!(span.kind, StyleKind::String | StyleKind::Comment)` -/
def isLiteral (span : Syntax.StyleSpan) : Bool := span.kind == .string || span.kind == .comment

/-- `literal_ranges`; a partition point of sorted spans ends the front that is left out. -/
def literalRanges (source : Source) (syntaxResult : Option SyntaxResult) (window : Range) :
    List Range :=
  match syntaxResult.filter fun result => result.isCurrent source with
  | none => []
  | some result =>
    let spans := result.spans.dropWhile fun span => span.range.stop ≤ window.start
    let spans := spans.takeWhile fun span => span.range.start < window.stop
    mergeRanges (((spans.filter isLiteral).map Syntax.StyleSpan.range).insertionSort
      fun a b => a.start ≤ b.start)

/-! ## §2 The leading blanks -/

/-- `leading_indent` from an offset on, behind the blanks read so far.  The loop always goes
forward (`chunk_forward`). -/
def leadingIndentFrom (snapshot : DocumentSnapshot) (size limit : Nat) (limits : Limits)
    (indent : Text) (start : Nat) : Except Error Text :=
  let stop := Search.boundaryUpTo snapshot.toDocumentSnapshot (min (saturatingAdd start size) limit)
  if _h : start < limit ∧ start < stop then do
    let text ← snapshot.readText ⟨start, stop⟩ size
    let blank := text.takeWhile isIndent
    if limits.maxBytes < utf8Len indent + utf8Len blank then .error .budgetExceeded
    else if utf8Len blank < utf8Len text then .ok (indent ++ blank)
    else leadingIndentFrom snapshot size limit limits (indent ++ blank) stop
  else .ok indent
termination_by limit - start

/-- `leading_indent` -/
def leadingIndent (snapshot : DocumentSnapshot) (size lineStart limit : Nat) (limits : Limits) :
    Except Error Text :=
  leadingIndentFrom snapshot size limit limits [] lineStart

/-! ## §3 The walk -/

/-- `text.char_indices()`, the text starting at an offset. -/
def charIndices : Nat → Text → List (Nat × Char)
  | _, [] => []
  | offset, c :: text => (offset, c) :: charIndices (offset + c.utf8Size) text

/-- How the walk stands behind a chunk: at the opener, or with the cursor and the counter. -/
inductive Walk where
  | found (offset : Nat)
  | more (literal pending : Nat)
  deriving DecidableEq, Repr

/-- The loop over the scalars of a chunk, the last one first. -/
def walkChunk (literals : List Range) (typed opener : Char) :
    List (Nat × Char) → Nat → Nat → Walk
  | [], literal, pending => .more literal pending
  | (offset, c) :: rest, literal, pending =>
    if c ≠ typed ∧ c ≠ opener then walkChunk literals typed opener rest literal pending
    else
      let literal := cursorDown literals offset literal
      if coveredAt literals offset literal then walkChunk literals typed opener rest literal pending
      else if c = typed then walkChunk literals typed opener rest literal (pending + 1)
      else if pending - 1 = 0 then .found offset
      else walkChunk literals typed opener rest literal (pending - 1)

/-- `while at < end && !is_boundary(at) { at += 1 }` -/
def snapUp (snapshot : DocumentSnapshot) (start stop : Nat) : Nat :=
  Search.boundaryFrom snapshot.toDocumentSnapshot (stop - start) start

/-- The loop over the chunks of `BackChunks`; each turn shrinks what is left. -/
def walkBack (snapshot : DocumentSnapshot) (size : Nat) (literals : List Range)
    (typed opener : Char) (floor stop literal pending : Nat) : Except Error (Option Nat) :=
  let start := snapUp snapshot (max (stop - size) floor) stop
  if _h : start < stop then do
    let text ← snapshot.readText ⟨start, stop⟩ size
    match walkChunk literals typed opener (charIndices start text).reverse literal pending with
    | .found offset => .ok (some offset)
    | .more literal pending =>
      walkBack snapshot size literals typed opener floor start literal pending
  else .ok none
termination_by stop

/-! ## §4 The command -/

/-- `CONTEXT_SCAN_BYTES` -/
def CONTEXT_SCAN_BYTES : Nat := 64 * 1024

/-- `SCAN_CHUNK` -/
def SCAN_CHUNK : Nat := 4096

/-- The opener of a closing bracket. -/
def openerOf (typed : Char) : Option Char :=
  if typed = '\x7d' then some '\x7b'
  else if typed = ')' then some '('
  else if typed = ']' then some '['
  else none

/-- `auto_dedent` behind its first checks, with the size of its chunks. -/
def dedentAt (source : Source) (size caret : Nat) (typed opener : Char)
    (syntaxResult : Option SyntaxResult) (limits : Limits) : Except Error (Option PowerEdit) := do
  let line ← source.snapshot.lineAt caret
  let range ← source.snapshot.lineRange line
  if CONTEXT_SCAN_BYTES < caret - range.start then .ok none
  else do
    let blanks ← leadingIndent source.snapshot size range.start caret limits
    if utf8Len blanks ≠ caret - range.start then .ok none
    else do
      let floor := caret - CONTEXT_SCAN_BYTES
      let literals := literalRanges source syntaxResult ⟨floor, range.start⟩
      let found ← walkBack source.snapshot size literals typed opener
        (snapUp source.snapshot (min floor range.start) range.start) range.start literals.length 1
      match found with
      | none => .ok none
      | some offset => do
        let line ← source.snapshot.lineAt offset
        let opening ← source.snapshot.lineRange line
        let indent ← leadingIndent source.snapshot size opening.start offset limits
        let prepared ← finish source.snapshot [⟨⟨range.start, caret⟩, indent ++ [typed]⟩] limits
        pure (some prepared)

/-- `auto_dedent` -/
def autoDedent (u : Unicode) (size : Nat) (source : Source) (set : SelectionSet) (typed : Char)
    (syntaxResult : Option SyntaxResult) (limits : Limits) : Except Error (Option PowerEdit) :=
  match openerOf typed with
  | none => .ok none
  | some opener => do
    let set ← normalize u source.snapshot set limits
    match set.selections with
    | [caret] =>
      if caret.anchor ≠ caret.caret then .ok none
      else dedentAt source size caret.caret typed opener syntaxResult limits
    | _ => .ok none

end BareLine.Power.Completion
