import BareLine.Power.Steps
import BareLine.Syntax.Catalog
import BareLine.Lib.TextLines

/-!
# Toggling comments

A toggle works on the lines its selections cover: where every one of them that is not blank starts
with the token it takes the tokens away, otherwise it puts one in front of each, at the smallest
indentation among them.
-/

namespace BareLine.Power.Completion

open Lib
open Search (Text)
open String (utf8Len)

/-! ## §1 The tokens of a language -/

/-- `CommentTokens` -/
structure CommentTokens where
  line : Option Text
  block : Option (Text × Text)
  deriving DecidableEq, Repr

/-- `LanguageComments` and `DefinitionComments` -/
inductive CommentProvider where
  | language (l : Syntax.Language)
  | definition (d : Syntax.Definition)

namespace CommentProvider

/-- A definition was validated. -/
def Valid : CommentProvider → Prop
  | .language _ => True
  | .definition d => d.validate = .ok ()

def lineComment : CommentProvider → Option Bytes
  | .language l => Syntax.lineComment l
  | .definition d => d.lineComment

def blockComment : CommentProvider → Option (Bytes × Bytes)
  | .language l => Syntax.blockComment l
  | .definition d => d.blockComment

/-- `CommentProvider::tokens_for`, as what it gives. -/
structure TokensFor (provider : CommentProvider) (tokens : CommentTokens) : Prop where
  line : tokens.line.map encode = provider.lineComment
  block : tokens.block.map (fun pair => (encode pair.1, encode pair.2)) = provider.blockComment
  any : tokens.line.isSome ∨ tokens.block.isSome

/-- What a line may be commented out with. -/
structure LineToken (token : Text) : Prop where
  nonempty : token ≠ []
  quiet : NoBreak token

/-- A language of the catalog and a validated definition give such a token. -/
theorem TokensFor.lineToken {provider : CommentProvider} {tokens : CommentTokens} {token : Text}
    (h : provider.TokensFor tokens) (hvalid : provider.Valid) (htoken : tokens.line = some token) :
    LineToken token := by
  have hgiven : encode token ∈ provider.lineComment := by
    rw [← h.line, htoken]
    rfl
  have hmarker : Syntax.Marker (encode token) := by
    cases provider with
    | language l => exact Syntax.lineComment_marker l _ hgiven
    | definition d =>
      refine Syntax.Definition.validate_marker hvalid _ ?_
      exact List.mem_append_left _ (Option.mem_toList.mpr hgiven)
  refine ⟨fun hnil => hmarker.nonempty (by rw [hnil]; rfl), fun c hc => ⟨?_, ?_⟩⟩ <;> rintro rfl
  · exact absurd (hmarker.inLine CR (List.mem_flatMap.mpr ⟨_, hc, by decide⟩)) (by decide)
  · exact absurd (hmarker.inLine LF (List.mem_flatMap.mpr ⟨_, hc, by decide⟩)) (by decide)

end CommentProvider

/-! ## §2 The lines of the selections -/

/-- `power::normalize` -/
def normalize (u : Unicode) (snapshot : DocumentSnapshot) (set : SelectionSet) (limits : Limits) :
    Except Error SelectionSet := do
  let set ← normalizeDirected u snapshot set limits
  pure { set with selections := set.selections.map fun s => ⟨s.range.start, s.range.stop⟩ }

/-- `BTreeSet::insert`, the set as its sorted elements. -/
def insertLine (line : Nat) (lines : List Nat) : List Nat :=
  if line ∈ lines then lines else lines.orderedInsert (· ≤ ·) line

/-- The loop over the lines of one selection. -/
def insertLines (limits : Limits) : List Nat → List Nat → Except Error (List Nat)
  | lines, [] => .ok lines
  | lines, line :: rest =>
    if limits.maxSelections ≤ lines.length then .error .budgetExceeded
    else insertLines limits (insertLine line lines) rest

/-- Where a selection ends; one that ends at a line start does not take that line. -/
def lastScalar (snapshot : DocumentSnapshot) (s : Selection) : Nat :=
  if s.anchor < s.caret then Search.boundaryUpTo snapshot.toDocumentSnapshot (s.caret - 1)
  else s.caret

/-- The loop over the selections. -/
def coveredFrom (snapshot : DocumentSnapshot) (limits : Limits) :
    List Nat → List Selection → Except Error (List Nat)
  | lines, [] => .ok lines
  | lines, s :: rest => do
    let first ← snapshot.lineAt s.anchor
    let last ← snapshot.lineAt (lastScalar snapshot s)
    let lines ← insertLines limits lines (List.range' first (last + 1 - first))
    coveredFrom snapshot limits lines rest

/-! ## §3 The rows -/

/-- `[' ', '\t']` -/
def isIndent (c : Char) : Bool := c == ' ' || c == '\t'

/-- A row to be edited: where it starts, and its text. -/
structure CommentRow where
  start : Nat
  text : Text
  deriving DecidableEq, Repr

namespace CommentRow

variable (row : CommentRow)

/-- `text.len() - text.trim_start_matches([' ', '\t']).len()` -/
def leading : Nat := utf8Len row.text - utf8Len (row.text.dropWhile isIndent)

/-- `text.trim().is_empty()` -/
def blank : Bool := (trim row.text).isEmpty

/-- `text[leading..].starts_with(&token)` -/
def startsWith (token : Text) : Bool :=
  (getFrom row.text row.leading).any fun rest => token.isPrefixOf rest

end CommentRow

/-- The loop that reads the rows, with the bytes read so far. -/
def commentRows (snapshot : DocumentSnapshot) (limits : Limits) :
    Nat → List Nat → Except Error (List CommentRow)
  | _, [] => .ok []
  | bytes, line :: lines => do
    let (start, text) ← snapshot.line line limits
    if limits.maxBytes < bytes + utf8Len text then .error .budgetExceeded
    else do
      let rows ← commentRows snapshot limits (bytes + utf8Len text) lines
      pure (⟨start, text⟩ :: rows)

/-- `all_commented` -/
def allCommented (token : Text) (rows : List CommentRow) : Bool :=
  rows.all fun row => row.blank || row.startsWith token

/-- `indent` -/
def commentIndent (limits : Limits) (rows : List CommentRow) : Nat :=
  min ((rows.filter fun row => !row.blank).foldl (fun indent row => min indent row.leading)
    usizeMax) limits.maxBytes

/-! ## §4 The edits -/

/-- The edit of a row that is not blank. -/
def lineEdit (token : Text) (all : Bool) (indent : Nat) (row : CommentRow) : Edit :=
  let offset := if all then row.leading else indent
  let stop :=
    if all then
      let stop := offset + utf8Len token
      if (getFrom row.text stop).any fun rest => rest.head? == some ' ' then stop + 1 else stop
    else offset
  ⟨⟨row.start + offset, row.start + stop⟩, if all then [] else token ++ [' ']⟩

/-- The edits of the rows. -/
def lineEdits (token : Text) (limits : Limits) (rows : List CommentRow) : List Edit :=
  (rows.filter fun row => !row.blank).map
    (lineEdit token (allCommented token rows) (commentIndent limits rows))

/-- `text.strip_prefix(&open).and_then(|s| s.strip_suffix(&close))` -/
def stripBlock (tokens : Text × Text) (text : Text) : Option Text :=
  if tokens.1.isPrefixOf text then
    let rest := text.drop tokens.1.length
    if tokens.2.isSuffixOf rest then some (rest.take (rest.length - tokens.2.length)) else none
  else none

/-- The loop over the selections of a block toggle, with the bytes read and written so far. -/
def blockEdits (snapshot : DocumentSnapshot) (tokens : Text × Text) (limits : Limits) :
    Nat → List Selection → Except Error (List Edit)
  | _, [] => .ok []
  | bytes, s :: rest => do
    let text ← snapshot.readText ⟨s.anchor, s.caret⟩ limits.maxBytes
    let insert := (stripBlock tokens text).getD (tokens.1 ++ text ++ tokens.2)
    let bytes := bytes + (utf8Len text + utf8Len insert)
    if limits.maxBytes < bytes then .error .budgetExceeded
    else do
      let edits ← blockEdits snapshot tokens limits bytes rest
      pure (⟨⟨s.anchor, s.caret⟩, insert⟩ :: edits)

/-- `toggle_comment_with_provider`, with the tokens the provider gave. -/
def toggleComment (u : Unicode) (snapshot : DocumentSnapshot) (set : SelectionSet)
    (tokens : Option CommentTokens) (block : Bool) (limits : Limits) : Except Error PowerEdit := do
  let tokens ← tokens.elim (.error .outOfBounds) .ok
  let set ← normalize u snapshot set limits
  if block then do
    let pair ← tokens.block.elim (.error .outOfBounds) .ok
    let edits ← blockEdits snapshot pair limits 0 set.selections
    finish snapshot edits limits
  else do
    let token ← tokens.line.elim (.error .outOfBounds) .ok
    let lines ← coveredFrom snapshot limits [] set.selections
    let rows ← commentRows snapshot limits 0 lines
    finish snapshot (lineEdits token limits rows) limits

end BareLine.Power.Completion
