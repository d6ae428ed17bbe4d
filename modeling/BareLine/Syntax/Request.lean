import BareLine.Syntax.Passes

/-!
# Highlighting requests

One request lexes one window, from the start of the document or from a checkpoint, and hands out
the checkpoints it passes.  A checkpoint is carried to the next revision when the edit starts
behind it.
-/

namespace BareLine.Syntax

open Lib Codec

/-! ## §1 Spans -/

/-- `MAX_REQUEST_BYTES` -/
def MAX_REQUEST_BYTES : Nat := 256 * 1024

/-- `MAX_SPANS` -/
def MAX_SPANS : Nat := MAX_REQUEST_BYTES

/-- `StyleSpan` -/
structure StyleSpan where
  range : Range
  kind : StyleKind
  deriving DecidableEq, Repr

/-- The styled tokens of a text that starts at an offset. -/
def styled : Nat → List Token → List StyleSpan
  | _, [] => []
  | start, t :: ts =>
    (t.kind.map fun kind => (⟨⟨start, start + t.length⟩, kind⟩ : StyleSpan)).toList ++
      styled (start + t.length) ts

/-- The span touches the one before it and is of its kind. -/
def StyleSpan.follows (span last : StyleSpan) : Bool :=
  last.kind == span.kind && last.range.stop == span.range.start

/-- One span more; it grows the last one where it can. -/
def joinSpan (spans : List StyleSpan) (span : StyleSpan) : List StyleSpan :=
  match spans.getLast? with
  | some last =>
    if span.follows last then
      spans.dropLast ++ [⟨⟨last.range.start, span.range.stop⟩, last.kind⟩]
    else spans ++ [span]
  | none => [span]

/-- `joinSpan` within the bound on spans. -/
def addSpan (spans : List StyleSpan) (span : StyleSpan) : Except SyntaxError (List StyleSpan) :=
  if spans.getLast?.any span.follows then .ok (joinSpan spans span)
  else if spans.length = MAX_SPANS then .error .budgetExceeded
  else .ok (joinSpan spans span)

/-- Touching spans of one kind merged. -/
def merge (spans : List StyleSpan) : List StyleSpan := spans.foldl joinSpan []

/-! ## §2 Checkpoints -/

/-- `Checkpoint`; a definition is known by its address. -/
structure Checkpoint where
  source : DocumentSnapshot
  language : Language
  offset : Nat
  state : State
  definition : Option Nat
  deriving DecidableEq, Repr

/-- `DocumentSnapshot::same_document` -/
def sameDocument (self other : DocumentSnapshot) : Bool :=
  self.documentId == other.documentId

/-- `AppliedChange::matches_before`, asked for the identity and the state of a snapshot. -/
def matchesBefore (change : AppliedChange) (previous : DocumentSnapshot) : Bool :=
  previous.documentId == change.documentId && previous.revision == change.beforeRevision &&
    previous.contentState == change.beforeState

/-- `first_change` -/
def firstChange (previous next : DocumentSnapshot) : Option Nat :=
  if ¬sameDocument previous next then none
  else if previous.revision = next.revision then some usizeMax
  else
    (next.appliedChange.filter fun change => matchesBefore change previous).map fun change =>
      (change.edits.head?.map fun edit => edit.before.start).getD usizeMax

/-- `Checkpoint::rebase` -/
def Checkpoint.rebase (self : Checkpoint) (next : DocumentSnapshot) : Option Checkpoint :=
  match firstChange self.source next with
  | none => none
  | some first => if self.offset < first then some { self with source := next } else none

/-! ## §3 Requests -/

/-- `LexOptions`, without the preference: the primary lexer is no part of the model. -/
structure LexOptions where
  lineOrigin : Nat
  definition : Option Nat
  deriving DecidableEq, Repr

/-- `Status` -/
inductive Status where
  | complete
  | provisional
  deriving DecidableEq, Repr

/-- `SyntaxResult`, without what folding reads. -/
structure SyntaxResult where
  source : DocumentSnapshot
  language : Language
  range : Range
  spans : List StyleSpan
  status : Status
  checkpoint : Option Checkpoint
  checkpoints : List Checkpoint
  deriving DecidableEq, Repr

/-- The places right behind a line end that `ends` a line numbered a multiple of 256. -/
def sparse (text : Bytes) : Nat → Nat → List Token → List (Nat × State)
  | _, _, [] => []
  | line, start, t :: ts =>
    let i := start + t.length
    if text[i - 1]? = some LF ∨ (text[i - 1]? = some CR ∧ text[i]? ≠ some LF) then
      (if (line + 1) % 256 = 0 then [(i, t.next)] else []) ++ sparse text (line + 1) i ts
    else sparse text line i ts

/-- The state a request starts from. -/
def startState (source : DocumentSnapshot) (language : Language) (start : Nat)
    (checkpoint : Option Checkpoint) (definition : Option Nat) : Except SyntaxError State :=
  match checkpoint with
  | none => .ok .normal
  | some cp =>
    if ¬sameDocument cp.source source ∨ cp.source.revision ≠ source.revision ∨
        cp.language ≠ language ∨ cp.offset ≠ start ∨ cp.definition ≠ definition then
      .error .staleCheckpoint
    else .ok cp.state

/-- `definition.validate()?`, where there is one. -/
def validateShared (arcs : Nat → Definition) : Option Nat → Except SyntaxError Unit
  | none => .ok ()
  | some address => (arcs address).validate

/-- The lexer of a request. -/
def lexerFor (vocabulary : Vocabulary) (arcs : Nat → Definition) (language : Language)
    (definition : Option Nat) : Lexer := ⟨vocabulary, language, definition.map arcs⟩

/-- Plain text without a definition is not lexed. -/
def Lexer.active (self : Lexer) : Bool := self.language != .plainText || self.custom.isSome

/-- `lex_configured`, without a session of the primary lexer. -/
def lexConfigured (vocabulary : Vocabulary) (arcs : Nat → Definition)
    (source : DocumentSnapshot) (language : Language) (range : Range)
    (checkpoint : Option Checkpoint) (options : LexOptions) : Except SyntaxError SyntaxResult := do
  validateShared arcs options.definition
  if range.start > range.stop ∨ range.stop > source.len ∨ ¬source.isBoundary range.start ∨
      ¬source.isBoundary range.stop then .error .invalidRange
  else if range.stop - range.start > MAX_REQUEST_BYTES then .error .budgetExceeded
  else
    let state ← startState source language range.start checkpoint options.definition
    if range.start ≠ 0 ∧ checkpoint = none ∧
        (language ≠ .plainText ∨ options.definition ≠ none) then
      .ok ⟨source, language, range, [], .provisional, none, []⟩
    else
      let text := range.of source.text
      let lexer := lexerFor vocabulary arcs language options.definition
      let tokens := if lexer.active then lexer.tokens text.length state text else []
      let spans ← (styled range.start tokens).foldlM addSpan []
      let line := options.lineOrigin + lineAt source.text range.start
      let place := fun offset state =>
        (⟨source, language, offset, state, options.definition⟩ : Checkpoint)
      let atBoundary := range.stop = source.len ∨ text.getLast?.any isLineEnd
      let verified := range.start = 0 ∨ checkpoint ≠ none ∨
        (language = .plainText ∧ options.definition = none)
      .ok ⟨source, language, range, if verified then spans else [],
        if verified then .complete else .provisional,
        if atBoundary ∧ verified then some (place range.stop (stateAfter state tokens)) else none,
        if verified then (sparse text line 0 tokens).map fun found =>
          place (range.start + found.1) found.2 else []⟩

end BareLine.Syntax
