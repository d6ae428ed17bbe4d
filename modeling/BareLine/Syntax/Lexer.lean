import BareLine.Syntax.Catalog

/-!
# The native lexer

One token after the other from the state at a checkpoint, as the fallback highlighter reads them.
The lexer session of the primary highlighter is no part of it, and no call is cancelled.
-/

namespace BareLine.Syntax

open Lib Codec

/-! ## §1 Lookahead -/

/-- `"` -/
def DOUBLE_QUOTE : UInt8 := 34

/-- `#` -/
def HASH : UInt8 := 35

/-- The single quote. -/
def SINGLE_QUOTE : UInt8 := 39

/-- The backslash. -/
def BACKSLASH : UInt8 := 92

/-- The backtick. -/
def BACKTICK : UInt8 := 96

/-- `char::len_utf8` of the first scalar. -/
def scalarLen (rest : Bytes) : Nat :=
  match Codec.scan rest with
  | .valid n => n
  | _ => 1

/-- `rest.chars().next()` -/
def firstChar (rest : Bytes) : Option Bytes :=
  match Codec.scan rest with
  | .valid n => some (rest.take n)
  | _ => none

/-- `raw_start`: the length of the opening and its hashes. -/
def rawStart (text : Bytes) : Option (Nat × Nat) :=
  let first :=
    if [98, 114].isPrefixOf text || [99, 114].isPrefixOf text then 2
    else if [114].isPrefixOf text then 1 else 0
  if first = 0 then none
  else
    let hashes := (((text.drop first).take 256).takeWhile (· == HASH)).length
    if hashes > 255 ∨ text[first + hashes]? ≠ some DOUBLE_QUOTE then none
    else some (first + hashes + 1, hashes)

/-- The escapes of `char_literal_length`: one scalar, `xNN` or `u{1..6 hex digits}`, where `c` is
the scalar behind the backslash and `offset` the one in front of it. -/
def escapeLength (text : Bytes) (offset : Nat) (c : Bytes) : Option Nat :=
  if c = [117] ∧ text[offset + 2]? = some 123 then
    let tail := text.drop (offset + 3)
    let n := ((tail.takeWhile isHexDigit).take 7).length
    if n > 0 ∧ n ≤ 6 ∧ [125, SINGLE_QUOTE].isPrefixOf (tail.drop n) then some (offset + 3 + n + 2)
    else none
  else
    let stop := if c = [120] then offset + 4 else offset + 1 + c.length
    if text[stop]? = some SINGLE_QUOTE then some (stop + 1) else none

/-- `char_literal_length` -/
def charLiteralLength (text : Bytes) : Option Nat :=
  if text.head? ≠ some SINGLE_QUOTE then none
  else
    match firstChar (text.drop 1) with
    | none => none
    | some first =>
      if first = [CR] ∨ first = [LF] ∨ first = [SINGLE_QUOTE] then none
      else
        match firstChar (text.drop (1 + first.length)) with
        | none => none
        | some c =>
          if first ≠ [BACKSLASH] then if c = [SINGLE_QUOTE] then some (first.length + 2) else none
          else escapeLength text first.length c

/-- The rest of a line comment: no byte inside a scalar ends a line. -/
def commentLen (rest : Bytes) : Nat := (rest.takeWhile fun b => !isLineEnd b).length

/-- The rest of a number after `previous`. -/
def numberLen : UInt8 → Bytes → Nat
  | _, [] => 0
  | previous, b :: rest =>
    if isAsciiAlphanumeric b || b == 95 ||
        (b == 46 && rest.head? != some 46 && rest.head?.any isDigit) ||
        ((b == 43 || b == 45) && (previous == 101 || previous == 69)) then
      1 + numberLen b rest
    else 0

/-- The rest of a word, in at most `left` scalars. -/
def wordLen (vocabulary : Vocabulary) : Nat → Bytes → Nat
  | 0, _ => 0
  | left + 1, rest =>
    if rest = [] then 0
    else
      let next := rest.take (scalarLen rest)
      if next = [95] || vocabulary.isAlphanumeric next then
        scalarLen rest + wordLen vocabulary left (rest.drop (scalarLen rest))
      else 0

/-! ## §2 Tokens -/

/-- `StyleKind` -/
inductive StyleKind where
  | keyword
  | string
  | number
  | comment
  | operator
  deriving DecidableEq, Repr

/-- What the lexer carries from one token to the next. -/
inductive State where
  | normal
  | block (depth : Nat)
  | quote (escaped : Bool) (delimiter : Bytes)
  | raw (hashes : Nat)
  deriving DecidableEq, Repr

/-- One turn of the loop: the bytes it takes, their style and the state after it. -/
structure Token where
  length : Nat
  kind : Option StyleKind
  next : State
  deriving DecidableEq, Repr

/-- The operators of the bundled languages. -/
def OPERATORS : Bytes :=
  [123, 125, 91, 93, 40, 41, 58, 59, 44, 46, 43, 45, 42, 47, 37, 61, 33, 60, 62, 124, 38, 94, 63,
    126]

namespace Lexer

/-- `State::Block` -/
def blockToken (self : Lexer) (depth : Nat) (rest : Bytes) : Token :=
  let markers := self.blockComment.getD ([47, 42], [42, 47])
  if self.language = .rust ∧ markers.1.isPrefixOf rest then
    ⟨markers.1.length, some .comment, .block (depth + 1)⟩
  else if markers.2.isPrefixOf rest then
    ⟨markers.2.length, some .comment, if depth = 1 then .normal else .block (depth - 1)⟩
  else ⟨scalarLen rest, some .comment, .block depth⟩

/-- `State::Quote` -/
def quoteToken (escaped : Bool) (delimiter rest : Bytes) : Token :=
  let c := rest.take (scalarLen rest)
  ⟨scalarLen rest, some .string,
    if escaped then .quote false delimiter
    else if c = delimiter then .normal
    else .quote (c = [BACKSLASH]) delimiter⟩

/-- `State::Raw` -/
def rawToken (hashes : Nat) (rest : Bytes) : Token :=
  if rest.head? = some DOUBLE_QUOTE ∧ hashes ≤ (rest.drop 1).length ∧
      ((rest.drop 1).take hashes).all (· == HASH) then
    ⟨1 + hashes, some .string, .normal⟩
  else ⟨scalarLen rest, some .string, .raw hashes⟩

/-- Whether a string starts here. -/
def opensString (self : Lexer) (rest : Bytes) : Bool :=
  match self.custom with
  | some definition => definition.strings.contains (rest.take (scalarLen rest))
  | none =>
    rest.head? == some DOUBLE_QUOTE ||
      (self.language != .rust && self.language != .json && rest.head? == some SINGLE_QUOTE) ||
      ((self.language == .javaScript || self.language == .typeScript || self.language == .go) &&
        rest.head? == some BACKTICK)

/-- The comments and strings that start here, in `State::Normal`. -/
def opening (self : Lexer) (rest : Bytes) : Option Token :=
  match self.lineComment.filter fun token => token.isPrefixOf rest with
  | some token => some ⟨token.length + commentLen (rest.drop token.length), some .comment, .normal⟩
  | none =>
    match self.blockComment.filter fun tokens => tokens.1.isPrefixOf rest with
    | some tokens => some ⟨tokens.1.length, some .comment, .block 1⟩
    | none =>
      match if self.language = .rust then rawStart rest else none with
      | some (length, hashes) => some ⟨length, some .string, .raw hashes⟩
      | none =>
        if self.opensString rest then
          let delimiter := rest.take (scalarLen rest)
          some ⟨delimiter.length, some .string, .quote false delimiter⟩
        else none

/-- Numbers, words and operators, in `State::Normal`. -/
def plain (self : Lexer) (rest : Bytes) : Token :=
  let c := rest.take (scalarLen rest)
  let behind := rest.drop (scalarLen rest)
  if c.length = 1 ∧ c.all isDigit ∨
      (self.language = .json ∧ c = [45] ∧ behind.head?.any isDigit) then
    ⟨scalarLen rest + numberLen (c.headD 0) behind, some .number, .normal⟩
  else if c = [95] ∨ self.vocabulary.isAlphabetic c then
    let length := scalarLen rest + wordLen self.vocabulary behind.length behind
    let word := rest.take length
    let keyword := match self.custom with
      | none => self.vocabulary.keyword self.language word
      | some definition => definition.keywords.contains word
    ⟨length, if keyword then some .keyword else none, .normal⟩
  else
    let operators := match self.custom with
      | none => OPERATORS
      | some definition => definition.operators
    ⟨scalarLen rest, if c <:+: operators then some .operator else none, .normal⟩

/-- A Rust character literal that starts here, in `State::Normal`. -/
def charLiteral (self : Lexer) (rest : Bytes) : Option Nat :=
  if self.language = .rust ∧ self.opening rest = none then charLiteralLength rest else none

/-- One turn of the loop over a nonempty rest. -/
def token (self : Lexer) (state : State) (rest : Bytes) : Token :=
  match state with
  | .block depth => self.blockToken depth rest
  | .quote escaped delimiter => quoteToken escaped delimiter rest
  | .raw hashes => rawToken hashes rest
  | .normal =>
    match self.opening rest with
    | some token => token
    | none =>
      match self.charLiteral rest with
      | some length => ⟨length, some .string, .normal⟩
      | none => self.plain rest

end Lexer

end BareLine.Syntax
