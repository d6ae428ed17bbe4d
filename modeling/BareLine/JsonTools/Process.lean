import BareLine.JsonTools.Layouts

/-!
# The JSON tools

The parser checks a text while it reads it and writes it in a layout.  Its input comes in the
pieces that the reads give; a string takes the plain bytes of a piece at once.
-/

namespace BareLine.JsonTools.Process

open Lib

/-! ## §1 The parser -/

structure Error where
  offset : Nat
  line : Nat
  message : String
  deriving DecidableEq, Repr

structure Node where
  start : Nat
  stop : Nat
  kind : String
  deriving DecidableEq, Repr

/-- `Parser`; its input is what the buffer holds and then what each read will give. -/
structure Parser where
  input : List Bytes
  out : Bytes
  offset : Nat
  line : Nat
  depth : Nat
  nodes : List Node

/-- The methods of `Parser`. -/
abbrev Action := StateT Parser (Except Error)

/-- `Parser::error` -/
def fail {α : Type} (message : String) : Action α :=
  fun s => .error ⟨s.offset, s.line, message⟩

/-- The bytes the parser has not read. -/
def Parser.rest (s : Parser) : Bytes := s.input.flatten

/-- `fill_buf` -/
def Parser.buffer (s : Parser) : Bytes := s.input.head?.getD []

/-- `BufReader::consume` -/
def consume (count : Nat) : List Bytes → List Bytes
  | [] => []
  | piece :: pieces => if count < piece.length then piece.drop count :: pieces else pieces

/-- `Parser::peek` -/
def peek : Action (Option UInt8) := fun s => .ok (s.buffer.head?, s)

/-- `Parser::take` -/
def take : Action UInt8 := do
  match ← peek with
  | none => fail "unexpected end of JSON"
  | some b =>
    modify fun s => { s with
      input := consume 1 s.input
      offset := s.offset + 1
      line := if b = 0x0A then s.line + 1 else s.line }
    pure b

/-- What is written of some bytes. -/
def written (layout : Layout) (bytes : Bytes) : Bytes :=
  if layout = .validate then [] else bytes

section Layouts

variable (layout : Layout) (unit : Bytes)

/-- `Parser::emit` -/
def emit (bytes : Bytes) : Action Unit :=
  modify fun s => { s with out := s.out ++ written layout bytes }

/-- `Parser::copy` -/
def copy : Action UInt8 := do
  let b ← take
  emit layout [b]
  pure b

/-- `while matches!(self.peek()?, …)`: an action as long as the next byte passes, over the bytes
that are left. -/
def whileNext (test : UInt8 → Bool) (body : Action UInt8) : Nat → Action Unit
  | 0 => pure ()
  | left + 1 => do
    match ← peek with
    | some b =>
      if test b then do
        let _ ← body
        whileNext test body left
      else pure ()
    | none => pure ()

/-- `Parser::ws` -/
def ws : Action Unit := fun s => whileNext isSpace take s.rest.length s

/-- `Parser::indent` -/
def indent : Action Unit :=
  if layout = .pretty then do
    emit layout [0x0A]
    modify fun s => { s with out := s.out ++ (List.replicate s.depth unit).flatten }
  else pure ()

/-- `Parser::expect` -/
def expect (b : UInt8) : Action Unit := do
  if (← peek) ≠ some b then fail "unexpected JSON token"
  else do
    let _ ← copy layout
    pure ()

/-! ## §2 Strings -/

/-- The loop of `Parser::hex` -/
def hexLoop : Nat → Nat → Action Nat
  | 0, value => pure value
  | count + 1, value => do
    match ← peek with
    | none => fail "truncated Unicode escape"
    | some b =>
      match hexDigit b with
      | none => fail "invalid Unicode escape"
      | some digit => do
        let _ ← copy layout
        hexLoop count (value * 16 + digit)

/-- `Parser::hex` -/
def hex : Action Nat := hexLoop layout 4 0

/-- The bytes that `Parser::string` takes at once. -/
def isOrdinary (b : UInt8) : Bool := !(b < 0x20 || 0x80 ≤ b || b == 0x22 || b == 0x5C)

/-- `Parser::string` behind a backslash. -/
def escape : Action Unit := do
  let b ← copy layout
  if b ∈ shortEscapes then pure ()
  else if b = 0x75 then do
    let n ← hex layout
    if isHigh n then do
      expect layout 0x5C
      expect layout 0x75
      let m ← hex layout
      if isLow m then pure () else fail "invalid surrogate pair"
    else if isLow n then fail "unpaired low surrogate"
    else pure ()
  else fail "invalid string escape"

/-- Bytes into a buffer. -/
def takeBytes : Nat → Action Bytes
  | 0 => pure []
  | count + 1 => do
    let b ← take
    let bytes ← takeBytes count
    pure (b :: bytes)

/-- The bytes of a scalar, by the byte it starts with. -/
def scalarWidth (lead : UInt8) : Option Nat :=
  if 0xC2 ≤ lead ∧ lead ≤ 0xDF then some 2
  else if 0xE0 ≤ lead ∧ lead ≤ 0xEF then some 3
  else if 0xF0 ≤ lead ∧ lead ≤ 0xF4 then some 4
  else none

/-- `Parser::string` at a byte that starts a longer scalar. -/
def scalar (lead : UInt8) : Action Unit := do
  match scalarWidth lead with
  | none => fail "invalid UTF-8"
  | some width => do
    let bytes ← takeBytes width
    match Codec.fromUtf8 bytes with
    | .error _ => fail "invalid UTF-8"
    | .ok _ => emit layout bytes

/-- The `match` of `Parser::string`, and the loop behind it. -/
def stringAt (next : Action Unit) : Action Unit := do
  match ← peek with
  | none => fail "unterminated string"
  | some b =>
    if b = 0x22 then do
      let _ ← copy layout
      pure ()
    else if b < 0x20 then fail "unescaped control character"
    else if b = 0x5C then do
      let _ ← copy layout
      escape layout
      next
    else if 0x80 ≤ b then do
      scalar layout b
      next
    else do
      let _ ← copy layout
      next

/-- The loop of `Parser::string`, with more rounds than bytes are left. -/
def stringLoop : Nat → Action Unit
  | 0 => fail "unterminated string"
  | rounds + 1 => do
    let span := (← get).buffer.takeWhile isOrdinary
    if span ≠ [] then do
      modify fun s => { s with
        input := consume span.length s.input
        out := s.out ++ written layout span
        offset := s.offset + span.length }
      stringLoop rounds
    else stringAt layout (stringLoop rounds)

/-- `Parser::string` -/
def string : Action Unit := do
  expect layout 0x22
  fun s => stringLoop layout (s.rest.length + 1) s

/-! ## §3 Numbers -/

/-- `Parser::digits` -/
def digits : Action Unit := do
  match ← peek with
  | some b =>
    if isDigit b then fun s => whileNext isDigit (copy layout) s.rest.length s
    else fail "expected digit"
  | none => fail "expected digit"

/-- A byte is copied if it is one of some. -/
def copyIf (bytes : Bytes) : Action Bool := do
  match ← peek with
  | some b =>
    if b ∈ bytes then do
      let _ ← copy layout
      pure true
    else pure false
  | none => pure false

/-- `Parser::number` up to the fraction. -/
def whole : Action Unit := do
  let zero ← copyIf layout [0x30]
  if zero then pure () else digits layout

/-- `Parser::number` from the point to the exponent. -/
def fraction : Action Unit := do
  let point ← copyIf layout [0x2E]
  if point then digits layout else pure ()

/-- `Parser::number` from the exponent on. -/
def exponent : Action Unit := do
  let letter ← copyIf layout [0x65, 0x45]
  if letter then do
    let _ ← copyIf layout [0x2B, 0x2D]
    digits layout
  else pure ()

/-- `Parser::number` -/
def number : Action Unit := do
  let _ ← copyIf layout [0x2D]
  whole layout
  fraction layout
  exponent layout

/-! ## §4 Values -/

/-- The kind of a node, by the byte it starts with. -/
def kindAt : Option UInt8 → String
  | some 0x7B => "object"
  | some 0x5B => "array"
  | some 0x22 => "string"
  | some 0x74 | some 0x66 => "boolean"
  | some 0x6E => "null"
  | _ => "number"

/-- A node is pushed for the root and its children, up to 256. -/
def pushNode (start : Nat) (kind : String) : Action (Option Nat) := do
  let s ← get
  if s.depth ≤ 1 ∧ s.nodes.length < 256 then do
    modify fun s => { s with nodes := s.nodes ++ [⟨start, start, kind⟩] }
    pure (some s.nodes.length)
  else pure none

/-- The end of a node. -/
def closeNode (node : Option Nat) : Action Unit :=
  match node with
  | none => pure ()
  | some n => modify fun s => { s with
      nodes := s.nodes.modify n fun node => { node with stop := s.offset } }

/-- What the loop of `Parser::value` reads in front of a value of an object. -/
def key (kind : Kind) : Action Unit :=
  if kind = .object then do
    string layout
    ws
    expect layout 0x3A
    if layout = .pretty then emit layout [0x20] else pure ()
  else pure ()

/-- The loop over the items of a container, with more rounds than bytes are left. -/
def itemsLoop (value : Action Unit) (kind : Kind) : Nat → Action Unit
  | 0 => fail "unexpected end of JSON"
  | rounds + 1 => do
    indent layout unit
    key layout kind
    value
    ws
    if (← peek) ≠ some 0x2C then pure ()
    else do
      let _ ← copy layout
      ws
      itemsLoop value kind rounds

/-- `Parser::value` at a bracket. -/
def container (value : Action Unit) (kind : Kind) : Action Unit := do
  let _ ← copy layout
  modify fun s => { s with depth := s.depth + 1 }
  ws
  if (← peek) ≠ some kind.closing then do
    fun s => itemsLoop layout unit value kind (s.rest.length + 1) s
    modify fun s => { s with depth := s.depth - 1 }
    indent layout unit
  else modify fun s => { s with depth := s.depth - 1 }
  expect layout kind.closing

/-- Some bytes, one expected after the other. -/
def expectAll : Bytes → Action Unit
  | [] => pure ()
  | b :: bytes => do
    expect layout b
    expectAll bytes

/-- `Parser::value` behind the whitespace, at a byte; a container's values are read by `value`. -/
def valueAt (value : Action Unit) : Action Unit := do
  match ← peek with
  | some b =>
    if b = 0x7B then container layout unit value .object
    else if b = 0x5B then container layout unit value .array
    else if b = 0x22 then string layout
    else if b = 0x74 then expectAll layout Literal.true.render
    else if b = 0x66 then expectAll layout Literal.false.render
    else if b = 0x6E then expectAll layout Literal.null.render
    else if b = 0x2D ∨ isDigit b then number layout
    else fail "expected JSON value"
  | none => fail "expected JSON value"

/-- `Parser::value`, with more levels than the depth leaves. -/
def value : Nat → Action Unit
  | 0 => fail "JSON depth limit (128)"
  | levels + 1 => do
    ws
    let s ← get
    if s.depth ≥ 128 then fail "JSON depth limit (128)"
    else do
      let node ← pushNode s.offset (kindAt (← peek))
      valueAt layout unit (value levels)
      closeNode node

/-! ## §5 Texts -/

/-- `process_with_indent`: the nodes and what was written. -/
def processWithIndent (input : List Bytes) : Except Error (List Node × Bytes) :=
  let action : Action Unit := do
    value layout unit 129
    ws
    if (← peek).isSome then fail "trailing JSON data" else pure ()
  match action ⟨input, [], 0, 1, 0, []⟩ with
  | .error error => .error error
  | .ok ((), s) => .ok (s.nodes, s.out)

/-- `process` -/
def process (input : List Bytes) : Except Error (List Node × Bytes) :=
  processWithIndent layout [0x20, 0x20] input

end Layouts

end BareLine.JsonTools.Process
