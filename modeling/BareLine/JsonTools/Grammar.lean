import BareLine.Codec.ValidText

/-!
# JSON texts

The grammar of JSON texts, as trees that keep every byte: strings with their escapes, numbers
with their digits and the whitespace between tokens.
-/

namespace BareLine.JsonTools

open Lib

/-! ## §1 Bytes -/

/-- A property of bytes is checked byte by byte. -/
theorem forall_byte {P : UInt8 → Prop} (h : ∀ i : Fin 256, P (UInt8.ofFin i)) (b : UInt8) : P b :=
  h b.toFin

def isSpace (b : UInt8) : Bool := b == 0x20 || b == 0x09 || b == 0x0D || b == 0x0A

def isDigit (b : UInt8) : Bool := 0x30 ≤ b && b ≤ 0x39

def hexDigit (b : UInt8) : Option Nat :=
  if 0x30 ≤ b ∧ b ≤ 0x39 then some (b.toNat - 0x30)
  else if 0x61 ≤ b ∧ b ≤ 0x66 then some (b.toNat - 0x61 + 10)
  else if 0x41 ≤ b ∧ b ≤ 0x46 then some (b.toNat - 0x41 + 10)
  else none

/-- Whitespace between tokens. -/
structure Space where
  bytes : Bytes
  spaces : ∀ b ∈ bytes, isSpace b = true

namespace Space

def empty : Space := ⟨[], fun _ h => nomatch h⟩

def append (a b : Space) : Space :=
  ⟨a.bytes ++ b.bytes, List.forall_mem_append.mpr ⟨a.spaces, b.spaces⟩⟩

end Space

/-! ## §2 Strings -/

/-- Four hexadecimal digits. -/
structure Unit16 where
  bytes : Bytes
  digits : List Nat
  four : digits.length = 4
  reads : bytes.map hexDigit = digits.map some

def Unit16.value (u : Unit16) : Nat := u.digits.foldl (fun value digit => value * 16 + digit) 0

def isHigh (n : Nat) : Bool := 0xD800 ≤ n && n ≤ 0xDBFF
def isLow (n : Nat) : Bool := 0xDC00 ≤ n && n ≤ 0xDFFF

/-- The bytes that stand behind a backslash; `u` takes four digits. -/
def shortEscapes : Bytes := [0x22, 0x5C, 0x2F, 0x62, 0x66, 0x6E, 0x72, 0x74]

/-- A byte that stands for itself in a string, alone or as a part of a scalar. -/
def Plain (b : UInt8) : Prop := ¬b < 0x20 ∧ b ≠ 0x22 ∧ b ≠ 0x5C

/-- A part of a string that stands for one scalar. -/
inductive StringPart where
  | plain (scalar : Bytes) (valid : Codec.Scalar scalar) (unescaped : ∀ b ∈ scalar, Plain b)
  | escape (b : UInt8) (known : b ∈ shortEscapes)
  | single (unit : Unit16) (high : isHigh unit.value = false) (low : isLow unit.value = false)
  | pair (first second : Unit16) (high : isHigh first.value = true)
    (low : isLow second.value = true)

def StringPart.render : StringPart → Bytes
  | plain scalar _ _ => scalar
  | escape b _ => [0x5C, b]
  | single unit _ _ => 0x5C :: 0x75 :: unit.bytes
  | pair first second _ _ => 0x5C :: 0x75 :: (first.bytes ++ 0x5C :: 0x75 :: second.bytes)

/-- The parts of a string between its quotes. -/
def renderString (parts : List StringPart) : Bytes :=
  0x22 :: (parts.flatMap StringPart.render ++ [0x22])

/-! ## §3 Lexemes -/

/-- Digits, one at least. -/
structure Digits where
  bytes : Bytes
  nonempty : bytes ≠ []
  digits : ∀ b ∈ bytes, isDigit b = true

structure Exponent where
  letter : UInt8
  sign : Bytes
  digits : Digits
  letter_eq : letter = 0x65 ∨ letter = 0x45
  sign_eq : sign = [] ∨ sign = [0x2B] ∨ sign = [0x2D]

def Exponent.render (e : Exponent) : Bytes := e.letter :: (e.sign ++ e.digits.bytes)

/-- A number; zero is the only whole part that starts with a zero. -/
structure Number where
  minus : Bool
  whole : Digits
  fraction : Option Digits
  exponent : Option Exponent
  leading : whole.bytes = [0x30] ∨ whole.bytes.head? ≠ some 0x30

namespace Number

def minusBytes (n : Number) : Bytes := if n.minus then [0x2D] else []

def fractionBytes (n : Number) : Bytes :=
  match n.fraction with
  | none => []
  | some digits => 0x2E :: digits.bytes

def exponentBytes (n : Number) : Bytes :=
  match n.exponent with
  | none => []
  | some exponent => exponent.render

def render (n : Number) : Bytes :=
  n.minusBytes ++ (n.whole.bytes ++ (n.fractionBytes ++ n.exponentBytes))

/-- A number starts with its sign or a digit. -/
theorem render_cons (n : Number) : ∃ b bytes, n.render = b :: bytes ∧
    (b = 0x2D ∨ isDigit b = true) := by
  obtain ⟨d, ds, hds⟩ := List.exists_cons_of_ne_nil n.whole.nonempty
  have hd := n.whole.digits d (hds ▸ List.mem_cons_self)
  cases hminus : n.minus with
  | true =>
    refine ⟨0x2D, n.whole.bytes ++ (n.fractionBytes ++ n.exponentBytes), ?_, .inl rfl⟩
    rw [render, minusBytes, hminus]
    rfl
  | false =>
    refine ⟨d, ds ++ (n.fractionBytes ++ n.exponentBytes), ?_, .inr hd⟩
    rw [render, minusBytes, hminus, hds]
    rfl

end Number

inductive Literal where
  | true
  | false
  | null
  deriving DecidableEq, Repr

def Literal.render : Literal → Bytes
  | true => [0x74, 0x72, 0x75, 0x65]
  | false => [0x66, 0x61, 0x6C, 0x73, 0x65]
  | null => [0x6E, 0x75, 0x6C, 0x6C]

inductive Lexeme where
  | string (parts : List StringPart)
  | number (number : Number)
  | literal (literal : Literal)

def Lexeme.render : Lexeme → Bytes
  | string parts => renderString parts
  | number n => n.render
  | literal l => l.render

/-! ## §4 Values -/

inductive Kind where
  | object
  | array
  deriving DecidableEq, Repr

def Kind.opening : Kind → UInt8
  | object => 0x7B
  | array => 0x5B

def Kind.closing : Kind → UInt8
  | object => 0x7D
  | array => 0x5D

/-- What stands in front of a value in a container: whitespace, and in an object the key and the
colon with whitespace around them. -/
inductive Head : Kind → Type where
  | element (before : Space) : Head .array
  | member (before : Space) (key : List StringPart) (behind front : Space) : Head .object

def Head.render : {kind : Kind} → Head kind → Bytes
  | _, element before => before.bytes
  | _, member before key behind front =>
    before.bytes ++ (renderString key ++ (behind.bytes ++ 0x3A :: front.bytes))

/-- A value, or the items of a container that is not empty. -/
inductive Form where
  | value
  | items (kind : Kind)

inductive Json : Form → Type where
  | scalar (lexeme : Lexeme) : Json .value
  | empty (kind : Kind) (inner : Space) : Json .value
  | filled (kind : Kind) (items : Json (.items kind)) : Json .value
  | last {kind : Kind} (head : Head kind) (value : Json .value) (behind : Space) :
      Json (.items kind)
  | more {kind : Kind} (head : Head kind) (value : Json .value) (behind : Space)
      (rest : Json (.items kind)) : Json (.items kind)

namespace Json

def render : {form : Form} → Json form → Bytes
  | _, scalar lexeme => lexeme.render
  | _, empty kind inner => kind.opening :: (inner.bytes ++ [kind.closing])
  | _, filled kind items => kind.opening :: (items.render ++ [kind.closing])
  | _, last head value behind => head.render ++ (value.render ++ behind.bytes)
  | _, more head value behind rest =>
    head.render ++ (value.render ++ (behind.bytes ++ 0x2C :: rest.render))

/-- The containers around a value and in it, the deepest way in. -/
def height : {form : Form} → Json form → Nat
  | _, scalar _ => 0
  | _, empty _ _ => 1
  | _, filled _ items => items.height + 1
  | _, last _ value _ => value.height
  | _, more _ value _ rest => max value.height rest.height

/-- The values on the deepest way in. -/
def levels : {form : Form} → Json form → Nat
  | _, scalar _ => 1
  | _, empty _ _ => 1
  | _, filled _ items => items.levels + 1
  | _, last _ value _ => value.levels
  | _, more _ value _ rest => max value.levels rest.levels

end Json

/-! ## §5 Documents -/

/-- A JSON text. -/
structure Document where
  before : Space
  value : Json .value
  behind : Space

def Document.render (d : Document) : Bytes :=
  d.before.bytes ++ (d.value.render ++ d.behind.bytes)

end BareLine.JsonTools
