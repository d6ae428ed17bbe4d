import BareLine.JsonTools.Grammar
import BareLine.Power.Rows

/-!
# Pages of a JSON tree

The tree command lists a document page by page.  A page stops after some bytes or some nodes and
offers the arguments of the next one, which hold all that the scan knows about its place.

A text the user sees is its scalars, a document is its bytes.
-/

namespace BareLine.JsonTools

open Lib
open Search (Text)
open Power (trim isWhitespace)
open String (utf8Len)

/-! ## §1 Arguments -/

/-- `str::lines`, behind a part of a line. -/
def linesFrom : Text → Text → List Text
  | line, [] => if line.isEmpty then [] else [line]
  | line, c :: rest =>
    if c = '\n' then
      (if line.getLast? = some '\r' then line.dropLast else line) :: linesFrom [] rest
    else linesFrom (line ++ [c]) rest

/-- `str::lines` -/
def lines (text : Text) : List Text := linesFrom [] text

/-- `split_once('=')` -/
def splitOnce (line : Text) : Option (Text × Text) :=
  if '=' ∈ line then some (line.takeWhile (· ≠ '='), (line.dropWhile (· ≠ '=')).tail) else none

/-- `char::to_digit` -/
def toDigit (radix : Nat) (c : Char) : Option Nat :=
  let digit :=
    if '0' ≤ c ∧ c ≤ '9' then some (c.toNat - '0'.toNat)
    else if 'a' ≤ c ∧ c ≤ 'z' then some (c.toNat - 'a'.toNat + 10)
    else if 'A' ≤ c ∧ c ≤ 'Z' then some (c.toNat - 'A'.toNat + 10)
    else none
  digit.filter (· < radix)

/-- `u64::from_str_radix`; `str::parse` has the radix ten. -/
def fromStrRadix (radix : Nat) (text : Text) : Option Nat :=
  let digits := if text.head? = some '+' then text.tail else text
  if digits.isEmpty then none
  else (digits.foldlM (fun n c => (toDigit radix c).map (n * radix + ·)) 0).filter (· < 2 ^ 64)

/-- The loop of `numeric_arguments`. -/
def readArguments (allowed : List Text) :
    List Text → List (Text × Nat) → Except String (List (Text × Nat))
  | [], values => .ok values
  | line :: rest, values =>
    match splitOnce line with
    | none => .error "arguments use key=value, one per line"
    | some (key, value) =>
      let key := trim key
      let value := trim value
      if !allowed.contains key then .error ("unknown argument: " ++ String.ofList key)
      else
        match
          if ['0', 'x'] <+: value then fromStrRadix 16 (value.drop 2) else fromStrRadix 10 value
        with
        | none => .error ("invalid numeric argument: " ++ String.ofList key)
        | some number =>
          if (values.lookup key).isSome then .error ("duplicate argument: " ++ String.ofList key)
          else readArguments allowed rest (values ++ [(key, number)])

/-- `numeric_arguments` -/
def numericArguments (text : Text) (allowed : List Text) : Except String (List (Text × Nat)) :=
  if utf8Len text > 4096 then .error "arguments exceed 4096 bytes"
  else readArguments allowed ((lines text).filter fun line => !(trim line).isEmpty) []

/-! ## §2 Cursors -/

/-- `Cursor`; the mode is 2 in a string, 1 in a number or a literal and 0 between tokens. -/
structure Cursor where
  start : Nat
  stop : Nat
  offset : Nat
  depth : Nat
  mode : Nat
  escaped : Bool
  deriving DecidableEq, Repr

def cursorKeys : List Text :=
  ["start", "end", "cursor", "depth", "mode", "escaped"].map String.toList

/-- The checks of `Cursor::parse` -/
def Cursor.check (start stop offset depth mode escaped length : Nat) : Except String Cursor :=
  if start > stop ∨ stop > length ∨ offset < start ∨ offset > stop ∨ depth > 128 ∨ mode > 2 ∨
      escaped > 1 ∨ escaped = 1 ∧ mode ≠ 2 then
    .error "invalid JSON tree cursor"
  else .ok ⟨start, stop, offset, depth, mode, escaped = 1⟩

/-- `Cursor::parse` -/
def Cursor.parse (arguments : Text) (length : Nat) : Except String Cursor := do
  let values ← numericArguments arguments cursorKeys
  let start := (values.lookup "start".toList).getD 0
  let stop := (values.lookup "end".toList).getD length
  let offset := (values.lookup "cursor".toList).getD start
  let depth := (values.lookup "depth".toList).getD 0
  let mode := (values.lookup "mode".toList).getD 0
  let escaped := (values.lookup "escaped".toList).getD 0
  Cursor.check start stop offset depth mode escaped length

/-- `{key}={value}` -/
def argument (key : String) (value : Nat) : Text := key.toList ++ '=' :: Nat.toDigits 10 value

/-- `Cursor::arguments` -/
def Cursor.arguments (self : Cursor) : Text :=
  argument "start" self.start ++ '\n' :: (argument "end" self.stop ++ '\n' ::
    (argument "cursor" self.offset ++ '\n' :: (argument "depth" self.depth ++ '\n' ::
      (argument "mode" self.mode ++ '\n' :: argument "escaped" self.escaped.toNat))))

/-! ## §3 Pages -/

/-- A line that lists a node: how far it is indented, in pairs of spaces, what it is and where. -/
structure Listed where
  indent : Nat
  kind : String
  offset : Nat
  deriving DecidableEq, Repr

/-- The kinds that are listed with the arguments that expand them. -/
def Listed.isContainer (l : Listed) : Bool := l.kind == "object" || l.kind == "array"

/-- What a page shows: the nodes, and the arguments of the next page if there is one. -/
structure Page where
  listed : List Listed
  next : Option Text
  deriving DecidableEq, Repr

/-- The kind a token starts. -/
def kindOf (b : UInt8) : Option String :=
  if b = 0x7B then some "object"
  else if b = 0x5B then some "array"
  else if b = 0x22 then some "string/key"
  else if b = 0x2D ∨ isDigit b then some "number"
  else if b = 0x74 ∨ b = 0x66 then some "boolean"
  else if b = 0x6E then some "null"
  else none

/-- A byte ends a number or a literal. -/
def endsScalar (b : UInt8) : Bool := isSpace b || b == 0x2C || b == 0x5D || b == 0x7D

/-- What the loop of `page` does at one byte: the node it lists, where it goes on, and whether the
selected range is at its end. -/
structure Step where
  listed : Option Listed
  cursor : Cursor
  finished : Bool

/-- The loop of `page` at a byte between tokens. -/
def stepToken (b : UInt8) (listedAt : Nat) (cursor : Cursor) : Except String Step :=
  match kindOf b with
  | some kind =>
    let listed := some ⟨min cursor.depth 16, kind, listedAt⟩
    if b = 0x7B ∨ b = 0x5B then
      if cursor.depth + 1 > 128 then .error "JSON depth limit (128)"
      else .ok ⟨listed, { cursor with depth := cursor.depth + 1 }, false⟩
    else if b = 0x22 then .ok ⟨listed, { cursor with mode := 2 }, false⟩
    else .ok ⟨listed, { cursor with mode := 1 }, false⟩
  | none =>
    if b = 0x7D ∨ b = 0x5D then
      if cursor.depth = 0 then .error "unbalanced JSON tree range"
      else .ok ⟨none, { cursor with depth := cursor.depth - 1 }, cursor.depth = 1⟩
    else if isSpace b ∨ b = 0x2C ∨ b = 0x3A then .ok ⟨none, cursor, false⟩
    else .error ("unexpected JSON byte at TextOffset " ++
      String.ofList (Nat.toDigits 10 listedAt) ++ "; run Validate")

/-- The loop of `page` at one byte. -/
def step (b : UInt8) (cursor : Cursor) : Except String Step :=
  let listedAt := cursor.offset
  let cursor := { cursor with offset := cursor.offset + 1 }
  if cursor.mode = 2 then
    if cursor.escaped then .ok ⟨none, { cursor with escaped := false }, false⟩
    else if b = 0x5C then .ok ⟨none, { cursor with escaped := true }, false⟩
    else if b = 0x22 then .ok ⟨none, { cursor with mode := 0 }, false⟩
    else .ok ⟨none, cursor, false⟩
  else if cursor.mode = 1 then
    if endsScalar b then stepToken b listedAt { cursor with mode := 0 }
    else .ok ⟨none, cursor, false⟩
  else stepToken b listedAt cursor

/-- Where the loop of `page` stops: the nodes it listed, the cursor, and whether the selected
range is at its end. -/
structure Stop where
  listed : List Listed
  cursor : Cursor
  finished : Bool

section Limits

variable (pageBytes pageNodes : Nat)

/-- The loop of `page`, over the bytes its input still has. -/
def loop : Bytes → Cursor → Nat → Nat → Except String Stop
  | input, cursor, consumed, nodes =>
    if cursor.offset < cursor.stop ∧ consumed < pageBytes ∧ nodes < pageNodes then
      match input with
      | [] => .error "tree range ended early"
      | b :: input =>
        match step b cursor with
        | .error error => .error error
        | .ok ⟨listed, cursor, finished⟩ =>
          if finished then .ok ⟨listed.toList, cursor, true⟩
          else (loop input cursor (consumed + 1) (nodes + listed.toList.length)).map fun stop =>
            { stop with listed := listed.toList ++ stop.listed }
    else .ok ⟨[], cursor, false⟩

/-- `page` -/
def page (input : Bytes) (cursor : Cursor) : Except String Page :=
  (loop pageBytes pageNodes input cursor 0 0).map fun stop =>
    ⟨stop.listed, if !stop.finished && decide (stop.cursor.offset < stop.cursor.stop) then
      some stop.cursor.arguments else none⟩

/-- `run`: the page that some arguments ask for. -/
def run (text : Bytes) (arguments : Text) : Except String Page := do
  let cursor ← Cursor.parse arguments text.length
  page pageBytes pageNodes ((text.take cursor.stop).drop cursor.offset) cursor

/-! ## §4 Following -/

/-- Page after page, each with the arguments the one before it offers; `none` if that did not
come to an end. -/
def follow (text : Bytes) : Nat → Text → Except String (Option (List Page))
  | 0, _ => .ok none
  | fuel + 1, arguments => do
    let first ← run pageBytes pageNodes text arguments
    match first.next with
    | none => .ok (some [first])
    | some arguments => do
      let rest ← follow text fuel arguments
      .ok (rest.map (first :: ·))

end Limits

def PAGE_BYTES : Nat := 65536
def PAGE_NODES : Nat := 256

end BareLine.JsonTools
