import Mathlib

/-!
# A part of TOML 1.0

Documents of one table and one array of tables, with strings, numbers and inline tables of strings
as values.  The grammar is a type of trees; `readDocument` reads what they render.
-/

namespace BareLine.Lib.Toml

/-! ## §1 Tables -/

/-- What stands behind a key; kinds that nothing here looks into are not told apart. -/
inductive Item where
  | string (text : List Char)
  | integer (value : Int)
  | inlineTable (entries : List (List Char × Item))
  | arrayOfTables (tables : List (List (List Char × Item)))
  | other

/-- Keys and items in the order they are written. -/
abbrev Table := List (List Char × Item)

namespace Item

def asString : Item → Option (List Char)
  | string text => some text
  | _ => none

def asInteger : Item → Option Int
  | integer value => some value
  | _ => none

def asInlineTable : Item → Option Table
  | inlineTable entries => some entries
  | _ => none

def asArrayOfTables : Item → Option (List Table)
  | arrayOfTables tables => some tables
  | _ => none

end Item

/-- The item of a key. -/
def Table.get (table : Table) (key : List Char) : Option Item :=
  (table.find? fun entry => entry.1 == key).map (·.2)

@[simp] theorem Table.get_nil (key : List Char) : Table.get [] key = none := rfl

/-! ## §2 Strings -/

/-- A character that a basic string may hold as it is. -/
def isUnescaped (c : Char) : Bool :=
  c != '"' && c != '\\' && c.toNat != 0x7F && (0x20 ≤ c.toNat || c == '\t')

/-- A character of a literal string. -/
def isLiteral (c : Char) : Bool := c != '\'' && c.toNat != 0x7F && (0x20 ≤ c.toNat || c == '\t')

/-- A character of a bare key. -/
def isBare (c : Char) : Bool := c.isAlphanum || c == '_' || c == '-'

/-- The letters that stand for a character behind a backslash. -/
def escapes : List (Char × Char) :=
  [('b', Char.ofNat 8), ('t', '\t'), ('n', '\n'), ('f', Char.ofNat 12), ('r', '\r'), ('"', '"'),
    ('\\', '\\')]

def hexDigit (n : Nat) : Char := if n < 10 then Char.ofNat (48 + n) else Char.ofNat (55 + n)

/-- The four digits of a character. -/
def hexDigits (c : Char) : List Char :=
  [hexDigit (c.toNat / 4096), hexDigit (c.toNat / 256 % 16), hexDigit (c.toNat / 16 % 16),
    hexDigit (c.toNat % 16)]

/-- A character of a basic string, as it is written. -/
inductive Piece where
  | plain (c : Char) (unescaped : isUnescaped c = true)
  | escape (letter c : Char) (known : (letter, c) ∈ escapes)
  | unicode (c : Char) (short : c.toNat < 0x10000)

namespace Piece

def render : Piece → List Char
  | plain c _ => [c]
  | escape letter _ _ => ['\\', letter]
  | unicode c _ => '\\' :: 'u' :: hexDigits c

def value : Piece → Char
  | plain c _ | escape _ c _ | unicode c _ => c

end Piece

def renderBasic (pieces : List Piece) : List Char := '"' :: pieces.flatMap Piece.render ++ ['"']

/-! ## §3 Values -/

inductive Value where
  | basic (pieces : List Piece)
  | literal (text : List Char) (plain : ∀ c ∈ text, isLiteral c = true)
  | integer (n : Nat)
  | inlineTable (entries : List (List Piece × List Piece))

/-- A quoted key and its value. -/
def renderPair (entry : List Piece × List Piece) : List Char :=
  renderBasic entry.1 ++ " = ".toList ++ renderBasic entry.2

namespace Value

def render : Value → List Char
  | basic pieces => renderBasic pieces
  | literal text _ => '\'' :: text ++ ['\'']
  | integer n => Nat.toDigits 10 n
  | inlineTable entries =>
    "\x7b ".toList ++ ", ".toList.intercalate (entries.map renderPair) ++ " \x7d".toList

def item : Value → Item
  | basic pieces => .string (pieces.map Piece.value)
  | literal text _ => .string text
  | integer n => .integer n
  | inlineTable entries => .inlineTable (entries.map fun entry =>
      (entry.1.map Piece.value, .string (entry.2.map Piece.value)))

/-- No key of an inline table stands twice, and a number has 64 bits. -/
def Valid : Value → Prop
  | integer n => n < 2 ^ 63
  | inlineTable entries => (entries.map fun entry => entry.1.map Piece.value).Nodup
  | _ => True

end Value

/-- A bare key. -/
structure Key where
  text : List Char
  nonempty : text ≠ []
  bare : ∀ c ∈ text, isBare c = true

/-- A key and its value. -/
structure Entry where
  key : Key
  value : Value

namespace Entry

def render (entry : Entry) : List Char := entry.key.text ++ " = ".toList ++ entry.value.render

def item (entry : Entry) : List Char × Item := (entry.key.text, entry.value.item)

end Entry

/-- The keys of a table differ. -/
structure ValidTable (entries : List Entry) : Prop where
  distinct : (entries.map fun entry => entry.key.text).Nodup
  values : ∀ entry ∈ entries, entry.value.Valid

/-! ## §4 Documents -/

/-- A table, and an array of tables behind it. -/
structure Document where
  entries : List Entry
  array : Key
  tables : List (List Entry)

namespace Document

variable (d : Document)

/-- The header of a table. -/
def header : List Char := "[[".toList ++ d.array.text ++ "]]".toList

def lines : List (List Char) :=
  d.entries.map Entry.render ++
    d.tables.flatMap fun table => [] :: d.header :: table.map Entry.render

def render : List Char := d.lines.flatMap (· ++ ['\n'])

structure Valid : Prop where
  entries : ValidTable d.entries
  tables : ∀ table ∈ d.tables, ValidTable table
  array : d.array.text ∉ d.entries.map fun entry => entry.key.text

def table : Table :=
  d.entries.map Entry.item ++
    if d.tables = [] then [] else [(d.array.text, .arrayOfTables (d.tables.map (·.map Entry.item)))]

end Document

/-- A reader of documents gives their tables. -/
def ReadsDocuments {ε : Type} (parse : List Char → Except ε Table) : Prop :=
  ∀ d : Document, d.Valid → parse d.render = .ok d.table

/-! ## §5 Reading strings -/

/-- The text behind a word it starts with. -/
def skip (word text : List Char) : Option (List Char) :=
  if word.isPrefixOf text then some (text.drop word.length) else none

@[simp] theorem skip_append (word rest : List Char) : skip word (word ++ rest) = some rest := by
  rw [skip, if_pos (List.isPrefixOf_iff_prefix.mpr (List.prefix_append _ _)), List.drop_left]

theorem skip_of_head_ne {c d : Char} (h : c ≠ d) (word rest : List Char) :
    skip (c :: word) (d :: rest) = none := by
  rw [skip, if_neg]
  simp [h]

def hexValue (c : Char) : Option Nat :=
  if c.isDigit then some (c.toNat - 48)
  else if 'A' ≤ c ∧ c ≤ 'F' then some (c.toNat - 55)
  else none

def readHex (digits : List Char) : Option Char :=
  (digits.foldlM (fun n c => (hexValue c).map (n * 16 + ·)) 0).map Char.ofNat

def readPiece : List Char → Option (Char × List Char)
  | '\\' :: 'u' :: rest => (readHex (rest.take 4)).map (·, rest.drop 4)
  | '\\' :: letter :: rest => (escapes.find? (·.1 == letter)).map fun known => (known.2, rest)
  | c :: rest => some (c, rest)
  | [] => none

def readPieces : Nat → List Char → Option (List Char × List Char)
  | 0, _ => none
  | fuel + 1, text =>
    if text.head? = some '"' then some ([], text.tail)
    else do
      let (c, rest) ← readPiece text
      let (cs, rest) ← readPieces fuel rest
      some (c :: cs, rest)

/-- A basic string, and what stands behind it. -/
def readBasic (text : List Char) : Option (List Char × List Char) :=
  match text with
  | '"' :: rest => readPieces (rest.length + 1) rest
  | _ => none

theorem hexValue_hexDigit {n : Nat} (h : n < 16) : hexValue (hexDigit n) = some n := by
  interval_cases n <;> rfl

theorem readHex_hexDigits {c : Char} (h : c.toNat < 0x10000) : readHex (hexDigits c) = some c := by
  have hvalue : ((c.toNat / 4096 * 16 + c.toNat / 256 % 16) * 16 + c.toNat / 16 % 16) * 16 +
      c.toNat % 16 = c.toNat := by omega
  simp only [readHex, hexDigits, List.foldlM_cons, List.foldlM_nil, Nat.zero_mul, Nat.zero_add]
  rw [hexValue_hexDigit (by omega), hexValue_hexDigit (by omega), hexValue_hexDigit (by omega),
    hexValue_hexDigit (by omega)]
  simp only [Option.map_some, Option.bind_eq_bind, Option.bind_some, pure, hvalue, Char.ofNat_toNat]

theorem readPiece_render (piece : Piece) (rest : List Char) :
    readPiece (piece.render ++ rest) = some (piece.value, rest) := by
  cases piece with
  | plain c unescaped =>
    have hslash : c ≠ '\\' := by
      rintro rfl
      exact absurd unescaped (by decide)
    simp only [Piece.render, Piece.value, List.singleton_append]
    rw [readPiece.eq_def]
    split <;> simp_all
  | escape letter c known =>
    fin_cases known <;> rfl
  | unicode c short =>
    show (readHex (hexDigits c)).map (·, rest) = _
    rw [readHex_hexDigits short]
    rfl

theorem head_render_ne (piece : Piece) (rest : List Char) :
    (piece.render ++ rest).head? ≠ some '"' := by
  cases piece with
  | plain c unescaped =>
    rintro h
    obtain rfl := Option.some.inj h
    exact absurd unescaped (by decide)
  | escape letter c known => exact fun h => absurd (Option.some.inj h) (by decide)
  | unicode c short => exact fun h => absurd (Option.some.inj h) (by decide)

theorem readPieces_render (pieces : List Piece) {fuel : Nat} (rest : List Char)
    (h : pieces.length < fuel) :
    readPieces fuel (pieces.flatMap Piece.render ++ '"' :: rest) =
      some (pieces.map Piece.value, rest) := by
  induction pieces generalizing fuel with
  | nil =>
    obtain ⟨fuel, rfl⟩ := Nat.exists_eq_add_of_lt h
    rfl
  | cons piece pieces ih =>
    obtain ⟨fuel, rfl⟩ := Nat.exists_eq_succ_of_ne_zero (Nat.ne_zero_of_lt h)
    rw [List.flatMap_cons, List.append_assoc, readPieces,
      if_neg (head_render_ne piece _), readPiece_render]
    simp only [Option.bind_eq_bind, Option.bind_some, ih (Nat.lt_of_succ_lt_succ h), List.map_cons]

theorem length_render_pos (piece : Piece) : 0 < piece.render.length := by
  cases piece <;> exact Nat.succ_pos _

theorem readBasic_render (pieces : List Piece) (rest : List Char) :
    readBasic (renderBasic pieces ++ rest) = some (pieces.map Piece.value, rest) := by
  have hlen : pieces.length ≤ (pieces.flatMap Piece.render).length := by
    induction pieces with
    | nil => exact Nat.zero_le _
    | cons piece pieces ih =>
      have := length_render_pos piece
      simp only [List.flatMap_cons, List.length_append, List.length_cons]
      omega
  rw [renderBasic, List.cons_append, List.cons_append, List.append_assoc, readBasic]
  refine readPieces_render pieces rest ?_
  simp only [List.length_append]
  omega

/-! ## §6 Reading documents -/

def readPair (text : List Char) : Option ((List Char × Item) × List Char) := do
  let (key, rest) ← readBasic text
  let rest ← skip " = ".toList rest
  let (value, rest) ← readBasic rest
  some ((key, .string value), rest)

def readPairs : Nat → List Char → Option (Table × List Char)
  | 0, _ => none
  | fuel + 1, text => do
    let (pair, rest) ← readPair text
    match skip ", ".toList rest with
    | some rest => do
      let (pairs, rest) ← readPairs fuel rest
      some (pair :: pairs, rest)
    | none => do
      let rest ← skip " \x7d".toList rest
      some ([pair], rest)

def readValue (text : List Char) : Option Item :=
  match text with
  | '"' :: _ => do
    let (value, rest) ← readBasic text
    if rest.isEmpty then some (.string value) else none
  | '\'' :: rest => some (.string (rest.takeWhile (· ≠ '\'')))
  | '\x7b' :: ' ' :: rest =>
    if rest = " \x7d".toList then some (.inlineTable [])
    else do
      let (pairs, rest) ← readPairs (rest.length + 1) rest
      if rest.isEmpty then some (.inlineTable pairs) else none
  | _ => some (.integer (Nat.ofDigitChars 10 text 0))

def readEntry (line : List Char) : Option (List Char × Item) := do
  let rest ← skip " = ".toList (line.dropWhile isBare)
  let item ← readValue rest
  some (line.takeWhile isBare, item)

/-- The name in a header. -/
def readHeader (line : List Char) : Option (List Char) :=
  (skip "[[".toList line).map fun rest => rest.takeWhile isBare

/-- The entries in front of the first header, and each header with the entries behind it. -/
def readLines : List (List Char) → Option (Table × List (List Char × Table))
  | [] => some ([], [])
  | line :: rest => do
    let (table, tables) ← readLines rest
    if line.isEmpty then some (table, tables)
    else
      match readHeader line with
      | some array => some ([], (array, table) :: tables)
      | none => do
        let entry ← readEntry line
        some (entry :: table, tables)

def readDocument (text : List Char) : Option Table := do
  let (table, tables) ← readLines (text.splitOn '\n')
  match tables with
  | [] => some table
  | (array, _) :: _ => some (table ++ [(array, .arrayOfTables (tables.map (·.2)))])

theorem readPair_render (entry : List Piece × List Piece) (rest : List Char) :
    readPair (renderPair entry ++ rest) =
      some ((entry.1.map Piece.value, .string (entry.2.map Piece.value)), rest) := by
  rw [renderPair, List.append_assoc, List.append_assoc, readPair, readBasic_render]
  simp only [Option.bind_eq_bind, Option.bind_some, skip_append, readBasic_render]

theorem readPairs_render {entries : List (List Piece × List Piece)} (hne : entries ≠ [])
    {fuel : Nat} (rest : List Char) (h : entries.length ≤ fuel) :
    readPairs fuel (", ".toList.intercalate (entries.map renderPair) ++ (" \x7d".toList ++ rest)) =
      some (entries.map fun entry =>
        (entry.1.map Piece.value, Item.string (entry.2.map Piece.value)), rest) := by
  induction entries generalizing fuel with
  | nil => exact absurd rfl hne
  | cons entry entries ih =>
    obtain ⟨fuel, rfl⟩ := Nat.exists_eq_succ_of_ne_zero (Nat.ne_zero_of_lt h)
    cases entries with
    | nil =>
      have hnone : skip ", ".toList (" \x7d".toList ++ rest) = none := skip_of_head_ne (by decide) _ _
      rw [List.map_singleton, List.intercalate_singleton, readPairs, readPair_render]
      simp only [Option.bind_eq_bind, Option.bind_some, hnone, skip_append, List.map_singleton]
    | cons next entries =>
      have hrest := ih (List.cons_ne_nil _ _) (Nat.le_of_succ_le_succ h)
      rw [List.map_cons, List.map_cons, List.intercalate_cons_cons, List.append_assoc,
        List.append_assoc, readPairs, readPair_render]
      rw [List.map_cons] at hrest
      simp only [Option.bind_eq_bind, Option.bind_some, skip_append, hrest, List.map_cons]

/-- The pairs start with a quote, and each of them takes some characters. -/
theorem pairs_shape {entries : List (List Piece × List Piece)} (hne : entries ≠ []) :
    (", ".toList.intercalate (entries.map renderPair)).head? = some '"' ∧
      entries.length ≤ (", ".toList.intercalate (entries.map renderPair)).length := by
  induction entries with
  | nil => exact absurd rfl hne
  | cons entry entries ih =>
    cases entries with
    | nil =>
      rw [List.map_singleton, List.intercalate_singleton]
      exact ⟨rfl, Nat.succ_le_succ (Nat.zero_le _)⟩
    | cons next entries =>
      obtain ⟨-, hlen⟩ := ih (List.cons_ne_nil _ _)
      rw [List.map_cons, List.map_cons, List.intercalate_cons_cons]
      refine ⟨rfl, ?_⟩
      rw [List.map_cons] at hlen
      have hcomma : ", ".toList.length = 2 := rfl
      rw [List.length_append, List.length_append, List.length_cons, hcomma]
      omega

theorem readValue_render (value : Value) : readValue value.render = some value.item := by
  cases value with
  | basic pieces =>
    have hread := readBasic_render pieces []
    rw [List.append_nil] at hread
    rw [Value.render, renderBasic, List.cons_append, readValue, ← List.cons_append, ← renderBasic,
      hread]
    rfl
  | literal text plain =>
    have hbody : (text ++ ['\'']).takeWhile (· ≠ '\'') = text := by
      rw [List.takeWhile_append_of_pos]
      · exact List.append_nil _
      · intro c hc
        refine decide_eq_true ?_
        rintro rfl
        exact absurd (plain _ hc) (by decide)
    rw [Value.render, List.cons_append, readValue, hbody]
    rfl
  | integer n =>
    rw [Value.render, readValue.eq_def]
    obtain ⟨c, digits, hdigits⟩ :=
      List.exists_cons_of_ne_nil (Nat.toDigits_ne_nil (n := n) (b := 10))
    have hc : c.isDigit = true :=
      Nat.isDigit_of_mem_toDigits (by decide) (by decide) (hdigits ▸ List.mem_cons_self)
    have hall := Nat.ofDigitChars_ten_toDigits (n := n)
    rw [hdigits] at hall ⊢
    split
    · exact absurd hc (by simp_all)
    · exact absurd hc (by simp_all)
    · exact absurd hc (by simp_all)
    · rw [hall]
      rfl
  | inlineTable entries =>
    by_cases hne : entries = []
    · subst hne
      rfl
    · obtain ⟨hhead, hlen⟩ := pairs_shape hne
      obtain ⟨tail, htail⟩ := List.head?_eq_some_iff.mp hhead
      have hlong : entries.length ≤
          (", ".toList.intercalate (entries.map renderPair) ++ " \x7d".toList).length + 1 := by
        rw [List.length_append]
        omega
      have hother : ", ".toList.intercalate (entries.map renderPair) ++ " \x7d".toList ≠
          " \x7d".toList := by
        rw [htail, List.cons_append]
        exact fun h => absurd (List.cons.inj h).1 (by decide)
      have hread := readPairs_render hne [] hlong
      rw [List.append_nil] at hread
      have hrender : (Value.inlineTable entries).render = '\x7b' :: ' ' ::
          (", ".toList.intercalate (entries.map renderPair) ++ " \x7d".toList) := by
        rw [Value.render, List.append_assoc]
        rfl
      rw [hrender, readValue, if_neg hother, hread]
      rfl

/-- A word of bare characters is what is in front of any other one. -/
theorem split_bare {key : List Char} (rest : List Char) (hkey : ∀ c ∈ key, isBare c = true)
    {c : Char} (hc : isBare c = false) :
    (key ++ c :: rest).takeWhile isBare = key ∧
      (key ++ c :: rest).dropWhile isBare = c :: rest := by
  rw [List.takeWhile_append_of_pos hkey, List.dropWhile_append_of_pos hkey]
  simp [hc]

theorem readEntry_render (entry : Entry) : readEntry entry.render = some entry.item := by
  obtain ⟨htake, hdrop⟩ := split_bare ("= ".toList ++ entry.value.render) entry.key.bare
    (c := ' ') rfl
  have hrender : entry.render = entry.key.text ++ ' ' :: ("= ".toList ++ entry.value.render) := by
    rw [Entry.render, List.append_assoc]
    rfl
  rw [readEntry, hrender, htake, hdrop]
  show (skip " = ".toList (" = ".toList ++ entry.value.render) >>= _) = _
  simp only [Option.bind_eq_bind, Option.bind_some, skip_append, readValue_render]
  rfl

/-- An entry is no header, and no empty line. -/
theorem render_shape (entry : Entry) :
    entry.render.isEmpty = false ∧ readHeader entry.render = none := by
  obtain ⟨c, key, hkey⟩ := List.exists_cons_of_ne_nil entry.key.nonempty
  have hc : c ≠ '[' := by
    rintro rfl
    exact absurd (entry.key.bare '[' (hkey ▸ List.mem_cons_self)) (by decide)
  rw [Entry.render, hkey, List.append_assoc, List.cons_append]
  refine ⟨rfl, ?_⟩
  rw [readHeader, show "[[".toList = ['[', '['] from rfl, skip_of_head_ne (Ne.symm hc)]
  rfl

/-- Entries are read in front of whatever stands behind them. -/
theorem readLines_entries (entries : List Entry) {rest : List (List Char)} {table : Table}
    {tables : List (List Char × Table)} (h : readLines rest = some (table, tables)) :
    readLines (entries.map Entry.render ++ rest) =
      some (entries.map Entry.item ++ table, tables) := by
  induction entries with
  | nil => exact h
  | cons entry entries ih =>
    obtain ⟨hempty, hheader⟩ := render_shape entry
    rw [List.map_cons, List.cons_append, readLines, ih, hheader]
    simp only [Option.bind_eq_bind, Option.bind_some, hempty, Bool.false_eq_true, if_false,
      readEntry_render]
    rfl

theorem newline_notMem_bare {key : List Char} (h : ∀ c ∈ key, isBare c = true) : '\n' ∉ key :=
  fun hmem => absurd (h _ hmem) (by decide)

theorem newline_notMem_basic (pieces : List Piece) : '\n' ∉ renderBasic pieces := by
  have hdigit {n : Nat} (h : n < 16) : '\n' ≠ hexDigit n := by
    intro heq
    have hvalue := hexValue_hexDigit h
    rw [← heq] at hvalue
    exact nomatch hvalue
  have hpiece (piece : Piece) : '\n' ∉ piece.render := by
    cases piece with
    | plain c unescaped =>
      rw [Piece.render, List.mem_singleton]
      rintro rfl
      exact absurd unescaped (by decide)
    | escape letter c known => fin_cases known <;> decide
    | unicode c short =>
      simp only [Piece.render, hexDigits, List.mem_cons, List.not_mem_nil, not_or]
      exact ⟨by decide, by decide, hdigit (by omega), hdigit (by omega), hdigit (by omega),
        hdigit (by omega), not_false⟩
  simp only [renderBasic, List.cons_append, List.mem_cons, List.mem_append, List.mem_flatMap,
    not_or, not_exists, not_and]
  exact ⟨by decide, fun piece _ => hpiece piece, by decide, List.not_mem_nil⟩

theorem newline_notMem_entry (entry : Entry) : '\n' ∉ entry.render := by
  have hvalue : '\n' ∉ entry.value.render := by
    cases entry.value with
    | basic pieces => exact newline_notMem_basic pieces
    | literal text plain =>
      simp only [Value.render, List.cons_append, List.mem_cons, List.mem_append, not_or]
      exact ⟨by decide, fun hmem => absurd (plain _ hmem) (by decide), by decide, List.not_mem_nil⟩
    | integer n =>
      intro hmem
      exact absurd (Nat.isDigit_of_mem_toDigits (by decide) (by decide) hmem) (by decide)
    | inlineTable entries =>
      have hpairs : '\n' ∉ ", ".toList.intercalate (entries.map renderPair) := by
        induction entries with
        | nil => exact List.not_mem_nil
        | cons pair entries ih =>
          have hpair : '\n' ∉ renderPair pair := by
            simp only [renderPair, List.mem_append, not_or]
            exact ⟨⟨newline_notMem_basic _, by decide⟩, newline_notMem_basic _⟩
          cases entries with
          | nil => rwa [List.map_singleton, List.intercalate_singleton]
          | cons next entries =>
            rw [List.map_cons, List.map_cons, List.intercalate_cons_cons, List.mem_append,
              List.mem_append, not_or, not_or]
            exact ⟨⟨hpair, by decide⟩, ih⟩
      simp only [Value.render, List.mem_append, not_or]
      exact ⟨⟨by decide, hpairs⟩, by decide⟩
  simp only [Entry.render, List.mem_append, not_or]
  exact ⟨⟨newline_notMem_bare entry.key.bare, by decide⟩, hvalue⟩

namespace Document

variable (d : Document)

theorem readHeader_header : readHeader d.header = some d.array.text := by
  obtain ⟨htake, -⟩ := split_bare [']'] d.array.bare (c := ']') rfl
  rw [readHeader, header, List.append_assoc, skip_append]
  exact congrArg some htake

theorem readLines_tables (tables : List (List Entry)) :
    readLines ((tables.flatMap fun table => [] :: d.header :: table.map Entry.render) ++ [[]]) =
      some ([], tables.map fun table => (d.array.text, table.map Entry.item)) := by
  induction tables with
  | nil => rfl
  | cons table tables ih =>
    have htable := readLines_entries table ih
    have hempty : d.header.isEmpty = false := rfl
    rw [List.append_nil] at htable
    rw [List.flatMap_cons, List.append_assoc, List.cons_append, List.cons_append, readLines,
      readLines, htable]
    simp only [Option.bind_eq_bind, Option.bind_some, hempty, Bool.false_eq_true, if_false,
      d.readHeader_header, List.isEmpty_nil, if_true, List.map_cons]

/-- No line holds a line feed. -/
theorem newline_notMem_lines : ∀ line ∈ d.lines, '\n' ∉ line := by
  intro line hline
  obtain hline | hline := List.mem_append.mp hline
  · obtain ⟨entry, -, rfl⟩ := List.mem_map.mp hline
    exact newline_notMem_entry entry
  · obtain ⟨table, -, hline⟩ := List.mem_flatMap.mp hline
    obtain rfl | hline := List.mem_cons.mp hline
    · exact List.not_mem_nil
    obtain rfl | hline := List.mem_cons.mp hline
    · simp only [header, List.mem_append, not_or]
      exact ⟨⟨by decide, newline_notMem_bare d.array.bare⟩, by decide⟩
    · obtain ⟨entry, -, rfl⟩ := List.mem_map.mp hline
      exact newline_notMem_entry entry

theorem splitOn_lines {lines : List (List Char)} (h : ∀ line ∈ lines, '\n' ∉ line) :
    (lines.flatMap (· ++ ['\n'])).splitOn '\n' = lines ++ [[]] := by
  induction lines with
  | nil => rfl
  | cons line lines ih =>
    obtain ⟨hline, hlines⟩ := List.forall_mem_cons.mp h
    rw [List.flatMap_cons, List.append_assoc, List.singleton_append,
      List.splitOn_append_cons_self_of_not_mem hline, ih hlines, List.cons_append]

/-- The reader reads every document. -/
theorem readDocument_render : readDocument d.render = some d.table := by
  have hlines := readLines_entries d.entries (d.readLines_tables d.tables)
  rw [← List.append_assoc, List.append_nil] at hlines
  rw [readDocument, render, splitOn_lines d.newline_notMem_lines, lines, hlines]
  simp only [Option.bind_eq_bind, Option.bind_some]
  rw [table]
  cases d.tables with
  | nil => exact congrArg some (List.append_nil _).symm
  | cons first tables =>
    rw [if_neg (List.cons_ne_nil _ _), List.map_cons, List.map_cons]
    simp only [List.map_cons, List.map_map, Function.comp_def]

end Document

end BareLine.Lib.Toml
