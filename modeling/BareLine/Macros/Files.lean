import BareLine.Lib.Toml
import BareLine.Macros.Recorder

/-!
# Macro files

A macro is written as a TOML document: its name, and a table for each event.  The TOML reader is a
parameter.
-/

namespace BareLine.Macros

open Lib
open String (utf8Len)

/-! ## §1 Writing -/

/-- The `match` of `quote`; a control character is written with `{:04X}`. -/
def quoteChar (c : Char) : Text :=
  if c = '\\' then ['\\', '\\']
  else if c = '"' then ['\\', '"']
  else if c = '\n' then ['\\', 'n']
  else if c = '\r' then ['\\', 'r']
  else if c = '\t' then ['\\', 't']
  else if isControl c then '\\' :: 'u' :: Toml.hexDigits c
  else [c]

/-- `quote` -/
def quote (value : Text) : Text := '"' :: value.flatMap quoteChar ++ ['"']

/-- The table of an event in `Macro::export_toml`. -/
def MacroEvent.exportToml : MacroEvent → Text
  | .command id arguments =>
    "kind = 'command'\ncommand = ".toList ++ quote id ++ ['\n'] ++ "arguments = \x7b ".toList ++
      ", ".toList.intercalate
        (arguments.pairs.map fun pair => quote pair.1 ++ " = ".toList ++ quote pair.2) ++
      " \x7d\n".toList
  | .typeText id text intervalMs =>
    "kind = 'type_text'\ncommand = ".toList ++ quote id ++ "\ntext = ".toList ++ quote text ++
      "\ninterval_ms = ".toList ++ Nat.toDigits 10 intervalMs ++ ['\n']

/-- `Macro::export_toml` -/
def Macro.exportToml (m : Macro) : Text :=
  "format_version = 1\nname = ".toList ++ quote m.name ++ ['\n'] ++
    m.events.flatMap fun event => "\n[[events]]\n".toList ++ event.exportToml

/-! ## §2 Reading -/

/-- `ok_or` -/
def okOr {α : Type} (message : String) : Option α → Except String α
  | some a => .ok a
  | none => .error message

namespace Arguments

def insertPair (key value : Text) : List (Text × Text) → List (Text × Text)
  | [] => [(key, value)]
  | pair :: pairs =>
    if key < pair.1 then (key, value) :: pair :: pairs
    else if pair.1 < key then pair :: insertPair key value pairs
    else (key, value) :: pairs

theorem mem_insertPair {key value : Text} {pairs : List (Text × Text)} {pair : Text × Text}
    (h : pair ∈ insertPair key value pairs) : pair = (key, value) ∨ pair ∈ pairs := by
  induction pairs with
  | nil => exact .inl (List.mem_singleton.mp h)
  | cons first pairs ih =>
    rw [insertPair] at h
    split_ifs at h
    · exact List.mem_cons.mp h
    · obtain rfl | h := List.mem_cons.mp h
      · exact .inr List.mem_cons_self
      · exact (ih h).imp_right (List.mem_cons_of_mem _)
    · exact (List.mem_cons.mp h).imp_right (List.mem_cons_of_mem _)

theorem sorted_insertPair {key value : Text} {pairs : List (Text × Text)}
    (h : pairs.Pairwise fun a b => a.1 < b.1) :
    (insertPair key value pairs).Pairwise fun a b => a.1 < b.1 := by
  induction pairs with
  | nil => exact List.pairwise_singleton _ _
  | cons first pairs ih =>
    obtain ⟨hfirst, hpairs⟩ := List.pairwise_cons.mp h
    rw [insertPair]
    split_ifs with hlt hgt
    · refine List.pairwise_cons.mpr ⟨List.forall_mem_cons.mpr ⟨hlt, ?_⟩, h⟩
      exact fun pair hpair => lt_trans hlt (hfirst pair hpair)
    · refine List.pairwise_cons.mpr ⟨fun pair hpair => ?_, ih hpairs⟩
      obtain rfl | hpair := mem_insertPair hpair
      · exact hgt
      · exact hfirst pair hpair
    · obtain heq : key = first.1 := le_antisymm (not_lt.mp hgt) (not_lt.mp hlt)
      exact List.pairwise_cons.mpr ⟨fun pair hpair => heq ▸ hfirst pair hpair, hpairs⟩

/-- `BTreeMap::insert` -/
def insert (arguments : Arguments) (key value : Text) : Arguments :=
  ⟨insertPair key value arguments.pairs, sorted_insertPair arguments.sorted⟩

/-- A key behind all others. -/
theorem insertPair_last {key value : Text} {pairs : List (Text × Text)}
    (h : ∀ pair ∈ pairs, pair.1 < key) :
    insertPair key value pairs = pairs ++ [(key, value)] := by
  induction pairs with
  | nil => rfl
  | cons first pairs ih =>
    obtain ⟨hfirst, hpairs⟩ := List.forall_mem_cons.mp h
    rw [insertPair, if_neg (not_lt_of_gt hfirst), if_pos hfirst, ih hpairs, List.cons_append]

end Arguments

/-- The arguments of a command in `Macro::import_toml`. -/
def importArguments (table : Toml.Table) : Except String Arguments :=
  match table.get "arguments".toList with
  | none => .ok .empty
  | some value => do
    let values ← okOr "arguments must be an inline table" value.asInlineTable
    values.foldlM (fun arguments entry => do
      let value ← okOr "Arguments must be strings" entry.2.asString
      .ok (arguments.insert entry.1 value)) .empty

/-- The fields of a kind of event. -/
def allowedFields (kind : Text) : Except String (List Text) :=
  if kind = "command".toList then
    .ok ["kind".toList, "command".toList, "arguments".toList]
  else if kind = "type_text".toList then
    .ok ["kind".toList, "command".toList, "text".toList, "interval_ms".toList]
  else .error ("Unknown event kind: " ++ String.ofList kind)

/-- An event in `Macro::import_toml`. -/
def importEvent (table : Toml.Table) : Except String MacroEvent := do
  let kind ← okOr "Missing event kind" ((table.get "kind".toList).bind Toml.Item.asString)
  let id ← okOr "Missing event command" ((table.get "command".toList).bind Toml.Item.asString)
  let allowed ← allowedFields kind
  if table.any fun entry => !allowed.contains entry.1 then .error "Unknown event field"
  else if kind = "command".toList then do
    let arguments ← importArguments table
    .ok (.command id arguments)
  else do
    let text ← okOr "Missing typing text" ((table.get "text".toList).bind Toml.Item.asString)
    let interval ← okOr "Missing typing interval"
      ((table.get "interval_ms".toList).bind Toml.Item.asInteger)
    if interval < 0 then .error "Negative typing interval"
    else .ok (.typeText id text interval.toNat)

/-- `Macro::import_toml` -/
def importToml {κ : Type} (parse : Text → Except String Toml.Table) (text : Text)
    (registry : CommandRegistry κ) : Except String Macro :=
  if MAX_FILE_BYTES < utf8Len text then .error "Macro exceeds 4 MiB"
  else do
    let doc ← parse text
    if (doc.get "format_version".toList).bind Toml.Item.asInteger ≠ some 1 then
      .error "Unsupported macro format_version"
    else if doc.any fun entry =>
        !(["format_version".toList, "name".toList, "events".toList].contains entry.1) then
      .error "Unknown macro field"
    else do
      let name ← okOr "Missing macro name" ((doc.get "name".toList).bind Toml.Item.asString)
      let tables ← okOr "Missing macro events"
        ((doc.get "events".toList).bind Toml.Item.asArrayOfTables)
      if MAX_EVENTS < tables.length then .error "Too many macro events"
      else do
        let events ← tables.mapM importEvent
        (⟨name, events⟩ : Macro).validate registry
        .ok ⟨name, events⟩

/-! ## §3 The document of a macro -/

/-- How `quote` writes a character. -/
def piece (c : Char) : Toml.Piece :=
  if h : c = '\\' then .escape '\\' c (by subst h; decide)
  else if h : c = '"' then .escape '"' c (by subst h; decide)
  else if h : c = '\n' then .escape 'n' c (by subst h; decide)
  else if h : c = '\r' then .escape 'r' c (by subst h; decide)
  else if h : c = '\t' then .escape 't' c (by subst h; decide)
  else if h : isControl c then .unicode c (by
    simp only [isControl, Bool.or_eq_true, decide_eq_true_iff, Bool.and_eq_true] at h
    omega)
  else .plain c (by
    simp only [isControl, Bool.or_eq_true, decide_eq_true_iff, Bool.and_eq_true] at h
    simp only [Toml.isUnescaped, bne_iff_ne, Bool.and_eq_true, Bool.or_eq_true, decide_eq_true_iff]
    exact ⟨⟨⟨‹_›, ‹_›⟩, by omega⟩, .inl (by omega)⟩)

theorem piece_spec (c : Char) : (piece c).render = quoteChar c ∧ (piece c).value = c := by
  rw [piece, quoteChar]
  split_ifs <;> exact ⟨rfl, rfl⟩

theorem renderBasic_pieces (text : Text) : Toml.renderBasic (text.map piece) = quote text := by
  rw [Toml.renderBasic, quote, List.flatMap_map]
  exact congrArg (fun body => '"' :: body ++ ['"'])
    (List.flatMap_congr fun c _ => (piece_spec c).1)

theorem value_pieces (text : Text) : (text.map piece).map Toml.Piece.value = text := by
  rw [List.map_map]
  exact List.map_id'' (fun c => (piece_spec c).2) text

/-- A key of a macro file. -/
def keyOf (text : Text) (h : text.all Toml.isBare = true ∧ text ≠ []) : Toml.Key :=
  ⟨text, h.2, List.all_eq_true.mp h.1⟩

/-- The entries of an event. -/
def MacroEvent.entries : MacroEvent → List Toml.Entry
  | .command id arguments => [
      ⟨keyOf "kind".toList (by decide),
        .literal "command".toList (List.all_eq_true.mp (by decide))⟩,
      ⟨keyOf "command".toList (by decide), .basic (id.map piece)⟩,
      ⟨keyOf "arguments".toList (by decide), .inlineTable (arguments.pairs.map fun pair =>
        (pair.1.map piece, pair.2.map piece))⟩]
  | .typeText id text intervalMs => [
      ⟨keyOf "kind".toList (by decide),
        .literal "type_text".toList (List.all_eq_true.mp (by decide))⟩,
      ⟨keyOf "command".toList (by decide), .basic (id.map piece)⟩,
      ⟨keyOf "text".toList (by decide), .basic (text.map piece)⟩,
      ⟨keyOf "interval_ms".toList (by decide), .integer intervalMs⟩]

/-- The document of a macro. -/
def Macro.document (m : Macro) : Toml.Document where
  entries := [
    ⟨keyOf "format_version".toList (by decide), .integer 1⟩,
    ⟨keyOf "name".toList (by decide), .basic (m.name.map piece)⟩]
  array := keyOf "events".toList (by decide)
  tables := m.events.map MacroEvent.entries

theorem MacroEvent.exportToml_command (id : Text) (arguments : Arguments) :
    (MacroEvent.command id arguments).exportToml =
      "kind = 'command'\ncommand = ".toList ++ quote id ++ ['\n'] ++ "arguments = \x7b ".toList ++
        ", ".toList.intercalate
          (arguments.pairs.map fun pair => quote pair.1 ++ " = ".toList ++ quote pair.2) ++
        " \x7d\n".toList := rfl

theorem MacroEvent.exportToml_typeText (id text : Text) (intervalMs : Nat) :
    (MacroEvent.typeText id text intervalMs).exportToml =
      "kind = 'type_text'\ncommand = ".toList ++ quote id ++ "\ntext = ".toList ++ quote text ++
        "\ninterval_ms = ".toList ++ Nat.toDigits 10 intervalMs ++ ['\n'] := rfl

/-- An event is written as its entries. -/
theorem MacroEvent.render_entries (event : MacroEvent) :
    (event.entries.map Toml.Entry.render).flatMap (· ++ ['\n']) = event.exportToml := by
  cases event with
  | command id arguments =>
    have hpairs : (arguments.pairs.map fun pair => (pair.1.map piece, pair.2.map piece)).map
        Toml.renderPair =
        arguments.pairs.map fun pair => quote pair.1 ++ " = ".toList ++ quote pair.2 := by
      rw [List.map_map]
      refine List.map_congr_left fun pair _ => ?_
      rw [Function.comp_apply, Toml.renderPair, renderBasic_pieces, renderBasic_pieces]
    rw [entries, exportToml_command]
    simp only [List.map_cons, List.map_nil, List.flatMap_cons, List.flatMap_nil, Toml.Entry.render,
      Toml.Value.render, renderBasic_pieces, hpairs]
    simp only [keyOf, List.append_assoc, List.cons_append, List.nil_append, String.reduceToList]
  | typeText id text intervalMs =>
    rw [entries, exportToml_typeText]
    simp only [List.map_cons, List.map_nil, List.flatMap_cons, List.flatMap_nil, Toml.Entry.render,
      Toml.Value.render, renderBasic_pieces]
    simp only [keyOf, List.append_assoc, List.cons_append, List.nil_append, String.reduceToList]

theorem Macro.exportToml_eq (m : Macro) : m.exportToml =
    "format_version = 1\nname = ".toList ++ quote m.name ++ ['\n'] ++
      m.events.flatMap fun event => "\n[[events]]\n".toList ++ event.exportToml := rfl

/-- A macro is written as its document. -/
theorem Macro.render_document (m : Macro) : m.document.render = m.exportToml := by
  have htables : ∀ events : List MacroEvent,
      ((events.map MacroEvent.entries).flatMap fun table =>
        [] :: m.document.header :: table.map Toml.Entry.render).flatMap (· ++ ['\n']) =
      events.flatMap fun event => "\n[[events]]\n".toList ++ event.exportToml := by
    intro events
    induction events with
    | nil => rfl
    | cons event events ih =>
      rw [List.map_cons, List.flatMap_cons, List.flatMap_append, ih, List.flatMap_cons,
        List.flatMap_cons, List.flatMap_cons, event.render_entries]
      rfl
  rw [Toml.Document.render, Toml.Document.lines, List.flatMap_append]
  rw [show m.document.tables = m.events.map MacroEvent.entries from rfl, htables, exportToml_eq]
  have hfront : (m.document.entries.map Toml.Entry.render).flatMap (· ++ ['\n']) =
      "format_version = 1\nname = ".toList ++ quote m.name ++ ['\n'] := by
    rw [document]
    simp only [List.map_cons, List.map_nil, List.flatMap_cons, List.flatMap_nil, Toml.Entry.render,
      Toml.Value.render, renderBasic_pieces]
    simp only [keyOf, List.append_assoc, List.cons_append, List.nil_append, String.reduceToList]
    rfl
  rw [hfront]

/-! ## §4 Sizes -/

theorem utf8Len_quoteChar (c : Char) : utf8Len (quoteChar c) ≤ 6 * c.utf8Size := by
  have hpos := c.utf8Size_pos
  have hshort : 2 ≤ 6 * c.utf8Size := by omega
  have hhex {n : Nat} (h : n < 16) : (Toml.hexDigit n).utf8Size = 1 := by
    interval_cases n <;> rfl
  rw [quoteChar]
  split_ifs with _ _ _ _ _ hcontrol
  · exact hshort
  · exact hshort
  · exact hshort
  · exact hshort
  · exact hshort
  · have hsmall : c.toNat < 0x10000 := by
      simp only [isControl, Bool.or_eq_true, decide_eq_true_iff, Bool.and_eq_true] at hcontrol
      omega
    simp only [Toml.hexDigits, String.utf8Len_cons, String.utf8Len_nil]
    rw [hhex (by omega), hhex (by omega), hhex (by omega), hhex (by omega)]
    exact Nat.mul_le_mul_left 6 hpos
  · rw [String.utf8Len_cons, String.utf8Len_nil]
    omega

theorem utf8Len_quote (text : Text) : utf8Len (quote text) ≤ 6 * utf8Len text + 2 := by
  have hbody : utf8Len (text.flatMap quoteChar) ≤ 6 * utf8Len text := by
    induction text with
    | nil => exact Nat.le_refl _
    | cons c text ih =>
      have := utf8Len_quoteChar c
      rw [List.flatMap_cons, String.utf8Len_append, String.utf8Len_cons]
      omega
  rw [quote, String.utf8Len_append, String.utf8Len_cons]
  show utf8Len (text.flatMap quoteChar) + 1 + 1 ≤ _
  omega

/-- The bytes of an event, six for each, and the room around an argument. -/
def MacroEvent.escapedBytes : MacroEvent → Nat
  | .command id arguments =>
    6 * utf8Len id +
      (arguments.pairs.map fun pair => 6 * (utf8Len pair.1 + utf8Len pair.2) + 16).sum
  | .typeText id text _ => 6 * (utf8Len id + utf8Len text)

/-- A number below a million has at most six digits. -/
theorem utf8Len_digits {n : Nat} (h : n < 10 ^ 6) : utf8Len (Nat.toDigits 10 n) ≤ 6 := by
  have hall : ∀ digits : Text, (∀ c ∈ digits, c.isDigit = true) →
      utf8Len digits = digits.length := by
    intro digits
    induction digits with
    | nil => exact fun _ => rfl
    | cons c digits ih =>
      intro h
      obtain ⟨hc, hdigits⟩ := List.forall_mem_cons.mp h
      have hascii : c.val ≤ 127 := by
        rw [Char.isDigit, Bool.and_eq_true, decide_eq_true_iff, decide_eq_true_iff] at hc
        exact UInt32.le_trans hc.2 (by decide)
      rw [String.utf8Len_cons, ih hdigits, List.length_cons, Char.utf8Size_eq_one_iff.mpr hascii]
  rw [hall _ fun c hc => Nat.isDigit_of_mem_toDigits (by decide) (by decide) hc]
  exact (Nat.length_toDigits_le_iff (by decide) (by decide)).mpr h

/-- The text of some arguments. -/
theorem utf8Len_pairs (pairs : List (Text × Text)) :
    utf8Len (", ".toList.intercalate
      (pairs.map fun pair => quote pair.1 ++ " = ".toList ++ quote pair.2)) ≤
      (pairs.map fun pair => 6 * (utf8Len pair.1 + utf8Len pair.2) + 16).sum := by
  have hcomma : utf8Len ", ".toList = 2 := rfl
  have hpair (pair : Text × Text) : utf8Len (quote pair.1 ++ " = ".toList ++ quote pair.2) + 2 ≤
      6 * (utf8Len pair.1 + utf8Len pair.2) + 16 := by
    have hequals : utf8Len " = ".toList = 3 := rfl
    have := utf8Len_quote pair.1
    have := utf8Len_quote pair.2
    rw [String.utf8Len_append, String.utf8Len_append, hequals]
    omega
  induction pairs with
  | nil => exact Nat.le_refl _
  | cons pair pairs ih =>
    have := hpair pair
    cases pairs with
    | nil =>
      rw [List.map_singleton, List.intercalate_singleton, List.map_singleton, List.sum_singleton]
      omega
    | cons next pairs =>
      rw [List.map_cons] at ih
      rw [List.map_cons, List.map_cons, List.intercalate_cons_cons, String.utf8Len_append,
        String.utf8Len_append, hcomma, List.map_cons, List.sum_cons]
      omega

theorem MacroEvent.utf8Len_exportToml {event : MacroEvent} (h : event.Typable) :
    utf8Len event.exportToml ≤ event.escapedBytes + 116 := by
  cases event with
  | command id arguments =>
    have hliterals : utf8Len "kind = 'command'\ncommand = ".toList = 27 ∧
        utf8Len "arguments = \x7b ".toList = 14 ∧ utf8Len " \x7d\n".toList = 3 ∧
        utf8Len ['\n'] = 1 := ⟨rfl, rfl, rfl, rfl⟩
    have := utf8Len_pairs arguments.pairs
    have := utf8Len_quote id
    rw [exportToml_command, escapedBytes]
    simp only [String.utf8Len_append, hliterals]
    omega
  | typeText id text intervalMs =>
    have hliterals : utf8Len "kind = 'type_text'\ncommand = ".toList = 29 ∧
        utf8Len "\ntext = ".toList = 8 ∧ utf8Len "\ninterval_ms = ".toList = 15 ∧
        utf8Len ['\n'] = 1 := ⟨rfl, rfl, rfl, rfl⟩
    have := utf8Len_quote id
    have := utf8Len_quote text
    have := utf8Len_digits (n := intervalMs) (Nat.lt_of_le_of_lt h.2 (by decide))
    rw [exportToml_typeText, escapedBytes]
    simp only [String.utf8Len_append, hliterals]
    omega

theorem MacroEvent.le_serializedBound (event : MacroEvent) :
    min event.escapedBytes usizeMax ≤ event.serializedBound := by
  cases event with
  | command id arguments =>
    have hsum (pairs : List (Text × Text)) :
        min (pairs.map fun pair => 6 * (utf8Len pair.1 + utf8Len pair.2) + 16).sum usizeMax ≤
        (pairs.map fun pair => saturatingAdd (saturatingMul
          (saturatingAdd (utf8Len pair.1) (utf8Len pair.2)) 6) 16).sum := by
      induction pairs with
      | nil => exact Nat.zero_le _
      | cons pair pairs ih =>
        rw [List.map_cons, List.map_cons, List.sum_cons, List.sum_cons]
        simp only [saturatingAdd, saturatingMul, usizeMax] at ih ⊢
        omega
    have := hsum arguments.pairs
    rw [escapedBytes, serializedBound]
    simp only [saturatingAdd, saturatingMul, usizeMax] at this ⊢
    omega
  | typeText id text intervalMs =>
    rw [escapedBytes, serializedBound]
    simp only [saturatingAdd, saturatingMul, usizeMax]
    omega

/-- What `serialized_bound` allows covers the bytes of the events. -/
theorem le_foldl_serializedBound {events : List MacroEvent} {bytes total : Nat}
    (h : min bytes usizeMax ≤ total) :
    min (bytes + (events.map fun event => event.escapedBytes + 128).sum) usizeMax ≤
      events.foldl (fun total event =>
        saturatingAdd (saturatingAdd total 128) event.serializedBound) total := by
  induction events generalizing bytes total with
  | nil => exact h
  | cons event events ih =>
    have hevent := event.le_serializedBound
    rw [List.foldl_cons, List.map_cons, List.sum_cons, ← Nat.add_assoc]
    refine ih ?_
    simp only [saturatingAdd]
    omega

/-- A macro that validates is written within the limit of a file. -/
theorem Macro.utf8Len_exportToml {κ : Type} {registry : CommandRegistry κ} {m : Macro}
    (h : m.validate registry = .ok ()) : utf8Len m.exportToml ≤ MAX_FILE_BYTES := by
  obtain ⟨-, -, -, hplayable, hbound⟩ := validate_spec h
  have hname : min (128 + 6 * utf8Len m.name) usizeMax ≤
      saturatingAdd 128 (saturatingMul (utf8Len m.name) 6) := by
    simp only [saturatingAdd, saturatingMul]
    omega
  have hlower := Nat.le_trans (le_foldl_serializedBound hname) hbound
  have hevents : ∀ events : List MacroEvent, (∀ event ∈ events, event.Typable) →
      utf8Len (events.flatMap fun event => "\n[[events]]\n".toList ++ event.exportToml) ≤
        (events.map fun event => event.escapedBytes + 128).sum := by
    intro events
    induction events with
    | nil => exact fun _ => Nat.le_refl _
    | cons event events ih =>
      intro htypable
      obtain ⟨hevent, hrest⟩ := List.forall_mem_cons.mp htypable
      have hheader : utf8Len "\n[[events]]\n".toList = 12 := rfl
      have := MacroEvent.utf8Len_exportToml hevent
      have := ih hrest
      rw [List.flatMap_cons, List.map_cons, List.sum_cons, String.utf8Len_append,
        String.utf8Len_append, hheader]
      omega
  have hall := hevents m.events fun event hevent =>
    MacroEvent.checkTyping_eq_ok.mp (hplayable event hevent).typed
  have hliterals : utf8Len "format_version = 1\nname = ".toList = 26 ∧ utf8Len ['\n'] = 1 :=
    ⟨rfl, rfl⟩
  have := utf8Len_quote m.name
  rw [exportToml_eq, String.utf8Len_append, String.utf8Len_append, String.utf8Len_append,
    hliterals.1, hliterals.2]
  simp only [MAX_FILE_BYTES, usizeMax] at hlower ⊢
  omega

/-! ## §5 Reading what was written -/

theorem Macro.valid_document {m : Macro} (h : ∀ event ∈ m.events, event.Typable) :
    m.document.Valid where
  entries := ⟨show (["format_version".toList, "name".toList] : List Text).Nodup by decide, by
    simp only [document, List.forall_mem_cons, List.not_mem_nil, false_imp_iff, implies_true,
      and_true]
    exact ⟨by show (1 : Nat) < 2 ^ 63; decide, trivial⟩⟩
  tables := by
    intro table htable
    obtain ⟨event, hevent, rfl⟩ := List.mem_map.mp htable
    cases event with
    | command id arguments =>
      refine ⟨show (["kind".toList, "command".toList, "arguments".toList] : List Text).Nodup by
        decide, ?_⟩
      have hkeys : (arguments.pairs.map fun pair => (pair.1.map piece, pair.2.map piece)).map
          (fun entry => entry.1.map Toml.Piece.value) = arguments.pairs.map Prod.fst := by
        rw [List.map_map]
        exact List.map_congr_left fun pair _ => value_pieces pair.1
      have hnodup : (arguments.pairs.map Prod.fst).Nodup :=
        List.pairwise_map.mpr (arguments.sorted.imp fun hlt => ne_of_lt hlt)
      simp only [MacroEvent.entries, List.forall_mem_cons, List.not_mem_nil, false_imp_iff,
        implies_true, and_true]
      refine ⟨trivial, trivial, ?_⟩
      rw [Toml.Value.Valid, hkeys]
      exact hnodup
    | typeText id text intervalMs =>
      have hinterval : intervalMs ≤ 60000 := (h _ hevent).2
      refine ⟨show (["kind".toList, "command".toList, "text".toList, "interval_ms".toList] :
        List Text).Nodup by decide, ?_⟩
      simp only [MacroEvent.entries, List.forall_mem_cons, List.not_mem_nil, false_imp_iff,
        implies_true, and_true]
      exact ⟨trivial, trivial, trivial, Nat.lt_of_le_of_lt hinterval (by decide)⟩
  array := show "events".toList ∉ (["format_version".toList, "name".toList] : List Text) by decide

theorem ok_then {α β : Type} (a : α) (f : α → Except String β) : (Except.ok a >>= f) = f a := rfl

/-- The arguments of a command are read back. -/
theorem importPairs {before pairs : List (Text × Text)}
    (hsorted : (before ++ pairs).Pairwise fun a b => a.1 < b.1) :
    (pairs.map fun pair => (pair.1, Toml.Item.string pair.2)).foldlM
      (fun arguments entry => do
        let value ← okOr "Arguments must be strings" entry.2.asString
        .ok (Arguments.insert arguments entry.1 value))
      (⟨before, (List.pairwise_append.mp hsorted).1⟩ : Arguments) =
      .ok (⟨before ++ pairs, hsorted⟩ : Arguments) := by
  induction pairs generalizing before with
  | nil =>
    simp only [List.append_nil]
    rfl
  | cons pair pairs ih =>
    have hlast : ∀ earlier ∈ before, earlier.1 < pair.1 := fun earlier hmem =>
      (List.pairwise_append.mp hsorted).2.2 earlier hmem pair List.mem_cons_self
    have hnext : (before ++ [pair] ++ pairs).Pairwise fun a b => a.1 < b.1 := by
      rwa [List.append_assoc, List.singleton_append]
    have hinsert : Arguments.insert ⟨before, (List.pairwise_append.mp hsorted).1⟩ pair.1 pair.2 =
        ⟨before ++ [pair], (List.pairwise_append.mp hnext).1⟩ := by
      simp only [Arguments.insert, Arguments.insertPair_last hlast]
    have hrest := ih hnext
    rw [List.map_cons, List.foldlM_cons]
    show ((.ok (Arguments.insert _ pair.1 pair.2) : Except String Arguments) >>= _) = _
    rw [hinsert]
    refine hrest.trans ?_
    simp only [List.append_assoc, List.singleton_append]

theorem importArguments_pairs (arguments : Arguments) {table : Toml.Table}
    (h : table.get "arguments".toList = some (.inlineTable
      (arguments.pairs.map fun pair => (pair.1, Toml.Item.string pair.2)))) :
    importArguments table = .ok arguments := by
  rw [importArguments, h]
  exact @importPairs [] arguments.pairs arguments.sorted

section Event

variable {table : Toml.Table} {id : Text}

theorem importEvent_command {arguments : Arguments}
    (hkind : table.get "kind".toList = some (.string "command".toList))
    (hid : table.get "command".toList = some (.string id))
    (hfields : (table.any fun entry => !(["kind".toList, "command".toList,
      "arguments".toList].contains entry.1)) = false)
    (harguments : importArguments table = .ok arguments) :
    importEvent table = .ok (.command id arguments) := by
  have hallowed : allowedFields "command".toList =
      .ok ["kind".toList, "command".toList, "arguments".toList] := if_pos rfl
  rw [importEvent, hkind, hid, harguments]
  simp only [Option.bind_some, Toml.Item.asString, okOr, hallowed, ok_then, hfields]
  exact (if_neg Bool.false_ne_true).trans (if_pos trivial)

theorem importEvent_typeText {text : Text} {intervalMs : Nat}
    (hkind : table.get "kind".toList = some (.string "type_text".toList))
    (hid : table.get "command".toList = some (.string id))
    (hfields : (table.any fun entry => !(["kind".toList, "command".toList, "text".toList,
      "interval_ms".toList].contains entry.1)) = false)
    (htext : table.get "text".toList = some (.string text))
    (hinterval : table.get "interval_ms".toList = some (.integer intervalMs)) :
    importEvent table = .ok (.typeText id text intervalMs) := by
  have hother : "type_text".toList ≠ "command".toList := by decide
  have hallowed : allowedFields "type_text".toList = .ok ["kind".toList, "command".toList,
      "text".toList, "interval_ms".toList] := (if_neg hother).trans (if_pos rfl)
  rw [importEvent, hkind, hid, htext, hinterval]
  simp only [Option.bind_some, Toml.Item.asString, Toml.Item.asInteger, okOr, hallowed, ok_then,
    hfields]
  rw [if_neg Bool.false_ne_true, if_neg hother, if_neg (Int.not_lt.mpr (Int.natCast_nonneg _))]
  rfl

end Event

/-- An event is read back from its entries. -/
theorem importEvent_entries (event : MacroEvent) :
    importEvent (event.entries.map Toml.Entry.item) = .ok event := by
  cases event with
  | command id arguments =>
    have hpairs : (arguments.pairs.map fun pair => (pair.1.map piece, pair.2.map piece)).map
        (fun entry => (entry.1.map Toml.Piece.value,
          Toml.Item.string (entry.2.map Toml.Piece.value))) =
        arguments.pairs.map fun pair => (pair.1, Toml.Item.string pair.2) := by
      rw [List.map_map]
      refine List.map_congr_left fun pair _ => ?_
      rw [Function.comp_apply, value_pieces, value_pieces]
    simp only [MacroEvent.entries, List.map_cons, List.map_nil, Toml.Entry.item, keyOf,
      Toml.Value.item, value_pieces, hpairs]
    exact importEvent_command rfl rfl rfl (importArguments_pairs arguments rfl)
  | typeText id text intervalMs =>
    simp only [MacroEvent.entries, List.map_cons, List.map_nil, Toml.Entry.item, keyOf,
      Toml.Value.item, value_pieces]
    exact importEvent_typeText rfl rfl rfl rfl rfl

theorem mapM_importEvent (events : List MacroEvent) :
    (events.map fun event => event.entries.map Toml.Entry.item).mapM importEvent = .ok events := by
  induction events with
  | nil => rfl
  | cons event events ih =>
    rw [List.map_cons, List.mapM_cons, importEvent_entries, ih]
    rfl

/-- The table of a macro's document. -/
theorem Macro.table_document {m : Macro} (h : m.events ≠ []) :
    m.document.table = [("format_version".toList, .integer 1), ("name".toList, .string m.name),
      ("events".toList, .arrayOfTables
        (m.events.map fun event => event.entries.map Toml.Entry.item))] := by
  have hsome : m.events.map MacroEvent.entries ≠ [] := fun hnil => h (List.map_eq_nil_iff.mp hnil)
  have htables : (m.events.map MacroEvent.entries).map (List.map Toml.Entry.item) =
      m.events.map fun event => event.entries.map Toml.Entry.item := List.map_map
  simp only [Toml.Document.table, document, if_neg hsome, htables, List.map_cons, List.map_nil,
    Toml.Entry.item, keyOf, Toml.Value.item, value_pieces, List.cons_append, List.nil_append]
  rfl

section Import

variable {κ : Type} {registry : CommandRegistry κ} {parse : Text → Except String Toml.Table}

theorem importToml_parts {text name : Text} {doc : Toml.Table} {tables : List Toml.Table}
    {events : List MacroEvent} (hsize : utf8Len text ≤ MAX_FILE_BYTES)
    (hread : parse text = .ok doc)
    (hversion : (doc.get "format_version".toList).bind Toml.Item.asInteger = some 1)
    (hfields : (doc.any fun entry =>
      !(["format_version".toList, "name".toList, "events".toList].contains entry.1)) = false)
    (hname : (doc.get "name".toList).bind Toml.Item.asString = some name)
    (htables : (doc.get "events".toList).bind Toml.Item.asArrayOfTables = some tables)
    (hcount : tables.length ≤ MAX_EVENTS) (hevents : tables.mapM importEvent = .ok events)
    (hvalid : (⟨name, events⟩ : Macro).validate registry = .ok ()) :
    importToml parse text registry = .ok ⟨name, events⟩ := by
  rw [importToml, if_neg (Nat.not_lt_of_le hsize), hread, ok_then, hversion,
    if_neg (not_not_intro rfl), hfields, if_neg Bool.false_ne_true, hname, htables]
  simp only [okOr, ok_then, if_neg (Nat.not_lt_of_le hcount), hevents, hvalid]

/-- A macro that validates is read back from what is written of it. -/
theorem importToml_exportToml (hparse : Toml.ReadsDocuments parse) {m : Macro}
    (h : m.validate registry = .ok ()) : importToml parse m.exportToml registry = .ok m := by
  obtain ⟨hne, hcount, -, hplayable, -⟩ := Macro.validate_spec h
  have hread := hparse m.document (Macro.valid_document fun event hevent =>
    MacroEvent.checkTyping_eq_ok.mp (hplayable event hevent).typed)
  rw [m.render_document, Macro.table_document hne] at hread
  exact importToml_parts (Macro.utf8Len_exportToml h) hread rfl rfl rfl rfl
    (by rwa [List.length_map]) (mapM_importEvent m.events) h

end Import

/-! ## §6 Saving a recording -/

/-- A recording with a valid name stops with exactly the events that were accepted if and only if
what was typed can be played; a macro that validates is written within the limit of a file and
read back as it was. -/
theorem recorded_macros_saved {κ : Type} (registry : CommandRegistry κ)
    {parse : Text → Except String Toml.Table} (hparse : Toml.ReadsDocuments parse) :
    (∀ (ops : List Recorder.Op) (name : Text), badName name = false →
      (Recorder.run registry ops).2 ≠ [] →
      (((Recorder.run registry ops).1.stop registry name).1 =
          .ok ⟨name, (Recorder.run registry ops).2⟩ ↔
        ∀ event ∈ (Recorder.run registry ops).2, event.Typable)) ∧
    ∀ m : Macro, m.validate registry = .ok () →
      utf8Len m.exportToml ≤ MAX_FILE_BYTES ∧ importToml parse m.exportToml registry = .ok m :=
  ⟨fun ops _ hname hne => Recorder.stop_iff ops hname hne,
    fun _ h => ⟨Macro.utf8Len_exportToml h, importToml_exportToml hparse h⟩⟩

/-- A registry of one command. -/
def insertText : CommandRegistry Unit := ⟨["edit.insert_text".toList], fun _ _ => .ok ()⟩

/-- The reader of the documents that macros are. -/
def readToml (text : Text) : Except String Toml.Table :=
  okOr "not a document of this kind" (Toml.readDocument text)

theorem readToml_reads : Toml.ReadsDocuments readToml := fun d _ => by
  rw [readToml, d.readDocument_render]
  rfl

/-- One typed letter. -/
def oneLetter : MacroEvent := .typeText "edit.insert_text".toList ['"'] 30

/-- A call of the command. -/
def call : MacroEvent := .command "edit.insert_text".toList (.single ['k'] ['"'])

theorem one_letter_saved :
    let ops := [.start, .executed call true, .executed oneLetter true]
    ((Recorder.run insertText ops).1.stop insertText ['a']).1 = .ok ⟨['a'], [call, oneLetter]⟩ ∧
    importToml readToml (⟨['a'], [call, oneLetter]⟩ : Macro).exportToml insertText =
      .ok ⟨['a'], [call, oneLetter]⟩ := by
  intro ops
  obtain ⟨hstop, hsaved⟩ := recorded_macros_saved insertText readToml_reads
  have hrun : (Recorder.run insertText ops).2 = [call, oneLetter] := rfl
  have hvalid : (⟨['a'], [call, oneLetter]⟩ : Macro).validate insertText = .ok () := rfl
  refine ⟨(hstop _ ['a'] rfl (by rw [hrun]; exact List.cons_ne_nil _ _)).mpr ?_,
    (hsaved _ hvalid).2⟩
  rw [hrun]
  exact List.forall_mem_cons.mpr ⟨trivial,
    List.forall_mem_singleton.mpr ⟨List.cons_ne_nil _ _, by decide⟩⟩

/-- Typed text that is empty is accepted, and the recording cannot be stopped. -/
theorem empty_typing_cannot_stop :
    let recorded := Recorder.run insertText
      [.start, .executed (.typeText "edit.insert_text".toList [] 30) true]
    badName ['a'] = false ∧ recorded.2 ≠ [] ∧
      (recorded.1.stop insertText ['a']).1 = .error "Typing action requires nonempty text" := by
  refine ⟨rfl, ?_, rfl⟩
  exact List.cons_ne_nil (MacroEvent.typeText "edit.insert_text".toList [] 30) []

end BareLine.Macros
