import BareLine.Basic
import BareLine.Power.Types
import BareLine.Lib.Quoting

/-!
# Placeholders in shell commands

How a command template for `cmd.exe` is expanded: its text is scanned for the quotes and words the
shell sees, and each value is quoted for the place it stands in.  Which words may start a program
that runs its arguments as code depends on the environment and is a parameter; so is what the
placeholders stand for.
-/

namespace BareLine.Macros

open Power (isWhitespace)
open String (utf8Len)
open Lib.Argv (trailing)

/-- Text by its scalars. -/
abbrev Text := List Char

/-! ## §1 The scanner -/

/-- `is_command_shell_break` -/
def isCommandShellBreak (c : Char) : Bool :=
  c ∈ [',', ';', '=', '/', '(', ')', '@', '<', '>', '&', '|']

/-- `SHELL_RUNS_CODE` -/
def shellRunsCode : String :=
  "This command starts, or may start, a program that runs its arguments as code (cmd.exe, a " ++
    "batch file, PowerShell or a script host), so Bareline cannot pass placeholder values to it " ++
    "safely. Run that program directly instead."

/-- `VALUE_NAMES_PROGRAM` -/
def valueNamesProgram : String :=
  "A placeholder names the program this command runs, so Bareline cannot tell whether that " ++
    "program runs its arguments as code. Such a command can use only that one placeholder."

/-- `QuoteState`, as far as shell commands use it: the quote that is open, whether a caret was just
read, the word being read, whether a word so far may run code, whether a value was put in and
whether one names a program, and what is known of the current command. -/
structure QuoteState where
  quote : Option Char
  escape : Bool
  word : Text
  runsCode : Bool
  hasValue : Bool
  programValue : Bool
  afterCommand : Bool
  launcher : Bool
  switch : Bool
  deriving DecidableEq, Repr

/-- `QuoteState::default` -/
def QuoteState.default : QuoteState := ⟨none, false, [], false, false, false, false, false, false⟩

/-- What the environment and the placeholders stand for: `shell_word_runs_code`, and
`placeholder_value` with the text of a value, if it is Unicode. -/
structure Surroundings where
  shellWordRunsCode : Text → Bool → Bool
  placeholderValue : Text → Except String (Option Text)

/-- The words that start the program a later word names. -/
def launchers : List Text :=
  [['s', 't', 'a', 'r', 't'], ['c', 'a', 'l', 'l'], ['s', 'a', 'p', 's'],
    ['s', 't', 'a', 'r', 't', '-', 'p', 'r', 'o', 'c', 'e', 's', 's']]

namespace QuoteState

variable (env : Surroundings) (s : QuoteState)

/-- `names_program` -/
def namesProgram : Bool := !s.afterCommand || s.launcher

/-- `word_runs_code` -/
def wordRunsCode : Bool := env.shellWordRunsCode s.word (!s.afterCommand || s.launcher)

/-- `end_word` -/
def endWord : QuoteState :=
  let switch := s.switch
  let s := { s with switch := false }
  if s.word.isEmpty then s
  else
    let word := s.word.map Char.toLower
    let s := { s with runsCode := s.runsCode || s.wordRunsCode env, word := [] }
    if switch then s
    else
      let launcher := if !s.afterCommand then launchers.contains word else s.launcher
      { s with launcher := launcher, afterCommand := true }

/-- `command_break` -/
def commandBreak : QuoteState :=
  { s.endWord env with afterCommand := false, launcher := false }

/-- `scan_command_shell` -/
def scanCommandShell (c : Char) : QuoteState :=
  if c = '"' then { s with quote := if s.quote.isSome then none else some '"' }
  else if s.quote.isSome then { s with word := s.word ++ [c] }
  else if c = '^' then { s with escape := true }
  else if c = '&' ∨ c = '|' ∨ c = '(' then s.commandBreak env
  else if isWhitespace c ∨ isCommandShellBreak c then { s.endWord env with switch := c == '/' }
  else { s with word := s.word ++ [c] }

/-- `scan` -/
def scan (text : Text) : QuoteState :=
  text.foldl (fun s c =>
    if s.escape then { s with escape := false, word := s.word ++ [c] }
    else s.scanCommandShell env c) s

/-- `finish` -/
def finish : Except String Unit :=
  let s := s.endWord env
  if s.runsCode && s.hasValue then .error shellRunsCode
  else if s.quote.isSome || s.escape then
    .error "The command template has an unbalanced quote or a trailing escape character"
  else .ok ()

end QuoteState

/-! ## §2 Values -/

/-- `char::is_control` -/
def isControl (c : Char) : Bool := c.toNat < 0x20 || (0x7F ≤ c.toNat && c.toNat ≤ 0x9F)

/-- Plain path-like text, which needs no quotes. -/
def isPlain (text : Text) : Bool :=
  !text.isEmpty && text.all fun c =>
    c.isAlphanum || c ∈ ['\\', '.', '-', '_', ':', '/', '+']

/-- `command_shell_value` -/
def commandShellValue (text : Text) (quoted beforeQuote : Bool) : Except String Text :=
  if text.any fun c => c == '"' || c == '%' || c == '!' || isControl c then
    .error ("This name or selection contains characters cmd.exe cannot take literally (\" % ! " ++
      "or control characters). Run the program directly instead.")
  else if isPlain text && !quoted then .ok text
  else
    let body := text ++ List.replicate (if beforeQuote then trailing text else 0) '\\'
    .ok (if quoted then body else '"' :: (body ++ ['"']))

/-- `quote_value`; `next` is the template's character right behind the placeholder. -/
def quoteValue (env : Surroundings) (value : Option Text) (s : QuoteState) (next : Option Char) :
    Except String (Text × QuoteState) :=
  match value with
  | none => .error "Shell commands require text placeholder values; use direct mode"
  | some text =>
    if s.escape then .error "A placeholder cannot follow an escape character (^ or \x60)"
    else if s.runsCode || s.wordRunsCode env then .error shellRunsCode
    else if s.programValue || (s.namesProgram && s.hasValue) then .error valueNamesProgram
    else do
      let quoted := s.quote.isSome
      let output ← commandShellValue text quoted (!quoted || next == some '"')
      pure (output, { s with programValue := s.namesProgram, hasValue := true })

/-! ## §3 Expansion -/

/-- `rest.find` of a placeholder's start: the text before it and behind it. -/
def findPlaceholder : Text → Option (Text × Text)
  | [] => none
  | '$' :: '\x7b' :: rest => some ([], rest)
  | c :: rest => (findPlaceholder rest).map fun found => (c :: found.1, found.2)

/-- `rest.find` of a placeholder's end. -/
def findClose : Text → Option (Text × Text)
  | [] => none
  | c :: rest =>
    if c = '\x7d' then some ([], rest)
    else (findClose rest).map fun found => (c :: found.1, found.2)

theorem findPlaceholder_eq {text before after : Text}
    (h : findPlaceholder text = some (before, after)) :
    text = before ++ '$' :: '\x7b' :: after := by
  fun_induction findPlaceholder text generalizing before with
  | case1 => exact nomatch h
  | case2 rest =>
    obtain ⟨rfl, rfl⟩ := Prod.mk.inj (Option.some.inj h)
    rfl
  | case3 c rest _ ih =>
    obtain ⟨found, hfound, hsame⟩ := Option.map_eq_some_iff.mp h
    obtain ⟨rfl, rfl⟩ := Prod.mk.inj hsame
    exact congrArg (c :: ·) (ih hfound)

theorem findClose_eq {text before after : Text} (h : findClose text = some (before, after)) :
    text = before ++ '\x7d' :: after := by
  induction text generalizing before with
  | nil => exact nomatch h
  | cons c text ih =>
    rw [findClose] at h
    split_ifs at h with hclose
    · obtain ⟨rfl, rfl⟩ := Prod.mk.inj (Option.some.inj h)
      rw [hclose]
      rfl
    · obtain ⟨found, hfound, hsame⟩ := Option.map_eq_some_iff.mp h
      obtain ⟨rfl, rfl⟩ := Prod.mk.inj hsame
      exact congrArg (c :: ·) (ih hfound)

theorem length_behind_lt {text before behind name rest : Text}
    (hfound : findPlaceholder text = some (before, behind))
    (hclose : findClose behind = some (name, rest)) : rest.length < text.length := by
  rw [findPlaceholder_eq hfound, findClose_eq hclose]
  simp only [List.length_append, List.length_cons]
  omega

/-- `append` -/
def append (output value : Text) : Except String Text :=
  if 1024 * 1024 - utf8Len output < utf8Len value then .error "Expanded argument exceeds 1 MiB"
  else .ok (output ++ value)

/-- The loop of `expand`. -/
def expandFrom (env : Surroundings) (output : Text) (s : QuoteState) (rest : Text) :
    Except String (Text × QuoteState) :=
  match _hfound : findPlaceholder rest with
  | none => do
    let output ← append output rest
    pure (output, s.scan env rest)
  | some (before, behind) => do
    let output ← append output before
    match _hclose : findClose behind with
    | none => .error "Unclosed external command placeholder"
    | some (name, rest') => do
      let value ← env.placeholderValue name
      let (text, s) ← quoteValue env value (s.scan env before) rest'.head?
      let output ← append output text
      expandFrom env output s rest'
termination_by rest.length
decreasing_by exact length_behind_lt _hfound _hclose

/-- `expand_argument_for`, for a shell command. -/
def expandArgumentFor (env : Surroundings) (template : Text) : Except String Text := do
  let (output, s) ← expandFrom env [] .default template
  s.finish env
  pure output

end BareLine.Macros
