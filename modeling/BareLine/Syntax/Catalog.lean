import BareLine.Codec.ValidText
import BareLine.Document.Types
import BareLine.Lib.LineBreaks

/-!
# Languages for native highlighting

The comment markers of the bundled languages, and language definitions of the user.  Texts are
their UTF-8 bytes, and a `char` is the bytes of one scalar.
-/

namespace BareLine.Syntax

open Lib Codec

/-! ## §1 Bundled languages -/

inductive Language where
  | plainText | rust | json | c | cpp | cSharp | java | javaScript | typeScript | python | go
  | html | css | xml | sql | toml | powerShell | batch | shell | yaml | markdown | ini
  | properties | php | perl | ruby | lua | makefile | dockerfile | cMake | diff | log
  | visualBasic | vbScript | pascal | fortran | fortran77 | assembly | latex | r | swift
  | kotlin | scala | groovy | dart | haskell | erlang | tcl | autoIt | nsis | innoSetup
  | registry | scss | less | ada | d | fSharp | julia | lisp | matlab | nim | oCaml | verilog
  | vhdl | zig | coffeeScript | gdScript
  deriving DecidableEq, Repr

/-- `LanguageMetadata::line_comment` -/
def lineComment : Language → Option Bytes
  -- //
  | .rust | .c | .cpp | .cSharp | .java | .javaScript | .typeScript | .go | .php | .pascal |
    .swift | .kotlin | .scala | .groovy | .dart | .scss | .less | .d | .fSharp | .verilog | .zig
    => some [47, 47]
  -- #
  | .python | .toml | .powerShell | .shell | .yaml | .properties | .perl | .ruby | .makefile |
    .dockerfile | .cMake | .r | .tcl | .julia | .nim | .coffeeScript | .gdScript => some [35]
  -- --
  | .sql | .lua | .haskell | .ada | .vhdl => some [45, 45]
  -- REM
  | .batch => some [82, 69, 77]
  -- ;
  | .ini | .assembly | .autoIt | .nsis | .innoSetup | .registry | .lisp => some [59]
  -- '
  | .visualBasic | .vbScript => some [39]
  -- !
  | .fortran | .fortran77 => some [33]
  -- %
  | .latex | .erlang | .matlab => some [37]
  | _ => none

/-- `LanguageMetadata::block_comment` -/
def blockComment : Language → Option (Bytes × Bytes)
  -- /* */
  | .rust | .c | .cpp | .cSharp | .java | .javaScript | .typeScript | .go | .css | .sql | .php |
    .swift | .kotlin | .scala | .groovy | .dart | .nsis | .scss | .less | .d | .verilog | .vhdl
    => some ([47, 42], [42, 47])
  -- <!-- -->
  | .html | .xml | .markdown => some ([60, 33, 45, 45], [45, 45, 62])
  -- <# #>
  | .powerShell => some ([60, 35], [35, 62])
  -- =begin =end
  | .ruby => some ([61, 98, 101, 103, 105, 110], [61, 101, 110, 100])
  -- --[[ ]]
  | .lua => some ([45, 45, 91, 91], [93, 93])
  -- { }
  | .pascal => some ([123], [125])
  -- {- -}
  | .haskell => some ([123, 45], [45, 125])
  -- #cs #ce
  | .autoIt => some ([35, 99, 115], [35, 99, 101])
  -- (* *)
  | .fSharp | .oCaml => some ([40, 42], [42, 41])
  -- #= =#
  | .julia => some ([35, 61], [61, 35])
  -- #| |#
  | .lisp => some ([35, 124], [124, 35])
  -- %{ %}
  | .matlab => some ([37, 123], [37, 125])
  -- #[ ]#
  | .nim => some ([35, 91], [93, 35])
  | _ => none

/-- The byte ends a line, or may. -/
def isLineEnd (byte : UInt8) : Bool := byte == CR || byte == LF

/-- A marker is not empty and stays inside a line. -/
structure Marker (token : Bytes) : Prop where
  nonempty : token ≠ []
  inLine : ∀ b ∈ token, isLineEnd b = false

/-- The same as a check. -/
def isMarker (token : Bytes) : Bool := !token.isEmpty && token.all fun b => !isLineEnd b

theorem isMarker_iff {token : Bytes} : isMarker token = true ↔ Marker token := by
  rw [isMarker, Bool.and_eq_true, Bool.not_eq_true', List.isEmpty_eq_false_iff, List.all_eq_true]
  simp only [Bool.not_eq_true']
  exact ⟨fun h => ⟨h.1, h.2⟩, fun h => ⟨h.1, h.2⟩⟩

theorem lineComment_all (language : Language) : (lineComment language).all isMarker = true := by
  cases language <;> rfl

theorem blockComment_all (language : Language) :
    ((blockComment language).all fun pair => isMarker pair.1 && isMarker pair.2) = true := by
  cases language <;> rfl

theorem lineComment_marker (language : Language) :
    ∀ token ∈ lineComment language, Marker token := fun token h =>
  isMarker_iff.mp ((Option.all_eq_true _ _).mp (lineComment_all language) token h)

theorem blockComment_marker (language : Language) :
    ∀ pair ∈ blockComment language, Marker pair.1 ∧ Marker pair.2 := fun pair h => by
  have hall := (Option.all_eq_true _ _).mp (blockComment_all language) pair h
  rw [Bool.and_eq_true, isMarker_iff, isMarker_iff] at hall
  exact hall

/-! ## §2 User-defined languages -/

/-- `syntax::Error`; a cancelled call is left out. -/
inductive SyntaxError where
  | invalidRange
  | budgetExceeded
  | staleCheckpoint
  deriving DecidableEq, Repr

/-- `udl::Definition` -/
structure Definition where
  version : Nat
  id : Bytes
  name : Bytes
  extensions : List Bytes
  keywords : List Bytes
  operators : Bytes
  lineComment : Option Bytes
  blockComment : Option (Bytes × Bytes)
  strings : List Bytes
  foldPairs : List (Bytes × Bytes)
  deriving DecidableEq, Repr

/-- `u8::is_ascii_digit` -/
def isDigit (b : UInt8) : Bool := 48 ≤ b && b ≤ 57

/-- `u8::is_ascii_alphanumeric` -/
def isAsciiAlphanumeric (b : UInt8) : Bool :=
  isDigit b || (65 ≤ b && b ≤ 90) || (97 ≤ b && b ≤ 122)

/-- `u8::is_ascii_hexdigit` -/
def isHexDigit (b : UInt8) : Bool := isDigit b || (65 ≤ b && b ≤ 70) || (97 ≤ b && b ≤ 102)

/-- `char::is_control` -/
def isControl : Bytes → Bool
  | [b] => b < 0x20 || b == 0x7F
  | [lead, b] => lead == 0xC2 && b < 0xA0
  | _ => false

namespace Definition

/-- The words of a definition, with a bound on each and on all. -/
def wordsFit : Nat → List Bytes → Bool
  | _, [] => true
  | bytes, word :: words =>
    !(word.isEmpty || 128 < word.length || 64 * 1024 < bytes + word.length) &&
      wordsFit (bytes + word.length) words

/-- The fold delimiters, each of them once. -/
def foldsFit : List Bytes → List (Bytes × Bytes) → Bool
  | _, [] => true
  | seen, (opening, closing) :: pairs =>
    !(opening == closing || isControl opening || isControl closing || seen.contains opening ||
        (opening :: seen).contains closing) &&
      foldsFit (closing :: opening :: seen) pairs

/-- The comment markers of a definition. -/
def tokens (self : Definition) : List Bytes :=
  self.lineComment.toList ++ self.blockComment.toList.flatMap fun pair => [pair.1, pair.2]

/-- `Definition::validate` -/
def validate (self : Definition) : Except SyntaxError Unit :=
  if self.version ≠ 1 ∨ self.id.isEmpty ∨ self.id.length > 64 ∨
      ¬self.id.all (fun b => isAsciiAlphanumeric b || b == 45 || b == 95) ∨
      self.name.length > 128 ∨ self.extensions.length > 64 ∨ self.keywords.length > 8192 ∨
      self.operators.length > 256 ∨ self.strings.length > 8 ∨ self.foldPairs.length > 16 then
    .error .budgetExceeded
  else if ¬wordsFit 0 (self.keywords ++ self.extensions) then .error .budgetExceeded
  else if self.tokens.any fun token =>
      token.isEmpty || 32 < token.length || token.any isLineEnd then .error .invalidRange
  else if ¬foldsFit [] self.foldPairs then .error .invalidRange
  else if self.strings.any isControl ||
      self.operators.any (fun b => isLineEnd b || b == 0) then .error .invalidRange
  else .ok ()

/-- The comment markers of a valid definition are markers. -/
theorem validate_marker {self : Definition} (h : self.validate = .ok ()) :
    ∀ token ∈ self.tokens, Marker token := by
  intro token htoken
  rw [validate] at h
  split_ifs at h with h1 h2 h3 h4 h5
  rw [List.any_eq_true] at h3
  have hfit : ¬(token.isEmpty || 32 < token.length || token.any isLineEnd) = true :=
    fun hbad => h3 ⟨token, htoken, hbad⟩
  simp only [Bool.or_eq_true, not_or, List.isEmpty_iff, List.any_eq_true, not_exists,
    not_and, Bool.not_eq_true] at hfit
  exact ⟨hfit.1.1, fun b hb => hfit.2 b hb⟩

end Definition

/-! ## §3 Lexers -/

/-- What a lexer asks of `char` and of the keyword lists. -/
structure Vocabulary where
  isAlphabetic : Bytes → Bool
  isAlphanumeric : Bytes → Bool
  keyword : Language → Bytes → Bool
  lineEnd : ∀ b, isLineEnd b = true → isAlphabetic [b] = false ∧ isAlphanumeric [b] = false

/-- The language of one pass, with the definition that replaces its metadata. -/
structure Lexer where
  vocabulary : Vocabulary
  language : Language
  custom : Option Definition

namespace Lexer

/-- The line comment marker of the pass. -/
def lineComment (self : Lexer) : Option Bytes :=
  match self.custom with
  | none => Syntax.lineComment self.language
  | some definition => definition.lineComment

/-- The block comment markers of the pass. -/
def blockComment (self : Lexer) : Option (Bytes × Bytes) :=
  match self.custom with
  | none => Syntax.blockComment self.language
  | some definition => definition.blockComment

/-- A definition of the pass was validated. -/
def Valid (self : Lexer) : Prop := ∀ definition ∈ self.custom, definition.validate = .ok ()

theorem Valid.lineComment {self : Lexer} (h : self.Valid) :
    ∀ token ∈ self.lineComment, Marker token := by
  intro token htoken
  rw [Lexer.lineComment] at htoken
  cases hcustom : self.custom with
  | none =>
    rw [hcustom] at htoken
    exact lineComment_marker _ token htoken
  | some definition =>
    rw [hcustom] at htoken
    refine Definition.validate_marker (h definition hcustom) token ?_
    exact List.mem_append_left _ (Option.mem_toList.mpr htoken)

theorem Valid.blockComment {self : Lexer} (h : self.Valid) :
    ∀ tokens ∈ self.blockComment, Marker tokens.1 ∧ Marker tokens.2 := by
  intro tokens htokens
  rw [Lexer.blockComment] at htokens
  cases hcustom : self.custom with
  | none =>
    rw [hcustom] at htokens
    exact blockComment_marker _ tokens htokens
  | some definition =>
    rw [hcustom] at htokens
    have hmem : ∀ token ∈ [tokens.1, tokens.2], token ∈ definition.tokens := fun token htoken =>
      List.mem_append_right _
        (List.mem_flatMap.mpr ⟨tokens, Option.mem_toList.mpr htokens, htoken⟩)
    have hmarker := Definition.validate_marker (h definition hcustom)
    exact ⟨hmarker _ (hmem _ List.mem_cons_self),
      hmarker _ (hmem _ (List.mem_cons_of_mem _ List.mem_cons_self))⟩

end Lexer

end BareLine.Syntax
