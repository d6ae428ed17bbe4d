import BareLine.Syntax.Windows

/-!
# The scanner of user-defined languages

`udl::lex` runs to the terminator of a comment or string at once, where the highlighter goes on
from character to character.  Apart from numbers both take the same bytes.
-/

namespace BareLine.Syntax

open Lib Codec

/-! ## §1 Searching -/

/-- The offset of the first character at which a pattern starts, among `left` places. -/
def findFrom (pattern : Bytes) : Nat → Bytes → Option Nat
  | 0, _ => none
  | left + 1, rest =>
    if pattern.isPrefixOf rest then some 0
    else if rest = [] then none
    else (findFrom pattern left (rest.drop (scalarLen rest))).map (scalarLen rest + ·)

/-- `str::find` -/
def find (pattern rest : Bytes) : Option Nat := findFrom pattern (rest.length + 1) rest

theorem length_drop_scalar {rest : Bytes} (h : rest ≠ []) :
    (rest.drop (scalarLen rest)).length < rest.length := by
  have := scalarLen_bounds h
  rw [List.length_drop]
  omega

theorem findFrom_enough {pattern : Bytes} {left left' : Nat} {rest : Bytes}
    (h : rest.length < left) (h' : rest.length < left') :
    findFrom pattern left rest = findFrom pattern left' rest := by
  induction left generalizing left' rest with
  | zero => exact absurd h (Nat.not_lt_zero _)
  | succ left ih =>
    obtain ⟨left', rfl⟩ := Nat.exists_eq_succ_of_ne_zero (Nat.ne_zero_of_lt h')
    rw [findFrom, findFrom]
    split_ifs with _ hnil
    · rfl
    · rfl
    · have hlt := length_drop_scalar hnil
      have hrest : findFrom pattern left (rest.drop (scalarLen rest)) =
          findFrom pattern left' (rest.drop (scalarLen rest)) := ih (by omega) (by omega)
      rw [hrest]

theorem find_here {pattern rest : Bytes} (h : pattern.isPrefixOf rest = true) :
    find pattern rest = some 0 := if_pos h

/-- Where a pattern does not start, the search goes on behind one character. -/
theorem find_later {pattern rest : Bytes} (h : ¬pattern.isPrefixOf rest = true) (hne : rest ≠ []) :
    find pattern rest = (find pattern (rest.drop (scalarLen rest))).map (scalarLen rest + ·) := by
  have hrest : findFrom pattern rest.length (rest.drop (scalarLen rest)) =
      find pattern (rest.drop (scalarLen rest)) :=
    findFrom_enough (length_drop_scalar hne) (Nat.lt_succ_self _)
  rw [find, findFrom, if_neg h, if_neg hne, hrest]

/-- The bytes up to the end of a block comment, behind its opening. -/
def blockLen (close rest : Bytes) : Nat :=
  match find close rest with
  | some n => n + close.length
  | none => rest.length

/-- The bytes of a string up to its delimiter, behind the opening one. -/
def stringLen (delimiter : Bytes) : Nat → Bool → Bytes → Nat
  | 0, _, _ => 0
  | left + 1, escaped, rest =>
    if rest = [] then 0
    else
      let next := rest.take (scalarLen rest)
      if !escaped && next == delimiter then scalarLen rest
      else scalarLen rest +
        stringLen delimiter left (!escaped && next == [BACKSLASH]) (rest.drop (scalarLen rest))

theorem stringLen_enough {delimiter : Bytes} {left left' : Nat} {escaped : Bool} {rest : Bytes}
    (h : rest.length ≤ left) (h' : rest.length ≤ left') :
    stringLen delimiter left escaped rest = stringLen delimiter left' escaped rest := by
  induction left generalizing left' escaped rest with
  | zero =>
    obtain rfl := List.length_eq_zero_iff.mp (Nat.le_zero.mp h)
    cases left' <;> rfl
  | succ left ih =>
    by_cases hnil : rest = []
    · subst hnil
      cases left' <;> rfl
    · obtain ⟨left', rfl⟩ := Nat.exists_eq_succ_of_ne_zero (n := left') fun hzero =>
        hnil (List.length_eq_zero_iff.mp (Nat.le_zero.mp (hzero ▸ h')))
      have hlt := length_drop_scalar hnil
      have hrest (escaped : Bool) :
          stringLen delimiter left escaped (rest.drop (scalarLen rest)) =
            stringLen delimiter left' escaped (rest.drop (scalarLen rest)) :=
        ih (by omega) (by omega)
      rw [stringLen, stringLen, if_neg hnil, if_neg hnil]
      dsimp only
      rw [hrest]

/-! ## §2 The scanner -/

/-- A byte of a number in `udl::lex`. -/
def inNumber (b : UInt8) : Bool := isAsciiAlphanumeric b || b == 46 || b == 95

/-- The rest of a number in `udl::lex`. -/
def udlNumberLen (rest : Bytes) : Nat := (rest.takeWhile inNumber).length

/-- One turn of the loop in `udl::lex`; `number` says how far a number runs behind its first
digit. -/
def udlTokenWith (number : UInt8 → Bytes → Nat) (vocabulary : Vocabulary) (definition : Definition)
    (rest : Bytes) : Token :=
  let c := rest.take (scalarLen rest)
  let behind := rest.drop (scalarLen rest)
  match definition.lineComment.filter fun token => token.isPrefixOf rest with
  | some token => ⟨token.length + commentLen (rest.drop token.length), some .comment, .normal⟩
  | none =>
    match definition.blockComment.filter fun tokens => tokens.1.isPrefixOf rest with
    | some tokens => ⟨tokens.1.length + blockLen tokens.2 (rest.drop tokens.1.length),
        some .comment, .normal⟩
    | none =>
      if definition.strings.contains c then
        ⟨scalarLen rest + stringLen c behind.length false behind, some .string, .normal⟩
      else if c = [95] ∨ vocabulary.isAlphabetic c then
        let length := scalarLen rest + wordLen vocabulary behind.length behind
        ⟨length, if definition.keywords.contains (rest.take length) then some .keyword else none,
          .normal⟩
      else if c.length = 1 ∧ c.all isDigit then
        ⟨1 + number (c.headD 0) behind, some .number, .normal⟩
      else ⟨scalarLen rest, if c <:+: definition.operators then some .operator else none, .normal⟩

/-- One turn of the loop in `udl::lex`. -/
def udlToken (vocabulary : Vocabulary) (definition : Definition) (rest : Bytes) : Token :=
  udlTokenWith (fun _ => udlNumberLen) vocabulary definition rest

/-- The loop of `udl::lex`, from an offset. -/
def udlLoop (vocabulary : Vocabulary) (definition : Definition) :
    Nat → Nat → Bytes → List StyleSpan → Except SyntaxError (List StyleSpan)
  | 0, _, _, spans => .ok spans
  | turns + 1, start, rest, spans =>
    if rest = [] then .ok spans
    else
      let token := udlToken vocabulary definition rest
      let behind := rest.drop token.length
      match token.kind with
      | none => udlLoop vocabulary definition turns (start + token.length) behind spans
      | some kind =>
        if MAX_SPANS ≤ spans.length then .error .budgetExceeded
        else udlLoop vocabulary definition turns (start + token.length) behind
          (spans ++ [⟨⟨start, start + token.length⟩, kind⟩])

/-- `udl::lex` -/
def udlLex (vocabulary : Vocabulary) (text : Bytes) (definition : Definition) :
    Except SyntaxError (List StyleSpan) := do
  definition.validate
  if text.length > MAX_REQUEST_BYTES then .error .budgetExceeded
  else udlLoop vocabulary definition text.length 0 text []

/-- The tokens of a text, by a rule for numbers. -/
def udlTokens (number : UInt8 → Bytes → Nat) (vocabulary : Vocabulary) (definition : Definition) :
    Nat → Bytes → List Token
  | 0, _ => []
  | turns + 1, rest =>
    if rest = [] then []
    else
      let token := udlTokenWith number vocabulary definition rest
      token :: udlTokens number vocabulary definition turns (rest.drop token.length)

/-! ## §3 Comments and strings of the highlighter -/

theorem blockLen_here {close rest : Bytes} (h : close.isPrefixOf rest = true) :
    blockLen close rest = close.length := by
  rw [blockLen, find_here h]
  exact Nat.zero_add _

theorem blockLen_later {close rest : Bytes} (h : ¬close.isPrefixOf rest = true) (hne : rest ≠ []) :
    blockLen close rest = scalarLen rest + blockLen close (rest.drop (scalarLen rest)) := by
  rw [blockLen, find_later h hne, blockLen]
  cases find close (rest.drop (scalarLen rest)) with
  | none =>
    have := scalarLen_bounds hne
    show rest.length = _ + (rest.drop _).length
    rw [List.length_drop]
    omega
  | some n => exact Nat.add_assoc ..

theorem stringLen_step (delimiter : Bytes) (escaped : Bool) {rest : Bytes} (hne : rest ≠ []) :
    stringLen delimiter rest.length escaped rest =
      if !escaped && rest.take (scalarLen rest) == delimiter then scalarLen rest
      else scalarLen rest + stringLen delimiter (rest.drop (scalarLen rest)).length
        (!escaped && rest.take (scalarLen rest) == [BACKSLASH]) (rest.drop (scalarLen rest)) := by
  have hlt := length_drop_scalar hne
  obtain ⟨left, hleft⟩ := Nat.exists_eq_succ_of_ne_zero (Nat.ne_zero_of_lt hlt)
  have hrest (escaped : Bool) : stringLen delimiter left escaped (rest.drop (scalarLen rest)) =
      stringLen delimiter (rest.drop (scalarLen rest)).length escaped
        (rest.drop (scalarLen rest)) := stringLen_enough (by omega) (Nat.le_refl _)
  rw [hleft, stringLen, if_neg hne]
  dsimp only
  rw [hrest]

/-- The lexer of a user-defined language. -/
def udlLexer (vocabulary : Vocabulary) (definition : Definition) : Lexer :=
  ⟨vocabulary, .plainText, some definition⟩

/-- Tokens of one kind, each of which takes some bytes. -/
def AllOf (kind : StyleKind) (ts : List Token) : Prop :=
  ∀ t ∈ ts, t.kind = some kind

section Literals

variable {vocabulary : Vocabulary} {definition : Definition}

/-- Inside a block comment the highlighter reads what is up to its end. -/
theorem Lexer.Pass.block {opening close : Bytes}
    (hblock : definition.blockComment = some (opening, close)) (hclose : close ≠ [])
    {rest : Bytes} {ts : List Token} {last : State}
    (h : (udlLexer vocabulary definition).Pass (.block 1) rest ts last) :
    ∃ us vs last', ts = us ++ vs ∧ AllOf .comment us ∧ extent us = blockLen close rest ∧
      (udlLexer vocabulary definition).Pass .normal (rest.drop (blockLen close rest)) vs last' := by
  generalize hstate : State.block 1 = state at h
  induction h with
  | done state =>
    refine ⟨[], [], .normal, rfl, fun t ht => (by cases ht), ?_, ?_⟩
    · rw [blockLen, find, findFrom, if_neg (by simpa using hclose), if_pos rfl]
      rfl
    · rw [List.drop_nil]
      exact .done .normal
  | @step state state' rest ts more after ih =>
    subst hstate
    have htoken : (udlLexer vocabulary definition).token (.block 1) rest =
        if close.isPrefixOf rest then ⟨close.length, some .comment, .normal⟩
        else ⟨scalarLen rest, some .comment, .block 1⟩ := by
      rw [token, blockToken]
      have hmarkers : (udlLexer vocabulary definition).blockComment = some (opening, close) :=
        hblock
      rw [hmarkers, Option.getD_some, if_neg (by rintro ⟨h, -⟩; cases h)]
      rfl
    rw [htoken] at after ih ⊢
    by_cases hprefix : close.isPrefixOf rest = true
    · rw [if_pos hprefix] at after ⊢
      refine ⟨[_], ts, state', rfl, List.forall_mem_singleton.mpr rfl, ?_, ?_⟩
      · rw [blockLen_here hprefix]
        rfl
      · rw [blockLen_here hprefix]
        exact after
    · rw [if_neg hprefix] at after ih ⊢
      obtain ⟨us, vs, last', rfl, hus, hextent, hpass⟩ := ih rfl
      refine ⟨_ :: us, vs, last', rfl, List.forall_mem_cons.mpr ⟨rfl, hus⟩, ?_, ?_⟩
      · rw [blockLen_later hprefix more, ← hextent]
        rfl
      · rw [blockLen_later hprefix more, ← List.drop_drop]
        exact hpass

/-- Inside a string the highlighter reads what is up to its delimiter. -/
theorem Lexer.Pass.quote {delimiter : Bytes} {escaped : Bool} {rest : Bytes} {ts : List Token}
    {last : State}
    (h : (udlLexer vocabulary definition).Pass (.quote escaped delimiter) rest ts last) :
    ∃ us vs last', ts = us ++ vs ∧ AllOf .string us ∧
      extent us = stringLen delimiter rest.length escaped rest ∧
      (udlLexer vocabulary definition).Pass .normal
        (rest.drop (stringLen delimiter rest.length escaped rest)) vs last' := by
  generalize hstate : State.quote escaped delimiter = state at h
  induction h generalizing escaped with
  | done state => exact ⟨[], [], .normal, rfl, fun t ht => (by cases ht), rfl, .done .normal⟩
  | @step state state' rest ts more after ih =>
    subst hstate
    have htoken : (udlLexer vocabulary definition).token (.quote escaped delimiter) rest =
        ⟨scalarLen rest, some .string,
          if !escaped && rest.take (scalarLen rest) == delimiter then .normal
          else .quote (!escaped && rest.take (scalarLen rest) == [BACKSLASH]) delimiter⟩ := by
      rw [token, quoteToken]
      cases escaped with
      | true => rfl
      | false =>
        by_cases hend : rest.take (scalarLen rest) = delimiter
        · simp [hend]
        · simp [hend, beq_eq_decide]
    rw [htoken] at after ih ⊢
    rw [stringLen_step delimiter escaped more]
    by_cases hend : (!escaped && rest.take (scalarLen rest) == delimiter) = true
    · simp only [if_pos hend] at after ⊢
      exact ⟨[_], ts, state', rfl, List.forall_mem_singleton.mpr rfl, rfl, after⟩
    · simp only [if_neg hend] at after ih ⊢
      obtain ⟨us, vs, last', rfl, hus, hextent, hpass⟩ := ih rfl
      refine ⟨_ :: us, vs, last', rfl, List.forall_mem_cons.mpr ⟨rfl, hus⟩, ?_, ?_⟩
      · rw [← hextent]
        rfl
      · rw [← List.drop_drop]
        exact hpass

end Literals

/-! ## §4 One turn -/

section Turn

variable {vocabulary : Vocabulary} {definition : Definition}

/-- The turn of the highlighter at the start of a token, and that of the scanner with the same
rule for numbers: the same, or the opening of what the scanner takes at once. -/
inductive Turn (vocabulary : Vocabulary) (definition : Definition) (rest : Bytes) :
    Token → Token → Prop where
  | same (t : Token) (next : t.next = .normal) : Turn vocabulary definition rest t t
  | block {opening close : Bytes} (here : definition.blockComment = some (opening, close)) :
      Turn vocabulary definition rest ⟨opening.length, some .comment, .block 1⟩
        ⟨opening.length + blockLen close (rest.drop opening.length), some .comment, .normal⟩
  | quote (delimiter : Bytes) :
      Turn vocabulary definition rest ⟨scalarLen rest, some .string, .quote false delimiter⟩
        ⟨scalarLen rest + stringLen delimiter (rest.drop (scalarLen rest)).length false
          (rest.drop (scalarLen rest)), some .string, .normal⟩

theorem length_take_scalar {rest : Bytes} (hne : rest ≠ []) :
    (rest.take (scalarLen rest)).length = scalarLen rest := by
  rw [List.length_take, Nat.min_eq_left (scalarLen_bounds hne).2]

theorem turn (hdigit : ∀ b, isDigit b = true → vocabulary.isAlphabetic [b] = false) {rest : Bytes}
    (hne : rest ≠ []) :
    Turn vocabulary definition rest ((udlLexer vocabulary definition).token .normal rest)
      (udlTokenWith numberLen vocabulary definition rest) := by
  have hlineComment : (udlLexer vocabulary definition).lineComment = definition.lineComment := rfl
  have hblockComment : (udlLexer vocabulary definition).blockComment =
      definition.blockComment := rfl
  have hcustom : (udlLexer vocabulary definition).custom = some definition := rfl
  have hvocabulary : (udlLexer vocabulary definition).vocabulary = vocabulary := rfl
  have hopening : (udlLexer vocabulary definition).opensString rest =
      definition.strings.contains (rest.take (scalarLen rest)) := rfl
  have hliteral : (udlLexer vocabulary definition).charLiteral rest = none :=
    if_neg fun h => (by cases h.1)
  rw [Lexer.token, hliteral, Lexer.opening, udlTokenWith, hlineComment, hblockComment]
  cases hline : definition.lineComment.filter fun token => token.isPrefixOf rest with
  | some token => exact .same _ rfl
  | none =>
    cases hblock : definition.blockComment.filter fun tokens => tokens.1.isPrefixOf rest with
    | some tokens => exact .block (Option.filter_eq_some_iff.mp hblock).1
    | none =>
      dsimp only
      have hlanguage : (udlLexer vocabulary definition).language ≠ .rust := fun h => (by cases h)
      rw [if_neg hlanguage, hopening]
      by_cases hstring : definition.strings.contains (rest.take (scalarLen rest)) = true
      · rw [if_pos hstring, if_pos hstring, length_take_scalar hne]
        exact .quote _
      · rw [if_neg hstring, if_neg hstring]
        dsimp only
        rw [Lexer.plain, hcustom, hvocabulary]
        dsimp only
        have hjson : ¬((udlLexer vocabulary definition).language = .json ∧
            rest.take (scalarLen rest) = [45] ∧
              (rest.drop (scalarLen rest)).head?.any isDigit = true) := fun h => (by cases h.1)
        by_cases hnumber : (rest.take (scalarLen rest)).length = 1 ∧
            (rest.take (scalarLen rest)).all isDigit = true
        · -- a digit is no letter
          have hletter : ¬(rest.take (scalarLen rest) = [95] ∨
              vocabulary.isAlphabetic (rest.take (scalarLen rest)) = true) := by
            obtain ⟨b, hb⟩ := List.length_eq_one_iff.mp hnumber.1
            rw [hb, List.all_cons, List.all_nil, Bool.and_true] at hnumber
            rw [hb, hdigit b hnumber.2]
            rintro (heq | hfalse)
            · obtain rfl := (List.cons.inj heq).1
              exact absurd hnumber.2 (by decide)
            · cases hfalse
          rw [if_pos (.inl hnumber), if_neg hletter, if_pos hnumber, ← hnumber.1,
            length_take_scalar hne]
          exact .same _ rfl
        · rw [if_neg (not_or.mpr ⟨hnumber, hjson⟩)]
          by_cases hletter : rest.take (scalarLen rest) = [95] ∨
              vocabulary.isAlphabetic (rest.take (scalarLen rest)) = true
          · rw [if_pos hletter, if_pos hletter]
            exact .same _ rfl
          · rw [if_neg hletter, if_neg hletter, if_neg hnumber]
            exact .same _ rfl

end Turn

/-! ## §5 Whole texts -/

/-- Touching spans of one kind merge to one. -/
theorem foldl_touching {kind : StyleKind} {ts : List Token} (hne : ts ≠ [])
    (h : AllOf kind ts) (acc : List StyleSpan) (start : Nat) :
    (styled start ts).foldl joinSpan acc = joinSpan acc ⟨⟨start, start + extent ts⟩, kind⟩ := by
  induction ts using List.reverseRecOn with
  | nil => exact absurd rfl hne
  | append_singleton ts t ih =>
    have ht : t.kind = some kind := h t (List.mem_append_right _ (List.mem_singleton_self t))
    have hlast (start : Nat) : styled start [t] = [⟨⟨start, start + t.length⟩, kind⟩] := by
      rw [styled, ht, styled]
      rfl
    have hsum : extent (ts ++ [t]) = extent ts + t.length := by
      rw [extent, List.map_append, List.sum_append]
      rfl
    rw [styled_append, hlast, List.foldl_append, hsum, ← Nat.add_assoc]
    cases ts with
    | nil => rfl
    | cons first ts =>
      rw [ih (List.cons_ne_nil _ _) fun u hu => h u (List.mem_append_left _ hu)]
      refine (joinSpan_joinSpan acc ?_)
      rw [StyleSpan.follows, Bool.and_eq_true, beq_iff_eq, beq_iff_eq]
      exact ⟨rfl, rfl⟩

/-- Merged, the spans of the highlighter are those of the scanner with the same rule for
numbers. -/
theorem Lexer.Pass.spans {vocabulary : Vocabulary} {definition : Definition}
    (hvalid : definition.validate = .ok ())
    (hdigit : ∀ b, isDigit b = true → vocabulary.isAlphabetic [b] = false) {text : Bytes}
    {ts : List Token} {last : State}
    (h : (udlLexer vocabulary definition).Pass .normal text ts last) (acc : List StyleSpan)
    (start : Nat) {turns : Nat} (hturns : text.length ≤ turns) :
    (styled start ts).foldl joinSpan acc =
      (styled start (udlTokens numberLen vocabulary definition turns text)).foldl joinSpan acc := by
  have hlexer : (udlLexer vocabulary definition).Valid := by
    intro custom hcustom
    obtain rfl := Option.some.inj hcustom
    exact hvalid
  induction hn : text.length using Nat.strongRecOn generalizing text ts last acc start turns with
  | ind n ih =>
    subst hn
    cases h with
    | done _ =>
      cases turns <;> rfl
    | @step _ _ _ ts more after =>
      obtain ⟨turns, rfl⟩ := Nat.exists_eq_succ_of_ne_zero (n := turns)
        (Nat.ne_zero_of_lt (Nat.lt_of_lt_of_le (List.length_pos_iff.mpr more) hturns))
      have hbounds := Lexer.token_bounds hlexer .normal more
      have hstart : Turn vocabulary definition text
          ((udlLexer vocabulary definition).token .normal text)
          (udlTokenWith numberLen vocabulary definition text) := turn hdigit more
      rw [udlTokens, if_neg more]
      dsimp only
      -- the scanner goes on behind the token and what the highlighter reads after it
      have hgo {us vs : List Token} {last' : State} {u : Token} (hkind : us = [u] ∨
          ∃ kind, u.kind = some kind ∧ us ≠ [] ∧ AllOf kind us) (hextent : extent us = u.length)
          (hpos : 0 < u.length)
          (hpass : (udlLexer vocabulary definition).Pass .normal (text.drop u.length) vs last') :
          (styled start (us ++ vs)).foldl joinSpan acc =
            (styled start (u :: udlTokens numberLen vocabulary definition turns
              (text.drop u.length))).foldl joinSpan acc := by
        have hlt : (text.drop u.length).length < text.length := by
          have := List.length_pos_iff.mpr more
          rw [List.length_drop]
          omega
        have hone : (styled start us).foldl joinSpan acc =
            (styled start [u]).foldl joinSpan acc := by
          obtain rfl | ⟨kind, hu, hne, hall⟩ := hkind
          · rfl
          · rw [foldl_touching hne hall, foldl_touching (List.cons_ne_nil u [])
              (List.forall_mem_singleton.mpr hu), hextent]
            rfl
        rw [styled_append, List.foldl_append, hone,
          ih _ hlt hpass _ _ (Nat.le_of_lt_succ (Nat.lt_of_lt_of_le hlt hturns)) rfl, hextent,
          ← List.foldl_append]
        exact congrArg _ (styled_append start [u] _).symm
      generalize (udlLexer vocabulary definition).token .normal text = t at hstart after hbounds ⊢
      generalize udlTokenWith numberLen vocabulary definition text = u at hstart ⊢
      cases hstart with
      | same _ next =>
        rw [next] at after
        exact hgo (.inl rfl) (by rw [extent]; rfl) hbounds.1 after
      | @block opening close here =>
        have hclose : close ≠ [] := by
          refine (Definition.validate_marker hvalid close ?_).nonempty
          rw [Definition.tokens, here]
          exact List.mem_append_right _ (List.mem_cons_of_mem _ List.mem_cons_self)
        obtain ⟨us, vs, last', rfl, hus, hextent, hpass⟩ := Lexer.Pass.block here hclose after
        rw [List.drop_drop] at hpass
        refine hgo (.inr ⟨.comment, rfl, List.cons_ne_nil _ us, List.forall_mem_cons.mpr
          ⟨rfl, hus⟩⟩) ?_ (Nat.add_pos_left hbounds.1 _) hpass
        rw [← hextent]
        rfl
      | quote delimiter =>
        obtain ⟨us, vs, last', rfl, hus, hextent, hpass⟩ := after.quote
        rw [List.drop_drop] at hpass
        refine hgo (.inr ⟨.string, rfl, List.cons_ne_nil _ us, List.forall_mem_cons.mpr
          ⟨rfl, hus⟩⟩) ?_ (Nat.add_pos_left hbounds.1 _) hpass
        rw [← hextent]
        rfl

end BareLine.Syntax
