import BareLine.Syntax.Udl

/-!
# The tokens of the scanner

Where a comment or string of `udl::lex` ends, and that its tokens cut a text between characters.
-/

namespace BareLine.Syntax

open Lib Codec

/-! ## §1 Searching -/

theorem Scalar.scalarLen_append {c : Bytes} (h : Scalar c) (u : Bytes) :
    scalarLen (c ++ u) = c.length := by
  rw [scalarLen, h.scan_append]

theorem Scalar.take_append {c : Bytes} (h : Scalar c) (u : Bytes) :
    (c ++ u).take (scalarLen (c ++ u)) = c := by
  rw [Scalar.scalarLen_append h, List.take_left]

theorem Scalar.drop_append {c : Bytes} (h : Scalar c) (u : Bytes) :
    (c ++ u).drop (scalarLen (c ++ u)) = u := by
  rw [Scalar.scalarLen_append h, List.drop_left]

/-- No place inside of a text in front of some bytes starts a pattern. -/
def NoneBefore (pattern text behind : Bytes) : Prop :=
  ∀ p q, text = p ++ q → q ≠ [] → ¬pattern <+: q ++ behind

/-- A pattern that starts with a whole character is found between characters only. -/
theorem noneBefore_of_text {pattern text behind : Bytes} (hpattern : IsText pattern)
    (hne : pattern ≠ []) (htext : IsText (text ++ behind))
    (h : ∀ p q, text = p ++ q → q ≠ [] → IsText p → ¬pattern <+: q ++ behind) :
    NoneBefore pattern text behind := by
  intro p q heq hq hprefix
  refine h p q heq hq ?_ hprefix
  rw [heq, List.append_assoc] at htext
  refine (htext.of_clean ?_).1
  obtain ⟨r, hr⟩ := hprefix
  rw [← hr]
  exact hpattern.clean.append hne

/-- What the search finds: the pattern, and no earlier one. -/
theorem find_spec {pattern text : Bytes} (hne : pattern ≠ []) (htext : IsText text) :
    (∃ body behind, text = body ++ (pattern ++ behind) ∧ find pattern text = some body.length ∧
      IsText body ∧
        ∀ p q, body = p ++ q → q ≠ [] → IsText p → ¬pattern <+: q ++ (pattern ++ behind)) ∨
    (find pattern text = none ∧ ∀ p q, text = p ++ q → q ≠ [] → IsText p → ¬pattern <+: q) := by
  induction htext with
  | nil =>
    refine .inr ⟨?_, fun p q heq hq => absurd (List.append_eq_nil_iff.mp heq.symm).2 hq⟩
    rw [find, findFrom, if_neg (by simpa using hne), if_pos rfl]
  | @cons c u hc hu ih =>
    by_cases hhere : pattern.isPrefixOf (c ++ u) = true
    · obtain ⟨behind, hbehind⟩ := List.isPrefixOf_iff_prefix.mp hhere
      refine .inl ⟨[], behind, hbehind.symm, find_here hhere, .nil, fun p q heq hq => ?_⟩
      exact absurd (List.append_eq_nil_iff.mp heq.symm).2 hq
    have hfind := find_later hhere (List.append_ne_nil_of_left_ne_nil hc.ne_nil u)
    rw [Scalar.drop_append hc, Scalar.scalarLen_append hc] at hfind
    -- a place between characters is the first one or behind the first character
    have hplace {w p q : Bytes} (heq : c ++ w = p ++ q) (hp : IsText p) :
        p = [] ∨ ∃ p', p = c ++ p' ∧ IsText p' ∧ w = p' ++ q := by
      by_cases hnil : p = []
      · exact .inl hnil
      obtain ⟨d, p', rfl, hd, hp'⟩ := hp.cases_scan hnil
      have hlen : c.length = d.length := by
        have hscan := hc.scan_append w
        rw [heq, List.append_assoc, hd.scan_append] at hscan
        exact (Scan.valid.inj hscan).symm
      rw [List.append_assoc] at heq
      obtain ⟨rfl, hw⟩ := List.append_inj heq hlen
      exact .inr ⟨p', rfl, hp', hw⟩
    rw [List.isPrefixOf_iff_prefix] at hhere
    obtain ⟨body, behind, rfl, hfound, hbody, hfirst⟩ | ⟨hfound, hnone⟩ := ih
    · refine .inl ⟨c ++ body, behind, (List.append_assoc ..).symm, ?_, .cons hc hbody, ?_⟩
      · rw [hfind, hfound, Option.map_some, List.length_append]
      · intro p q heq hq hp
        obtain rfl | ⟨p', rfl, hp', hw⟩ := hplace heq hp
        · rw [List.nil_append] at heq
          rwa [← heq, List.append_assoc]
        · exact hfirst p' q hw hq hp'
    · refine .inr ⟨by rw [hfind, hfound]; rfl, fun p q heq hq hp => ?_⟩
      obtain rfl | ⟨p', rfl, hp', hw⟩ := hplace heq hp
      · rw [List.nil_append] at heq
        rwa [← heq]
      · exact hnone p' q hw hq hp'

/-! ## §2 Strings -/

/-- Bytes inside a string, from a place behind a backslash or not to another one: no delimiter
stands among them but behind a backslash. -/
inductive Inside (delimiter : Bytes) : Bool → Bytes → Bool → Prop where
  | nil (escaped : Bool) : Inside delimiter escaped [] escaped
  | escaped {c w : Bytes} {last : Bool} (scalar : Scalar c) (rest : Inside delimiter false w last) :
      Inside delimiter true (c ++ w) last
  | slash {w : Bytes} {last : Bool} (other : [BACKSLASH] ≠ delimiter)
      (rest : Inside delimiter true w last) : Inside delimiter false ([BACKSLASH] ++ w) last
  | plain {c w : Bytes} {last : Bool} (scalar : Scalar c) (other : c ≠ delimiter)
      (slashless : c ≠ [BACKSLASH]) (rest : Inside delimiter false w last) :
      Inside delimiter false (c ++ w) last

/-- A string ends at its first delimiter that no backslash escapes, or with the text. -/
theorem stringLen_spec {delimiter text : Bytes} (htext : IsText text) (escaped : Bool) :
    (∃ body behind, text = body ++ (delimiter ++ behind) ∧ Inside delimiter escaped body false ∧
      IsText behind ∧
      stringLen delimiter text.length escaped text = body.length + delimiter.length) ∨
    (∃ last, Inside delimiter escaped text last ∧
      stringLen delimiter text.length escaped text = text.length) := by
  induction htext generalizing escaped with
  | nil => exact .inr ⟨escaped, .nil escaped, rfl⟩
  | @cons c u hc hu ih =>
    have hstep := stringLen_step delimiter escaped
      (List.append_ne_nil_of_left_ne_nil hc.ne_nil u)
    rw [Scalar.take_append hc, Scalar.drop_append hc, Scalar.scalarLen_append hc] at hstep
    by_cases hend : (!escaped && c == delimiter) = true
    · rw [if_pos hend] at hstep
      rw [Bool.and_eq_true, Bool.not_eq_true', beq_iff_eq] at hend
      obtain ⟨rfl, rfl⟩ := hend
      exact .inl ⟨[], u, rfl, .nil false, hu, by rw [hstep]; exact (Nat.zero_add _).symm⟩
    · rw [if_neg hend] at hstep
      -- the character stands inside, and the rest is read from the place behind it
      have hinside {w : Bytes} {last : Bool}
          (hw : Inside delimiter (!escaped && c == [BACKSLASH]) w last) :
          Inside delimiter escaped (c ++ w) last := by
        cases escaped with
        | true => exact .escaped hc hw
        | false =>
          simp only [Bool.not_false, Bool.true_and, beq_iff_eq] at hend hw
          by_cases hslash : c = [BACKSLASH]
          · subst hslash
            exact .slash hend hw
          · rw [beq_false_of_ne hslash] at hw
            exact .plain hc hend hslash hw
      obtain ⟨body, behind, rfl, hbody, hbehind, hlen⟩ | ⟨last, hopen, hlen⟩ :=
        ih (!escaped && c == [BACKSLASH])
      · refine .inl ⟨c ++ body, behind, (List.append_assoc ..).symm, hinside hbody, hbehind, ?_⟩
        rw [hstep, hlen, List.length_append, Nat.add_assoc]
      · refine .inr ⟨last, hinside hopen, ?_⟩
        rw [hstep, hlen, List.length_append]

/-! ## §3 Words and numbers -/

/-- The rest of a text behind some of its first characters. -/
def CutAt (rest : Bytes) (n : Nat) : Prop := n ≤ rest.length ∧ IsText (rest.drop n)

theorem isText_ascii {t : Bytes} (h : ∀ b ∈ t, b < 0x80) : IsText t := by
  induction t with
  | nil => exact .nil
  | cons b t ih =>
    obtain ⟨hb, ht⟩ := List.forall_mem_cons.mp h
    have hscalar : Scalar [b] := if_pos hb
    exact .cons hscalar (ih ht)

theorem cutAt_ascii {rest : Bytes} (h : IsText rest) {n : Nat} (hle : n ≤ rest.length)
    (hascii : ∀ b ∈ rest.take n, b < 0x80) : CutAt rest n := by
  refine ⟨hle, ?_⟩
  have hsplit : IsText (rest.take n ++ rest.drop n) := by rwa [List.take_append_drop]
  exact .of_append (isText_ascii hascii) hsplit

theorem cutAt_word (vocabulary : Vocabulary) (left : Nat) {rest : Bytes} (h : IsText rest) :
    CutAt rest (wordLen vocabulary left rest) := by
  induction left generalizing rest with
  | zero => exact ⟨Nat.zero_le _, h⟩
  | succ left ih =>
    rw [wordLen]
    split_ifs with hnil
    · exact ⟨Nat.zero_le _, h⟩
    · dsimp only
      split_ifs
      · obtain ⟨c, u, rfl, hc, hu⟩ := h.cases_scan hnil
        obtain ⟨hle, htext⟩ := ih hu
        rw [Scalar.drop_append hc, Scalar.scalarLen_append hc]
        refine ⟨?_, ?_⟩
        · rw [List.length_append]
          omega
        · rwa [← List.drop_drop, List.drop_left]
      · exact ⟨Nat.zero_le _, h⟩

/-- How a rule for numbers cuts a text. -/
def CutsNumbers (number : UInt8 → Bytes → Nat) : Prop :=
  ∀ first rest, IsText rest → CutAt rest (number first rest)

theorem inNumber_ascii {b : UInt8} (h : inNumber b = true) : b < 0x80 := by
  simp only [inNumber, isAsciiAlphanumeric, isDigit, Bool.or_eq_true, Bool.and_eq_true,
    decide_eq_true_iff, beq_iff_eq] at h
  grind

theorem udlNumberLen_cuts : CutsNumbers fun _ => udlNumberLen := by
  intro _ rest h
  have hprefix : rest.takeWhile inNumber <+: rest := List.takeWhile_prefix _
  refine cutAt_ascii h hprefix.length_le fun b hb => inNumber_ascii ?_
  have htaken : b ∈ rest.take (rest.takeWhile inNumber).length := hb
  rw [← List.prefix_iff_eq_take.mp hprefix] at htaken
  exact List.all_eq_true.mp List.all_takeWhile b htaken

theorem numberLen_cuts : CutsNumbers numberLen := by
  intro first rest h
  refine cutAt_ascii h (numberLen_le first rest) ?_
  clear h
  induction rest generalizing first with
  | nil => exact fun b hb => (by cases hb)
  | cons b rest ih =>
    rw [numberLen]
    split_ifs with htaken
    · rw [Nat.add_comm 1, List.take_succ_cons]
      refine List.forall_mem_cons.mpr ⟨?_, ih b⟩
      simp only [isAsciiAlphanumeric, isDigit, Bool.or_eq_true, Bool.and_eq_true,
        decide_eq_true_iff, beq_iff_eq] at htaken
      grind
    · exact fun b hb => (by cases hb)

theorem CutAt.behind {front rest : Bytes} {n : Nat} (h : CutAt rest n) :
    CutAt (front ++ rest) (front.length + n) := by
  refine ⟨?_, ?_⟩
  · rw [List.length_append]
    exact Nat.add_le_add_left h.1 _
  · rw [← List.drop_drop, List.drop_left]
    exact h.2

/-- A front and what is left of a text behind it. -/
theorem cutAt_append {front rest : Bytes} (h : IsText rest) :
    CutAt (front ++ rest) front.length := by
  refine ⟨?_, ?_⟩
  · rw [List.length_append]
    exact Nat.le_add_right _ _
  · rwa [List.drop_left]

/-! ## §4 Tokens -/

/-- The texts of a definition are texts, and its string delimiters are characters. -/
structure Definition.Typed (definition : Definition) : Prop where
  tokens : ∀ token ∈ definition.tokens, IsText token
  strings : ∀ delimiter ∈ definition.strings, Scalar delimiter

/-- How a comment or string at the start of a text ends: right behind its first terminator, or with
the line or the text. -/
inductive Ends (definition : Definition) : StyleKind → Bytes → Nat → Prop where
  | line {opening body behind : Bytes} (marker : definition.lineComment = some opening)
      (inLine : ∀ b ∈ body, isLineEnd b = false) (stop : ∀ b ∈ behind.head?, isLineEnd b = true) :
      Ends definition .comment (opening ++ (body ++ behind)) (opening.length + body.length)
  | block {opening close body behind : Bytes}
      (markers : definition.blockComment = some (opening, close))
      (first : NoneBefore close body (close ++ behind)) :
      Ends definition .comment (opening ++ (body ++ (close ++ behind)))
        (opening.length + (body.length + close.length))
  | unclosed {opening close body : Bytes}
      (markers : definition.blockComment = some (opening, close))
      (none : NoneBefore close body []) :
      Ends definition .comment (opening ++ body) (opening.length + body.length)
  | string {delimiter body behind : Bytes} (opens : delimiter ∈ definition.strings)
      (inside : Inside delimiter false body false) :
      Ends definition .string (delimiter ++ (body ++ (delimiter ++ behind)))
        (delimiter.length + (body.length + delimiter.length))
  | unended {delimiter body : Bytes} {last : Bool} (opens : delimiter ∈ definition.strings)
      (inside : Inside delimiter false body last) :
      Ends definition .string (delimiter ++ body) (delimiter.length + body.length)

/-- A token takes something, cuts the text between characters, and ends as it should. -/
structure Shaped (definition : Definition) (rest : Bytes) (t : Token) : Prop where
  positive : 0 < t.length
  cut : CutAt rest t.length
  ends : ∀ kind, t.kind = some kind → kind = .comment ∨ kind = .string →
    Ends definition kind rest t.length

section Tokens

variable {vocabulary : Vocabulary} {definition : Definition} {rest : Bytes}

theorem shaped_line {opening : Bytes} (hmarker : definition.lineComment = some opening)
    (hne : opening ≠ []) (htext : IsText rest) :
    Shaped definition (opening ++ rest)
      ⟨opening.length + commentLen rest, some .comment, .normal⟩ := by
  have hsplit : rest.takeWhile (fun b => !isLineEnd b) ++ rest.dropWhile (fun b => !isLineEnd b) =
      rest := List.takeWhile_append_dropWhile
  have hstop : ∀ b ∈ (rest.dropWhile fun b => !isLineEnd b).head?, isLineEnd b = true := by
    intro b hb
    have hnot := List.head?_dropWhile_not (fun b => !isLineEnd b) rest
    rw [Option.mem_def.mp hb] at hnot
    simpa using hnot
  have hclean : StartsClean (rest.dropWhile fun b => !isLineEnd b) := by
    intro b hb
    have hend := hstop b hb
    rw [isLineEnd, Bool.or_eq_true, beq_iff_eq, beq_iff_eq] at hend
    rcases hend with rfl | rfl <;> decide
  refine ⟨Nat.add_pos_left (List.length_pos_iff.mpr hne) _, ?_, ?_⟩
  · refine CutAt.behind ⟨?_, ?_⟩
    · exact (List.takeWhile_prefix _).length_le
    · have hbehind := (IsText.of_clean (hsplit.symm ▸ htext) hclean).2
      have hdrop : ((rest.takeWhile fun b => !isLineEnd b) ++
          rest.dropWhile fun b => !isLineEnd b).drop (rest.takeWhile fun b => !isLineEnd b).length =
          rest.dropWhile fun b => !isLineEnd b := List.drop_left
      rw [hsplit] at hdrop
      rw [commentLen, hdrop]
      exact hbehind
  · rintro kind hkind -
    obtain rfl := Option.some.inj hkind
    have hinLine : ∀ b ∈ rest.takeWhile fun b => !isLineEnd b, isLineEnd b = false :=
      fun b hb => by simpa using List.all_eq_true.mp List.all_takeWhile b hb
    have hends := Ends.line hmarker hinLine hstop
    rw [hsplit] at hends
    exact hends

theorem shaped_block {opening close : Bytes}
    (hmarkers : definition.blockComment = some (opening, close)) (hne : opening ≠ [])
    (hclose : close ≠ []) (hclosing : IsText close) (htext : IsText rest) :
    Shaped definition (opening ++ rest)
      ⟨opening.length + blockLen close rest, some .comment, .normal⟩ := by
  have hpos := Nat.add_pos_left (List.length_pos_iff.mpr hne) (blockLen close rest)
  obtain ⟨body, behind, rfl, hfound, hbody, hfirst⟩ | ⟨hfound, hnone⟩ := find_spec hclose htext
  · have hlen : blockLen close (body ++ (close ++ behind)) = body.length + close.length := by
      rw [blockLen, hfound]
    rw [hlen] at hpos ⊢
    refine ⟨hpos, ?_, ?_⟩
    · refine CutAt.behind (CutAt.behind (cutAt_append ?_))
      exact .of_append hclosing (.of_append hbody htext)
    · rintro kind hkind -
      obtain rfl := Option.some.inj hkind
      exact .block hmarkers (noneBefore_of_text hclosing hclose htext hfirst)
  · have hlen : blockLen close rest = rest.length := by rw [blockLen, hfound]
    rw [hlen] at hpos ⊢
    refine ⟨hpos, ?_, ?_⟩
    · refine CutAt.behind ⟨Nat.le_refl _, ?_⟩
      rw [List.drop_length]
      exact .nil
    · rintro kind hkind -
      obtain rfl := Option.some.inj hkind
      refine .unclosed hmarkers (noneBefore_of_text hclosing hclose ?_ fun p q heq hq hp => ?_)
      · rwa [List.append_nil]
      · rw [List.append_nil]
        exact hnone p q heq hq hp

theorem shaped_string {delimiter : Bytes} (hopens : delimiter ∈ definition.strings)
    (hdelimiter : Scalar delimiter) (htext : IsText rest) :
    Shaped definition (delimiter ++ rest)
      ⟨delimiter.length + stringLen delimiter rest.length false rest, some .string, .normal⟩ := by
  have hpos := Nat.add_pos_left (List.length_pos_iff.mpr hdelimiter.ne_nil)
    (stringLen delimiter rest.length false rest)
  obtain ⟨body, behind, rfl, hbody, hbehind, hlen⟩ | ⟨last, hbody, hlen⟩ :=
    @stringLen_spec delimiter _ htext false
  · rw [hlen] at hpos ⊢
    refine ⟨hpos, CutAt.behind (CutAt.behind (cutAt_append hbehind)), ?_⟩
    rintro kind hkind -
    obtain rfl := Option.some.inj hkind
    exact .string hopens hbody
  · rw [hlen] at hpos ⊢
    refine ⟨hpos, CutAt.behind ⟨Nat.le_refl _, ?_⟩, ?_⟩
    · rw [List.drop_length]
      exact .nil
    · rintro kind hkind -
      obtain rfl := Option.some.inj hkind
      exact .unended hopens hbody

theorem shaped_plain {t : Token} (hpos : 0 < t.length) (hcut : CutAt rest t.length)
    (hplain : t.kind ≠ some .comment ∧ t.kind ≠ some .string) : Shaped definition rest t := by
  refine ⟨hpos, hcut, ?_⟩
  rintro kind hkind (rfl | rfl)
  · exact absurd hkind hplain.1
  · exact absurd hkind hplain.2

/-- Every token of the scanner has its shape. -/
theorem udlTokenWith_shaped {number : UInt8 → Bytes → Nat} (hnumber : CutsNumbers number)
    (hvalid : definition.validate = .ok ()) (htyped : definition.Typed) (htext : IsText rest)
    (hne : rest ≠ []) :
    Shaped definition rest (udlTokenWith number vocabulary definition rest) := by
  have hmarker := Definition.validate_marker hvalid
  rw [udlTokenWith]
  cases hline : definition.lineComment.filter fun token => token.isPrefixOf rest with
  | some opening =>
    obtain ⟨hsome, hprefix⟩ := Option.filter_eq_some_iff.mp hline
    obtain ⟨behind, rfl⟩ := List.isPrefixOf_iff_prefix.mp hprefix
    have hmem : opening ∈ definition.tokens :=
      List.mem_append_left _ (Option.mem_toList.mpr hsome)
    have hopening := htyped.tokens _ hmem
    dsimp only
    rw [List.drop_left]
    exact shaped_line hsome (hmarker _ hmem).nonempty (.of_append hopening htext)
  | none =>
    cases hblock : definition.blockComment.filter fun tokens => tokens.1.isPrefixOf rest with
    | some markers =>
      obtain ⟨opening, close⟩ := markers
      obtain ⟨hsome, hprefix⟩ := Option.filter_eq_some_iff.mp hblock
      obtain ⟨behind, rfl⟩ := List.isPrefixOf_iff_prefix.mp hprefix
      have hmem : ∀ token ∈ [opening, close], token ∈ definition.tokens := fun token htoken =>
        List.mem_append_right _ (List.mem_flatMap.mpr ⟨_, Option.mem_toList.mpr hsome, htoken⟩)
      have hopens := hmem opening List.mem_cons_self
      have hcloses := hmem close (List.mem_cons_of_mem _ List.mem_cons_self)
      dsimp only
      rw [List.drop_left]
      exact shaped_block hsome (hmarker _ hopens).nonempty (hmarker _ hcloses).nonempty
        (htyped.tokens _ hcloses) (.of_append (htyped.tokens _ hopens) htext)
    | none =>
      obtain ⟨c, u, rfl, hc, hu⟩ := htext.cases_scan hne
      dsimp only
      rw [Scalar.take_append hc, Scalar.drop_append hc, Scalar.scalarLen_append hc]
      have hpos := List.length_pos_iff.mpr hc.ne_nil
      by_cases hstring : definition.strings.contains c = true
      · rw [if_pos hstring]
        exact shaped_string (List.contains_iff_mem.mp hstring) hc hu
      rw [if_neg hstring]
      by_cases hletter : c = [95] ∨ vocabulary.isAlphabetic c = true
      · rw [if_pos hletter]
        refine shaped_plain (Nat.add_pos_left hpos _) (cutAt_word vocabulary u.length hu).behind ?_
        dsimp only
        split_ifs <;> decide
      rw [if_neg hletter]
      by_cases hdigit : c.length = 1 ∧ c.all isDigit = true
      · rw [if_pos hdigit]
        refine shaped_plain (Nat.add_pos_left Nat.one_pos _) ?_
          ⟨fun h => (by cases h), fun h => (by cases h)⟩
        have hcut : CutAt (c ++ u) (c.length + number (c.headD 0) u) := (hnumber _ u hu).behind
        rwa [hdigit.1] at hcut
      · rw [if_neg hdigit]
        refine shaped_plain hpos (cutAt_append hu) ?_
        dsimp only
        split_ifs <;> decide

end Tokens

end BareLine.Syntax
