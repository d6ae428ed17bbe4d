import BareLine.Syntax.UdlMerging

/-!
# Numbers in user-defined languages

The two lexers of a user-defined language differ at numbers only: `udl::lex` takes every dot and
no sign.
-/

namespace BareLine.Syntax

open Lib Codec

/-! ## §1 The two rules -/

/-- Both rules for numbers take the same bytes: every dot has a digit behind it, and the number does
not stop between an exponent letter and a sign. -/
def PlainNumber : UInt8 → Bytes → Prop
  | _, [] => True
  | previous, b :: rest =>
    if inNumber b then (b = 46 → rest.head?.any isDigit = true) ∧ PlainNumber b rest
    else ¬((b = 43 ∨ b = 45) ∧ (previous = 101 ∨ previous = 69))

/-- Whether the rule of the highlighter takes a byte. -/
theorem numberLen_takes {previous b : UInt8} {rest : Bytes} :
    (isAsciiAlphanumeric b || b == 95 ||
        (b == 46 && rest.head? != some 46 && rest.head?.any isDigit) ||
        ((b == 43 || b == 45) && (previous == 101 || previous == 69))) = true ↔
      if inNumber b then b = 46 → rest.head?.any isDigit = true
      else (b = 43 ∨ b = 45) ∧ (previous = 101 ∨ previous = 69) := by
  have hdot (h : rest.head?.any isDigit = true) : (rest.head? != some 46) = true := by
    rw [bne_iff_ne]
    intro heq
    rw [heq] at h
    exact absurd h (by decide)
  by_cases hword : isAsciiAlphanumeric b = true ∨ b = 95
  · have hother : b ≠ 46 := by
      rintro rfl
      exact absurd hword (by decide)
    have hin : inNumber b = true := by
      rw [inNumber, Bool.or_eq_true, Bool.or_eq_true, beq_iff_eq, beq_iff_eq]
      exact hword.imp_left .inl
    rw [if_pos hin]
    simp only [Bool.or_eq_true, beq_iff_eq]
    exact ⟨fun _ h => absurd h hother, fun _ => .inl (.inl hword)⟩
  by_cases hpoint : b = 46
  · subst hpoint
    rw [if_pos (show inNumber 46 = true from rfl)]
    simp only [Bool.or_eq_true, Bool.and_eq_true, beq_iff_eq]
    constructor
    · rintro ((h | h) | h) -
      · exact absurd h hword
      · exact h.2
      · exact absurd h.1 (by decide)
    · exact fun h => .inl (.inr ⟨⟨trivial, hdot (h trivial)⟩, h trivial⟩)
  · have hout : ¬inNumber b = true := by
      rw [inNumber, Bool.or_eq_true, Bool.or_eq_true, beq_iff_eq, beq_iff_eq]
      rintro ((h | h) | h)
      · exact hword (.inl h)
      · exact hpoint h
      · exact hword (.inr h)
    rw [if_neg hout]
    simp only [Bool.or_eq_true, Bool.and_eq_true, beq_iff_eq]
    constructor
    · rintro ((h | h) | h)
      · exact absurd h hword
      · exact absurd h.1.1 hpoint
      · exact h
    · exact .inr

theorem udlNumberLen_cons {b : UInt8} {rest : Bytes} :
    udlNumberLen (b :: rest) = if inNumber b then 1 + udlNumberLen rest else 0 := by
  rw [udlNumberLen, List.takeWhile_cons]
  split_ifs
  · rw [List.length_cons, Nat.add_comm]
    rfl
  · rfl

/-- A number is plain where the two rules take the same bytes; where it is not, neither rule stops
in front of a digit while the other goes on. -/
theorem plainNumber_spec (previous : UInt8) (rest : Bytes) :
    (PlainNumber previous rest ∧ numberLen previous rest = udlNumberLen rest) ∨
    (¬PlainNumber previous rest ∧ numberLen previous rest ≠ udlNumberLen rest ∧
      ∀ b ∈ rest[min (numberLen previous rest) (udlNumberLen rest)]?, isDigit b = false) := by
  induction rest generalizing previous with
  | nil => exact .inl ⟨trivial, rfl⟩
  | cons b rest ih =>
    have htakes := @numberLen_takes previous b rest
    rw [PlainNumber, numberLen, udlNumberLen_cons]
    by_cases hin : inNumber b = true
    · rw [if_pos hin] at htakes
      rw [if_pos hin, if_pos hin]
      by_cases hdot : b = 46 → rest.head?.any isDigit = true
      · rw [if_pos (htakes.mpr hdot)]
        rcases ih b with ⟨hplain, heq⟩ | ⟨hplain, hne, hdigit⟩
        · exact .inl ⟨⟨hdot, hplain⟩, congrArg _ heq⟩
        · refine .inr ⟨fun h => hplain h.2, fun h => hne (Nat.add_left_cancel h), ?_⟩
          rw [Nat.add_min_add_left, Nat.add_comm, List.getElem?_cons_succ]
          exact hdigit
      · -- the highlighter stops in front of a dot that the scanner takes
        have hpoint : b = 46 := by
          by_contra hne
          exact hdot fun h => absurd h hne
        rw [if_neg fun h => hdot (htakes.mp h), Nat.zero_min]
        refine .inr ⟨fun h => hdot h.1, by omega, ?_⟩
        rintro c hc
        obtain rfl := Option.some.inj hc
        rw [hpoint]
        decide
    · rw [if_neg hin] at htakes
      rw [if_neg hin, if_neg hin]
      by_cases hsign : (b = 43 ∨ b = 45) ∧ (previous = 101 ∨ previous = 69)
      · -- the scanner stops in front of a sign that the highlighter takes
        rw [if_pos (htakes.mpr hsign), Nat.min_zero]
        refine .inr ⟨fun h => h hsign, by omega, ?_⟩
        rintro c hc
        obtain rfl := Option.some.inj hc
        rcases hsign.1 with rfl | rfl <;> decide
      · rw [if_neg fun h => hsign (htakes.mp h)]
        exact .inl ⟨hsign, rfl⟩

/-! ## §2 Tokens that are numbers -/

section Tokens

variable {vocabulary : Vocabulary} {definition : Definition}

/-- The rule for numbers decides on the tokens that start with a digit and are numbers. -/
theorem udlTokenWith_cases {rest : Bytes} (hne : rest ≠ []) :
    (∃ t : Token, t.kind ≠ some .number ∧
      ∀ number, udlTokenWith number vocabulary definition rest = t) ∨
    ∃ b u, rest = b :: u ∧ isDigit b = true ∧
      ∀ number, udlTokenWith number vocabulary definition rest =
        ⟨1 + number b u, some .number, .normal⟩ := by
  cases hline : definition.lineComment.filter fun token => token.isPrefixOf rest with
  | some opening =>
    refine .inl ⟨⟨opening.length + commentLen (rest.drop opening.length), some .comment, .normal⟩,
      fun h => (by cases h), fun number => ?_⟩
    rw [udlTokenWith, hline]
  | none =>
    cases hblock : definition.blockComment.filter fun tokens => tokens.1.isPrefixOf rest with
    | some markers =>
      refine .inl ⟨⟨markers.1.length + blockLen markers.2 (rest.drop markers.1.length),
        some .comment, .normal⟩, fun h => (by cases h), fun number => ?_⟩
      rw [udlTokenWith, hline, hblock]
    | none =>
      simp only [udlTokenWith, hline, hblock]
      by_cases hstring : definition.strings.contains (rest.take (scalarLen rest)) = true
      · refine .inl ⟨_, ?_, fun number => if_pos hstring⟩
        exact fun h => (by cases h)
      simp only [if_neg hstring]
      by_cases hletter : rest.take (scalarLen rest) = [95] ∨
          vocabulary.isAlphabetic (rest.take (scalarLen rest)) = true
      · refine .inl ⟨_, ?_, fun number => if_pos hletter⟩
        dsimp only
        split_ifs <;> decide
      simp only [if_neg hletter]
      by_cases hdigit : (rest.take (scalarLen rest)).length = 1 ∧
          (rest.take (scalarLen rest)).all isDigit = true
      · obtain ⟨b, u, rfl⟩ := List.exists_cons_of_ne_nil hne
        have hone : scalarLen (b :: u) = 1 := (length_take_scalar hne).symm.trans hdigit.1
        simp only [if_pos hdigit]
        rw [hone] at hdigit ⊢
        have hb : isDigit b = true := by simpa using hdigit.2
        exact .inr ⟨b, u, rfl, hb, fun number => rfl⟩
      · refine .inl ⟨_, ?_, fun number => if_neg hdigit⟩
        dsimp only
        split_ifs <;> decide

/-- What starts with no digit starts with no number. -/
theorem styleAt_start {number : UInt8 → Bytes → Nat} {turns start : Nat} {rest : Bytes}
    (hscans : Scans definition rest (udlTokens number vocabulary definition turns rest))
    (h : ∀ b ∈ rest.head?, isDigit b = false) :
    styleAt (styled start (udlTokens number vocabulary definition turns rest)) start ≠
      some .number := by
  cases turns with
  | zero => exact fun h => (by cases h)
  | succ turns =>
    rw [udlTokens] at hscans ⊢
    by_cases hnil : rest = []
    · rw [if_pos hnil]
      exact fun h => (by cases h)
    rw [if_neg hnil] at hscans ⊢
    dsimp only at hscans ⊢
    obtain ⟨t, hkind, htoken⟩ | ⟨b, u, rfl, hb, -⟩ :=
      @udlTokenWith_cases vocabulary definition _ hnil
    · rw [htoken] at hscans ⊢
      cases hscans with
      | step shaped after =>
        have hpos := shaped.positive
        rw [styled, styleAt_append]
        cases hstyle : t.kind with
        | none =>
          rw [(after.sorted (start + t.length)).styleAt_outside (.inl (by omega))]
          exact fun h => (by cases h)
        | some kind =>
          have hhere : styleAt ((some kind).map fun kind =>
              (⟨⟨start, start + t.length⟩, kind⟩ : StyleSpan)).toList start = some kind :=
            if_pos ⟨Nat.le_refl _, by show start < start + t.length; omega⟩
          rw [hhere, Option.some_or]
          rwa [hstyle] at hkind
    · rw [h b rfl] at hb
      cases hb

/-- Behind one token, two scans style the same where they do so after it. -/
theorem styleAt_tails {t : Token} {start b c : Nat} {ts us : List Token}
    (h : Sorted (start + t.length) (styled (start + t.length) ts) b)
    (h' : Sorted (start + t.length) (styled (start + t.length) us) c) :
    (∀ p, styleAt (styled start (t :: ts)) p = styleAt (styled start (t :: us)) p) ↔
      ∀ p, styleAt (styled (start + t.length) ts) p = styleAt (styled (start + t.length) us) p := by
  constructor
  · intro hall p
    by_cases hp : p < start + t.length
    · rw [h.styleAt_outside (.inl hp), h'.styleAt_outside (.inl hp)]
    · have hthere := hall p
      have hnone : styleAt (t.kind.map fun kind =>
          (⟨⟨start, start + t.length⟩, kind⟩ : StyleSpan)).toList p = none := by
        cases t.kind with
        | none => rfl
        | some kind => exact if_neg fun hin => hp hin.2
      rwa [styled, styled, styleAt_append, styleAt_append, hnone, Option.none_or,
        Option.none_or] at hthere
  · intro hall p
    rw [styled, styled, styleAt_append, styleAt_append, hall]

/-- Two numbers that stop at different places, where the shorter one stops in front of no digit,
style the byte there differently. -/
theorem styleAt_shorter {start short long : Nat} {ts us : List Token} (hlt : short < long)
    (h : styleAt (styled (start + short) us) (start + short) ≠ some .number) :
    styleAt (styled start (⟨long, some .number, .normal⟩ :: ts)) (start + short) ≠
      styleAt (styled start (⟨short, some .number, .normal⟩ :: us)) (start + short) := by
  have hlong : styleAt (styled start (⟨long, some .number, .normal⟩ :: ts)) (start + short) =
      some .number := if_pos ⟨Nat.le_add_right _ _, Nat.add_lt_add_left hlt _⟩
  have hshort : styleAt (styled start (⟨short, some .number, .normal⟩ :: us)) (start + short) =
      styleAt (styled (start + short) us) (start + short) :=
    if_neg fun hin => Nat.lt_irrefl _ hin.2
  rw [hlong, hshort]
  exact fun heq => h heq.symm

end Tokens

/-! ## §3 Texts -/

/-- Every number among the spans of a text is plain. -/
def PlainNumbers (text : Bytes) (spans : List StyleSpan) : Prop :=
  ∀ span ∈ spans, span.kind = .number →
    PlainNumber (text.getD span.range.start 0) (text.drop (span.range.start + 1))

theorem plainNumbers_cons {text : Bytes} {start : Nat} {t : Token} {ts : List Token} :
    PlainNumbers text (styled start (t :: ts)) ↔
      (t.kind = some .number → PlainNumber (text.getD start 0) (text.drop (start + 1))) ∧
        PlainNumbers text (styled (start + t.length) ts) := by
  rw [styled, PlainNumbers]
  cases t.kind with
  | none => exact ⟨fun h => ⟨fun hkind => (by cases hkind), h⟩, fun h => h.2⟩
  | some kind =>
    refine ⟨fun h => ⟨fun hkind => ?_, fun span hspan => h span (List.mem_cons_of_mem _ hspan)⟩, ?_⟩
    · exact h _ List.mem_cons_self (Option.some.inj hkind)
    · rintro ⟨hhere, hbehind⟩ span hspan
      rcases List.mem_cons.mp hspan with rfl | hspan
      · exact fun hkind => hhere (congrArg some hkind)
      · exact hbehind span hspan

/-- Two scans are the same and their numbers are plain, or some number is not plain and some byte is
styled differently. -/
def Compared (text : Bytes) (start : Nat) (ts us : List Token) : Prop :=
  (PlainNumbers text (styled start ts) ∧ ts = us) ∨
    (¬PlainNumbers text (styled start ts) ∧
      ∃ p, styleAt (styled start ts) p ≠ styleAt (styled start us) p)

theorem Compared.cons {text : Bytes} {start b c : Nat} {t : Token} {ts us : List Token}
    (h : Compared text (start + t.length) ts us)
    (hplain : t.kind = some .number → PlainNumber (text.getD start 0) (text.drop (start + 1)))
    (hts : Sorted (start + t.length) (styled (start + t.length) ts) b)
    (hus : Sorted (start + t.length) (styled (start + t.length) us) c) :
    Compared text start (t :: ts) (t :: us) := by
  rw [Compared, plainNumbers_cons]
  rcases h with ⟨hall, heq⟩ | ⟨hnot, p, hp⟩
  · exact .inl ⟨⟨hplain, hall⟩, congrArg _ heq⟩
  · refine .inr ⟨fun h => hnot h.2, ?_⟩
    by_contra hno
    push Not at hno
    exact hp ((styleAt_tails hts hus).mp hno p)

/-- Where every number is plain the scanner reads the same tokens by both rules, and elsewhere
some byte is styled differently. -/
theorem udlTokens_compared {vocabulary : Vocabulary} {definition : Definition}
    (hvalid : definition.validate = .ok ()) (htyped : definition.Typed) {text : Bytes}
    {turns start : Nat} (htext : IsText (text.drop start))
    (hturns : (text.drop start).length ≤ turns) :
    Compared text start
      (udlTokens (fun _ => udlNumberLen) vocabulary definition turns (text.drop start))
      (udlTokens numberLen vocabulary definition turns (text.drop start)) := by
  induction turns generalizing start with
  | zero => exact .inl ⟨fun span hspan => (by cases hspan), rfl⟩
  | succ turns ih =>
    by_cases hnil : text.drop start = []
    · rw [udlTokens, udlTokens, if_pos hnil, if_pos hnil]
      exact .inl ⟨fun span hspan => (by cases hspan), rfl⟩
    have hshaped {number : UInt8 → Bytes → Nat} (hnumber : CutsNumbers number) :
        Shaped definition (text.drop start)
          (udlTokenWith number vocabulary definition (text.drop start)) :=
      udlTokenWith_shaped hnumber hvalid htyped htext hnil
    -- what is left behind a token
    have hleft {t : Token} (ht : Shaped definition (text.drop start) t) :
        IsText (text.drop (start + t.length)) ∧
          (text.drop (start + t.length)).length ≤ turns := by
      have hpos := ht.positive
      have hcut := ht.cut
      rw [CutAt, List.length_drop, List.drop_drop] at hcut
      rw [List.length_drop] at hturns ⊢
      exact ⟨hcut.2, by omega⟩
    have hscans {number : UInt8 → Bytes → Nat} (hnumber : CutsNumbers number) {t : Token}
        (ht : Shaped definition (text.drop start) t) :
        Scans definition (text.drop (start + t.length))
          (udlTokens number vocabulary definition turns (text.drop (start + t.length))) :=
      udlTokens_scans hnumber hvalid htyped (hleft ht).1 (hleft ht).2
    -- both rules give the same token
    have hsame {t : Token} (ht : Shaped definition (text.drop start) t)
        (hplain : t.kind = some .number →
          PlainNumber (text.getD start 0) (text.drop (start + 1))) :
        Compared text start
          (t :: udlTokens (fun _ => udlNumberLen) vocabulary definition turns
            (text.drop (start + t.length)))
          (t :: udlTokens numberLen vocabulary definition turns (text.drop (start + t.length))) :=
      (ih (hleft ht).1 (hleft ht).2).cons hplain ((hscans udlNumberLen_cuts ht).sorted _)
        ((hscans numberLen_cuts ht).sorted _)
    have hudl := hshaped udlNumberLen_cuts
    have hnative := hshaped numberLen_cuts
    rw [udlTokens, udlTokens, if_neg hnil, if_neg hnil]
    dsimp only
    rw [List.drop_drop, List.drop_drop]
    obtain ⟨t, hkind, htoken⟩ | ⟨b, u, hfront, -, htoken⟩ :=
      @udlTokenWith_cases vocabulary definition _ hnil
    · rw [htoken] at hudl ⊢
      rw [htoken]
      exact hsame hudl fun h => absurd h hkind
    rw [htoken] at hudl hnative
    rw [htoken, htoken]
    have hfirst : text.getD start 0 = b := by
      rw [List.getD_eq_getElem?_getD, ← List.head?_drop, hfront]
      rfl
    have hrest : text.drop (start + 1) = u := by
      rw [← List.drop_drop, hfront]
      rfl
    rcases plainNumber_spec b u with ⟨hplain, heq⟩ | ⟨hnot, hne, hstop⟩
    · rw [heq]
      exact hsame hudl fun _ => by rwa [hfirst, hrest]
    · refine .inr ⟨fun h => hnot ?_, ?_⟩
      · have hhere := (plainNumbers_cons.mp h).1 rfl
        rwa [hfirst, hrest] at hhere
      -- the longer number styles the byte where the shorter one stops, which is no digit
      have hhead (n : Nat) : (text.drop (start + (1 + n))).head? = u[n]? := by
        rw [List.head?_drop, ← hrest, List.getElem?_drop, Nat.add_assoc]
      rcases Nat.lt_or_gt_of_ne hne with hlt | hgt
      · rw [Nat.min_eq_left (Nat.le_of_lt hlt)] at hstop
        refine ⟨_, styleAt_shorter (Nat.add_lt_add_left hlt 1) ?_⟩
        refine styleAt_start (hscans numberLen_cuts hnative) ?_
        rwa [hhead]
      · rw [Nat.min_eq_right (Nat.le_of_lt hgt)] at hstop
        refine ⟨_, (styleAt_shorter (Nat.add_lt_add_left hgt 1) ?_).symm⟩
        refine styleAt_start (hscans udlNumberLen_cuts hudl) ?_
        rwa [hhead]

end BareLine.Syntax
