import BareLine.Syntax.StandIn
import BareLine.Syntax.UdlShapes

/-!
# The two lexers of a user-defined language

`udl::lex` and `lex_udl` style the same bytes where their rules for numbers take the same bytes.
-/

namespace BareLine.Syntax

open Lib Codec

/-! ## §1 Merged spans -/

section Merging

variable {a b : Nat} {spans : List StyleSpan}

theorem sorted_concat {last : StyleSpan} : Sorted a (spans ++ [last]) b ↔
    Sorted a spans last.range.start ∧ last.range.start < last.range.stop ∧ last.range.stop ≤ b := by
  induction spans generalizing a with
  | nil => rfl
  | cons span spans ih =>
    rw [List.cons_append, Sorted, Sorted, ih, and_assoc, and_assoc]

/-- Joining keeps spans in order and styles what the added span styles. -/
theorem joinSpan_spec {span : StyleSpan} (h : Sorted a spans b) (hstart : b ≤ span.range.start)
    (hspan : span.range.start < span.range.stop) :
    Sorted a (joinSpan spans span) span.range.stop ∧
      ∀ p, styleAt (joinSpan spans span) p = styleAt (spans ++ [span]) p := by
  have hadded : Sorted a (spans ++ [span]) span.range.stop :=
    sorted_concat.mpr ⟨h.mono_right hstart, hspan, Nat.le_refl _⟩
  rcases List.eq_nil_or_concat spans with rfl | ⟨init, last, hinit⟩
  · exact ⟨hadded, fun _ => rfl⟩
  rw [List.concat_eq_append] at hinit
  subst hinit
  rw [joinSpan, List.getLast?_concat]
  dsimp only
  split_ifs with hfollows
  · rw [StyleSpan.follows, Bool.and_eq_true, beq_iff_eq, beq_iff_eq] at hfollows
    obtain ⟨hinit, hlast, hle⟩ := sorted_concat.mp h
    rw [List.dropLast_concat]
    refine ⟨sorted_concat.mpr ⟨hinit, ?_, Nat.le_refl _⟩, fun p => ?_⟩
    · show last.range.start < span.range.stop
      omega
    · have hjoined : styleAt [⟨⟨last.range.start, span.range.stop⟩, last.kind⟩] p =
          (styleAt [last] p).or (styleAt [span] p) := by
        simp only [styleAt, hfollows.1]
        split_ifs <;> first | rfl | omega
      rw [styleAt_append, styleAt_append, styleAt_append, hjoined, Option.or_assoc]
  · exact ⟨hadded, fun _ => rfl⟩

theorem merge_concat (spans : List StyleSpan) (span : StyleSpan) :
    merge (spans ++ [span]) = joinSpan (merge spans) span := by
  rw [merge, List.foldl_append]
  rfl

/-- Merging keeps spans in order and what they style. -/
theorem merge_spec (h : Sorted a spans b) :
    Sorted a (merge spans) b ∧ ∀ p, styleAt (merge spans) p = styleAt spans p := by
  induction spans using List.reverseRecOn generalizing b with
  | nil => exact ⟨h, fun _ => rfl⟩
  | append_singleton spans span ih =>
    obtain ⟨hspans, hspan, hle⟩ := sorted_concat.mp h
    obtain ⟨hsorted, hstyle⟩ := ih hspans
    obtain ⟨hjoined, hadded⟩ := joinSpan_spec hsorted (Nat.le_refl _) hspan
    rw [merge_concat]
    refine ⟨hjoined.mono_right hle, fun p => ?_⟩
    rw [hadded, styleAt_append, styleAt_append, hstyle]

/-- A merged span starts where a span starts and stops where one stops. -/
theorem mem_merge {m : StyleSpan} (h : m ∈ merge spans) :
    (∃ s ∈ spans, s.range.start = m.range.start) ∧ ∃ s ∈ spans, s.range.stop = m.range.stop := by
  induction spans using List.reverseRecOn generalizing m with
  | nil => cases h
  | append_singleton spans span ih =>
    have hnew : span ∈ spans ++ [span] := List.mem_append_right _ (List.mem_singleton_self span)
    have hold {m : StyleSpan} (hm : m ∈ merge spans) :
        (∃ s ∈ spans ++ [span], s.range.start = m.range.start) ∧
          ∃ s ∈ spans ++ [span], s.range.stop = m.range.stop := by
      obtain ⟨⟨s, hs, hstart⟩, ⟨t, ht, hstop⟩⟩ := ih hm
      exact ⟨⟨s, List.mem_append_left _ hs, hstart⟩, ⟨t, List.mem_append_left _ ht, hstop⟩⟩
    rw [merge_concat, joinSpan] at h
    rcases List.eq_nil_or_concat (merge spans) with hnil | ⟨init, last, hinit⟩
    · rw [hnil] at h
      obtain rfl := List.mem_singleton.mp h
      exact ⟨⟨m, hnew, rfl⟩, ⟨m, hnew, rfl⟩⟩
    rw [List.concat_eq_append] at hinit
    rw [hinit, List.getLast?_concat] at h
    dsimp only at h
    rw [hinit] at hold
    split_ifs at h
    · -- the added span is joined to the last one: the start is old, the stop is new
      rw [List.dropLast_concat] at h
      rcases List.mem_append.mp h with hm | hm
      · exact hold (List.mem_append_left _ hm)
      · obtain rfl := List.mem_singleton.mp hm
        exact ⟨(hold (List.mem_append_right _ (List.mem_singleton_self last))).1, ⟨span, hnew, rfl⟩⟩
    · rcases List.mem_append.mp h with hm | hm
      · exact hold hm
      · obtain rfl := List.mem_singleton.mp hm
        exact ⟨⟨m, hnew, rfl⟩, ⟨m, hnew, rfl⟩⟩

end Merging

/-! ## §2 The scanner and its tokens -/

/-- Tokens that take a text one after the other, each of its shape. -/
inductive Scans (definition : Definition) : Bytes → List Token → Prop where
  | done : Scans definition [] []
  | step {rest : Bytes} {t : Token} {ts : List Token} (shaped : Shaped definition rest t)
      (after : Scans definition (rest.drop t.length) ts) : Scans definition rest (t :: ts)

section Scanning

variable {vocabulary : Vocabulary} {definition : Definition}

theorem udlTokens_scans {number : UInt8 → Bytes → Nat} (hnumber : CutsNumbers number)
    (hvalid : definition.validate = .ok ()) (htyped : definition.Typed) {rest : Bytes}
    (htext : IsText rest) {turns : Nat} (hturns : rest.length ≤ turns) :
    Scans definition rest (udlTokens number vocabulary definition turns rest) := by
  induction turns generalizing rest with
  | zero =>
    obtain rfl := List.length_eq_zero_iff.mp (Nat.le_zero.mp hturns)
    exact .done
  | succ turns ih =>
    rw [udlTokens]
    split_ifs with hnil
    · subst hnil
      exact .done
    · have hshaped : Shaped definition rest (udlTokenWith number vocabulary definition rest) :=
        udlTokenWith_shaped hnumber hvalid htyped htext hnil
      have hpos := hshaped.positive
      refine .step hshaped (ih hshaped.cut.2 ?_)
      rw [List.length_drop]
      omega

/-- The loop of the scanner, where no budget runs out. -/
theorem udlLoop_eq (hvalid : definition.validate = .ok ()) (htyped : definition.Typed)
    {rest : Bytes} (htext : IsText rest) {turns start : Nat} {spans : List StyleSpan}
    (hbudget : spans.length + rest.length ≤ MAX_SPANS) :
    udlLoop vocabulary definition turns start rest spans =
      .ok (spans ++ styled start
        (udlTokens (fun _ => udlNumberLen) vocabulary definition turns rest)) := by
  induction turns generalizing start rest spans with
  | zero => exact congrArg _ (List.append_nil spans).symm
  | succ turns ih =>
    by_cases hnil : rest = []
    · rw [udlLoop, udlTokens, if_pos hnil, if_pos hnil]
      exact congrArg _ (List.append_nil spans).symm
    · have hshaped : Shaped definition rest
          (udlTokenWith (fun _ => udlNumberLen) vocabulary definition rest) :=
        udlTokenWith_shaped udlNumberLen_cuts hvalid htyped htext hnil
      have hpos := hshaped.positive
      have hcut := hshaped.cut
      have hrest := List.length_pos_iff.mpr hnil
      rw [udlLoop, udlTokens, if_neg hnil, if_neg hnil]
      dsimp only
      rw [udlToken, styled]
      generalize udlTokenWith (fun _ => udlNumberLen) vocabulary definition rest = t at *
      have hlen : (rest.drop t.length).length + 1 ≤ rest.length := by
        rw [List.length_drop]
        omega
      cases t.kind with
      | none => exact ih hcut.2 (by omega)
      | some kind =>
        -- a token takes a byte at least, so the spans stay as many as the bytes left
        have hroom : (spans ++ [(⟨⟨start, start + t.length⟩, kind⟩ : StyleSpan)]).length +
            (rest.drop t.length).length ≤ MAX_SPANS := by
          rw [List.length_append, List.length_singleton]
          omega
        dsimp only
        rw [if_neg (by omega), ih hcut.2 hroom, List.append_assoc]
        rfl

end Scanning

/-! ## §3 Where spans lie -/

/-- Spans between characters of a text, none of them empty, one behind the other. -/
structure Laid (text : Bytes) (spans : List StyleSpan) : Prop where
  sorted : Sorted 0 spans text.length
  between : ∀ span ∈ spans, atBoundary text span.range.start = true ∧
    atBoundary text span.range.stop = true

theorem CutAt.atBoundary {text : Bytes} {o : Nat} (h : CutAt text o) :
    atBoundary text o = true := by
  rw [BareLine.atBoundary, Bool.or_eq_true, beq_iff_eq]
  rcases Nat.eq_or_lt_of_le h.1 with heq | hlt
  · exact .inl heq
  · have hclean := h.2.clean text[o] (by rw [List.head?_drop, List.getElem?_eq_getElem hlt]; rfl)
    rw [List.getElem?_eq_getElem hlt]
    simp only [hclean, Bool.not_false, or_true]

theorem Laid.merge {text : Bytes} {spans : List StyleSpan} (h : Laid text spans) :
    Laid text (merge spans) := by
  refine ⟨(merge_spec h.sorted).1, fun m hm => ?_⟩
  obtain ⟨⟨s, hs, hstart⟩, ⟨t, ht, hstop⟩⟩ := mem_merge hm
  exact ⟨hstart ▸ (h.between s hs).1, hstop ▸ (h.between t ht).2⟩

section Laying

variable {definition : Definition} {text : Bytes} {start : Nat} {ts : List Token}

theorem Scans.sorted {rest : Bytes} (h : Scans definition rest ts) (start : Nat) :
    Sorted start (styled start ts) (start + rest.length) := by
  induction h generalizing start with
  | done => exact Nat.le_refl _
  | @step rest t ts shaped after ih =>
    have hpos := shaped.positive
    have hrest := ih (start + t.length)
    have hlen : start + t.length + (rest.drop t.length).length = start + rest.length := by
      have := shaped.cut.1
      rw [List.length_drop]
      omega
    rw [hlen] at hrest
    rw [styled]
    cases t.kind with
    | none => exact hrest.mono (Nat.le_add_right _ _)
    | some kind => exact ⟨Nat.le_refl _, Nat.lt_add_of_pos_right hpos, hrest⟩

/-- Behind a token there is another place between characters. -/
theorem CutAt.afterToken {t : Token} (hstart : CutAt text start)
    (shaped : Shaped definition (text.drop start) t) : CutAt text (start + t.length) := by
  obtain ⟨hle, hbehind⟩ := shaped.cut
  rw [List.length_drop] at hle
  rw [List.drop_drop] at hbehind
  have := hstart.1
  exact ⟨by omega, hbehind⟩

/-- What holds of the span of every token, by its place. -/
theorem Scans.forall_span {P : StyleSpan → Prop}
    (hspan : ∀ (t : Token) (start : Nat) (kind : StyleKind), CutAt text start →
      Shaped definition (text.drop start) t → t.kind = some kind →
        P ⟨⟨start, start + t.length⟩, kind⟩)
    (hstart : CutAt text start) (h : Scans definition (text.drop start) ts) :
    ∀ span ∈ styled start ts, P span := by
  generalize hrest : text.drop start = rest at h
  induction h generalizing start with
  | done => exact fun span hspan => (by cases hspan)
  | @step rest t ts shaped after ih =>
    subst hrest
    have hbehind : CutAt text (start + t.length) := hstart.afterToken shaped
    rw [List.drop_drop] at ih
    rw [styled]
    intro span hmem
    rcases List.mem_append.mp hmem with hhere | hlater
    · cases hkind : t.kind with
      | none =>
        rw [hkind] at hhere
        cases hhere
      | some kind =>
        rw [hkind] at hhere
        obtain rfl := List.mem_singleton.mp hhere
        exact hspan t start kind hstart shaped hkind
    · exact ih hbehind rfl span hlater

theorem Scans.laid (htext : IsText text) (h : Scans definition text ts) :
    Laid text (styled 0 ts) := by
  have hsorted := h.sorted 0
  rw [Nat.zero_add] at hsorted
  refine ⟨hsorted, Scans.forall_span (fun t start kind hstart shaped _ => ?_)
    ⟨Nat.zero_le _, htext⟩ h⟩
  have hstop : CutAt text (start + t.length) := hstart.afterToken shaped
  exact ⟨hstart.atBoundary, hstop.atBoundary⟩

/-- The comments and strings of a scan end as they should. -/
theorem Scans.ends (htext : IsText text) (h : Scans definition text ts) :
    ∀ span ∈ styled 0 ts, span.kind = .comment ∨ span.kind = .string →
      Ends definition span.kind (text.drop span.range.start)
        (span.range.stop - span.range.start) := by
  refine Scans.forall_span (fun t start kind _ shaped hkind hliteral => ?_)
    ⟨Nat.zero_le _, htext⟩ h
  rw [Nat.add_sub_cancel_left]
  exact shaped.ends kind hkind hliteral

end Laying

end BareLine.Syntax
