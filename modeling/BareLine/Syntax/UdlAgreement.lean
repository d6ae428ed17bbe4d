import BareLine.Codec.OriginalReads
import BareLine.Syntax.UdlNumbers

/-!
# Two lexers for one language

`udl::lex` and `lex_udl` over a whole text give the same merged spans where every number is plain,
and nowhere else.
-/

namespace BareLine.Syntax

open Lib Codec

/-! ## §1 The highlighter -/

/-- `lex_udl` -/
def lexUdl (vocabulary : Vocabulary) (arcs : Nat → Definition) (source : DocumentSnapshot)
    (definition : Nat) (range : Range) (checkpoint : Option Checkpoint) :
    Except SyntaxError SyntaxResult := do
  (arcs definition).validate
  lexConfigured vocabulary arcs source .plainText range checkpoint ⟨0, some definition⟩

section Agreement

variable {vocabulary : Vocabulary} {arcs : Nat → Definition} {source : DocumentSnapshot}
  {definition : Nat}

/-- Over a whole text the highlighter merges what the scanner finds by the other rule for
numbers. -/
theorem lexUdl_whole (hdigit : ∀ b, isDigit b = true → vocabulary.isAlphabetic [b] = false)
    (hvalid : (arcs definition).validate = .ok ()) (hroot : Tree.RootWf .resident source.root)
    (htext : IsText source.text) (hsize : source.text.length ≤ MAX_REQUEST_BYTES) :
    ∃ highlighted, lexUdl vocabulary arcs source definition ⟨0, source.len⟩ none =
        .ok highlighted ∧
      highlighted.spans = merge (styled 0
        (udlTokens numberLen vocabulary (arcs definition) source.text.length source.text)) := by
  have hlen : source.len = source.text.length := hroot.bytes
  have hboundary {o : Nat} (h : CutAt source.text o) : source.isBoundary o = true := by
    have hat : Tree.boundary source.root o = true := (Tree.boundary_eq hroot o).trans h.atBoundary
    rw [DocumentSnapshot.isBoundary, hat, hlen, Bool.and_true]
    exact decide_eq_true h.1
  have hwindow : IsWindow source ⟨0, source.len⟩ := by
    refine ⟨Nat.zero_le _, Nat.le_refl _, hlen.symm ▸ hsize, ?_, ?_⟩
    · exact hboundary ⟨Nat.zero_le _, htext⟩
    · refine hboundary ⟨Nat.le_of_eq hlen, ?_⟩
      rw [hlen, List.drop_length]
      exact .nil
  have htotal : ∃ highlighted, lexConfigured vocabulary arcs source .plainText ⟨0, source.len⟩ none
      ⟨0, some definition⟩ = .ok highlighted := lexConfigured_total hvalid hwindow rfl
  obtain ⟨highlighted, hlexed⟩ := htotal
  refine ⟨highlighted, ?_, ?_⟩
  · rw [lexUdl, hvalid]
    exact hlexed
  obtain ⟨hlexer, -, -, ⟨state, hfinished⟩ | ⟨hzero, -⟩⟩ := lexConfigured_ok hlexed
  · obtain rfl : State.normal = state := Except.ok.inj hfinished.started
    have hof : (⟨0, source.len⟩ : Range).of source.text = source.text := by
      rw [Range.of, hlen]
      simp
    have hactive : (udlLexer vocabulary (arcs definition)).active = true := rfl
    rw [hfinished.spans, hof]
    have hpass := windowTokens_pass hlexer hactive .normal source.text
    exact Lexer.Pass.spans hvalid hdigit hpass [] 0 (Nat.le_refl _)
  · exact absurd rfl hzero

/-! ## §2 The agreement -/

/-- Comments and strings end right behind their first terminator, or with their line or the text. -/
def LiteralsEnd (definition : Definition) (text : Bytes) (spans : List StyleSpan) : Prop :=
  ∀ span ∈ spans, span.kind = .comment ∨ span.kind = .string →
    Ends definition span.kind (text.drop span.range.start) (span.range.stop - span.range.start)

/-- Over a whole text both lexers answer with spans in order between characters, whose comments and
strings end as they should before touching ones are merged, and the merged spans are the same
exactly where every number is plain. -/
theorem udl_lexers_agree (hdigit : ∀ b, isDigit b = true → vocabulary.isAlphabetic [b] = false)
    (hvalid : (arcs definition).validate = .ok ()) (htyped : (arcs definition).Typed)
    (hroot : Tree.RootWf .resident source.root) (htext : IsText source.text)
    (hsize : source.text.length ≤ MAX_REQUEST_BYTES) :
    ∃ scanned highlighted, udlLex vocabulary source.text (arcs definition) = .ok scanned ∧
      lexUdl vocabulary arcs source definition ⟨0, source.len⟩ none = .ok highlighted ∧
      Laid source.text scanned ∧ Laid source.text highlighted.spans ∧
      LiteralsEnd (arcs definition) source.text scanned ∧
      (∃ parts, merge parts = highlighted.spans ∧ Laid source.text parts ∧
        LiteralsEnd (arcs definition) source.text parts) ∧
      (merge scanned = merge highlighted.spans ↔ PlainNumbers source.text scanned) := by
  obtain ⟨highlighted, hlexed, hspans⟩ := lexUdl_whole hdigit hvalid hroot htext hsize
  have hscan {number : UInt8 → Bytes → Nat} (hnumber : CutsNumbers number) :
      Scans (arcs definition) source.text
        (udlTokens number vocabulary (arcs definition) source.text.length source.text) :=
    udlTokens_scans hnumber hvalid htyped htext (Nat.le_refl _)
  have hudl := hscan udlNumberLen_cuts
  have hnative := hscan numberLen_cuts
  have hcompared : Compared source.text 0
      (udlTokens (fun _ => udlNumberLen) vocabulary (arcs definition) source.text.length
        source.text)
      (udlTokens numberLen vocabulary (arcs definition) source.text.length source.text) :=
    @udlTokens_compared vocabulary (arcs definition) hvalid htyped source.text source.text.length 0
      htext (Nat.le_refl _)
  have hmerged : merge highlighted.spans = highlighted.spans := by
    rw [hspans]
    exact foldl_merge [] _
  refine ⟨_, highlighted, ?_, hlexed, hudl.laid htext, ?_, hudl.ends htext,
    ⟨_, hspans.symm, hnative.laid htext, hnative.ends htext⟩, ?_⟩
  · have hbudget : ([] : List StyleSpan).length + source.text.length ≤ MAX_SPANS := by
      rw [List.length_nil, Nat.zero_add]
      exact hsize
    rw [udlLex, hvalid]
    show (if source.text.length > MAX_REQUEST_BYTES then _ else _) = _
    rw [if_neg (Nat.not_lt.mpr hsize), udlLoop_eq hvalid htyped htext hbudget, List.nil_append]
  · rw [hspans]
    exact (hnative.laid htext).merge
  · rw [hmerged, hspans]
    rcases hcompared with ⟨hplain, heq⟩ | ⟨hnot, p, hp⟩
    · exact ⟨fun _ => hplain, fun _ => by rw [heq]⟩
    · refine ⟨fun heq => absurd ?_ hp, fun h => absurd h hnot⟩
      rw [← (merge_spec (hudl.laid htext).sorted).2, heq,
        (merge_spec (hnative.laid htext).sorted).2]

end Agreement

/-- A language with block comments in parentheses, strings in single quotes, and no words. -/
def parenthesized : Definition :=
  ⟨1, [112], [112], [], [], [43], none, some ([40], [41]), [[39]], []⟩

theorem parenthesized_typed : parenthesized.Typed := by
  have hscalar {b : UInt8} (h : b < 0x80) : Scalar [b] := if_pos h
  have htext {b : UInt8} (h : b < 0x80) : IsText [b] := .cons (hscalar h) .nil
  constructor
  · exact List.forall_mem_cons.mpr ⟨htext (by decide),
      List.forall_mem_singleton.mpr (htext (by decide))⟩
  · exact List.forall_mem_singleton.mpr (hscalar (by decide))

theorem asciiVocabulary_digit (b : UInt8) (h : isDigit b = true) :
    asciiVocabulary.isAlphabetic [b] = false := by
  rw [isDigit, Bool.and_eq_true, decide_eq_true_iff, decide_eq_true_iff] at h
  simp only [asciiVocabulary, List.all_cons, List.all_nil]
  grind

/-- The number of `1.5'a'` is plain. -/
theorem udl_lexers_agree_decimal :
    ∃ scanned highlighted,
      udlLex asciiVocabulary [49, 46, 53, 39, 97, 39] parenthesized = .ok scanned ∧
      lexUdl asciiVocabulary (fun _ => parenthesized) (oneLeaf [49, 46, 53, 39, 97, 39]) 0 ⟨0, 6⟩
        none = .ok highlighted ∧
      merge scanned = merge highlighted.spans := by
  have hroot : Tree.RootWf .resident (oneLeaf [49, 46, 53, 39, 97, 39]).root :=
    Tree.rootWf_some.mpr ⟨Nat.zero_lt_succ _, Nat.le_refl _, rfl⟩
  have hascii : ([49, 46, 53, 39, 97, 39] : Bytes).all (fun b => decide (b < 0x80)) = true := rfl
  have htext : IsText (oneLeaf [49, 46, 53, 39, 97, 39]).text :=
    isText_ascii fun b hb => of_decide_eq_true (List.all_eq_true.mp hascii b hb)
  obtain ⟨scanned, highlighted, hscanned, hlexed, -, -, -, -, hagree⟩ :=
    @udl_lexers_agree asciiVocabulary (fun _ => parenthesized)
      (oneLeaf [49, 46, 53, 39, 97, 39]) 0 asciiVocabulary_digit rfl parenthesized_typed hroot htext
      (by decide)
  refine ⟨scanned, highlighted, hscanned, hlexed, hagree.mpr ?_⟩
  obtain rfl : [⟨⟨0, 3⟩, .number⟩, ⟨⟨3, 6⟩, .string⟩] = scanned := Except.ok.inj hscanned
  refine List.forall_mem_cons.mpr ⟨fun _ => ?_, List.forall_mem_singleton.mpr fun h => ?_⟩
  · exact ⟨fun _ => rfl, fun h => absurd h (by decide), fun h => absurd h.1 (by decide)⟩
  · cases h

/-! ## §3 Numbers and comments that are read differently -/

/-- Two comments that touch are no comment. -/
theorem not_ends_twice : ¬Ends parenthesized .comment [40, 41, 40, 41] 4 := by
  intro h
  generalize hrest : ([40, 41, 40, 41] : Bytes) = rest at h
  generalize hlength : 4 = n at h
  -- the body would start with the terminator
  have hfront {body behind : Bytes} (heq : [40, 41, 40, 41] = [40] ++ (body ++ behind))
      (hlong : 0 < body.length) {after : Bytes} (hnone : NoneBefore [41] body after) : False := by
    obtain ⟨b, body, rfl⟩ := List.exists_cons_of_length_pos hlong
    obtain rfl : 41 = b := (List.cons.inj (List.cons.inj heq).2).1
    exact hnone [] _ rfl (List.cons_ne_nil _ _) ⟨body ++ after, rfl⟩
  cases h with
  | line marker => cases marker
  | block markers first =>
    obtain ⟨rfl, rfl⟩ := Prod.mk.inj (Option.some.inj markers)
    exact hfront hrest (by simp only [List.length_singleton] at hlength; omega) first
  | @unclosed _ _ body markers none =>
    obtain ⟨rfl, rfl⟩ := Prod.mk.inj (Option.some.inj markers)
    rw [← List.append_nil body] at hrest
    exact hfront hrest (by simp only [List.length_singleton] at hlength; omega) none

/-- The number of `1.` has the dot in it for one lexer only, and the comments of `()()` are one
span for the highlighter. -/
theorem trailing_dot_differs :
    (¬∀ scanned highlighted, udlLex asciiVocabulary [49, 46] parenthesized = .ok scanned →
      lexUdl asciiVocabulary (fun _ => parenthesized) (oneLeaf [49, 46]) 0 ⟨0, 2⟩ none =
        .ok highlighted → merge scanned = merge highlighted.spans) ∧
    ¬∀ highlighted, lexUdl asciiVocabulary (fun _ => parenthesized) (oneLeaf [40, 41, 40, 41]) 0
        ⟨0, 4⟩ none = .ok highlighted →
      LiteralsEnd parenthesized [40, 41, 40, 41] highlighted.spans := by
  constructor
  · intro hall
    have heq := hall [⟨⟨0, 2⟩, .number⟩] _ rfl rfl
    exact absurd heq (by decide +kernel)
  · intro hall
    have hends := hall _ rfl
    exact not_ends_twice (hends ⟨⟨0, 4⟩, .comment⟩ List.mem_cons_self (.inl rfl))

end BareLine.Syntax
