import BareLine.Syntax.Request
import BareLine.Tree.Text

/-!
# Windows against one pass

What a request adds to what the requests before it found is what the pass over the whole text
finds there.
-/

namespace BareLine.Syntax

open Lib Codec

/-! ## §1 Merged spans -/

/-- Joining a span and one that follows it is joining both at once. -/
theorem joinSpan_joinSpan (spans : List StyleSpan) {span next : StyleSpan}
    (h : next.follows span = true) :
    joinSpan (joinSpan spans span) next =
      joinSpan spans ⟨⟨span.range.start, next.range.stop⟩, span.kind⟩ := by
  have hkind : span.kind = next.kind ∧ span.range.stop = next.range.start := by
    rw [StyleSpan.follows, Bool.and_eq_true, beq_iff_eq, beq_iff_eq] at h
    exact h
  have hlast : ∀ init : List StyleSpan, ∀ last : StyleSpan, next.follows last = true →
      joinSpan (init ++ [last]) next =
        init ++ [⟨⟨last.range.start, next.range.stop⟩, last.kind⟩] := fun init last hfollows => by
    rw [joinSpan, List.getLast?_concat]
    dsimp only
    rw [if_pos hfollows, List.dropLast_concat]
  rcases List.eq_nil_or_concat spans with rfl | ⟨init, last, rfl⟩
  · exact hlast [] span h
  rw [List.concat_eq_append, joinSpan.eq_def (init ++ [last]) span,
    joinSpan.eq_def (init ++ [last]), List.getLast?_concat]
  dsimp only
  have hsame : (⟨⟨span.range.start, next.range.stop⟩, span.kind⟩ : StyleSpan).follows last =
      span.follows last := rfl
  rw [hsame]
  by_cases hfollows : span.follows last = true
  · rw [if_pos hfollows, if_pos hfollows, List.dropLast_concat]
    refine hlast init _ ?_
    rw [StyleSpan.follows, Bool.and_eq_true, beq_iff_eq, beq_iff_eq] at hfollows ⊢
    exact ⟨hfollows.1.trans hkind.1, hkind.2⟩
  · rw [if_neg hfollows, if_neg hfollows]
    exact hlast _ span h

/-- Merged spans join like the spans they were merged from. -/
theorem foldl_merge (acc spans : List StyleSpan) :
    (merge spans).foldl joinSpan acc = spans.foldl joinSpan acc := by
  induction spans using List.reverseRecOn with
  | nil => rfl
  | append_singleton spans next ih =>
    have hmerge : merge (spans ++ [next]) = joinSpan (merge spans) next := by
      rw [merge, List.foldl_append]
      rfl
    rw [hmerge, List.foldl_append, ← ih]
    rcases List.eq_nil_or_concat (merge spans) with hnil | ⟨init, last, hinit⟩
    · rw [hnil]
      rfl
    rw [hinit, List.concat_eq_append, joinSpan, List.getLast?_concat]
    dsimp only
    split_ifs with hfollows
    · rw [List.dropLast_concat, List.foldl_append, List.foldl_append]
      exact (joinSpan_joinSpan _ hfollows).symm
    · rw [List.foldl_append]

/-- A loop that stays in its bound joins every span. -/
theorem foldlM_addSpan {spans acc all : List StyleSpan}
    (h : spans.foldlM addSpan acc = .ok all) : all = spans.foldl joinSpan acc := by
  induction spans generalizing acc with
  | nil => exact (Except.ok.inj h).symm
  | cons span spans ih =>
    rw [List.foldlM_cons] at h
    obtain ⟨joined, hjoin, hrest⟩ := bind_ok.mp h
    rw [addSpan] at hjoin
    split_ifs at hjoin
    · rw [← Except.ok.inj hjoin] at hrest
      exact ih hrest
    · rw [← Except.ok.inj hjoin] at hrest
      exact ih hrest

theorem joinSpan_length (spans : List StyleSpan) (span : StyleSpan) :
    (joinSpan spans span).length ≤ spans.length + 1 := by
  rw [joinSpan]
  cases hlast : spans.getLast? with
  | none => simp
  | some last =>
    dsimp only
    split_ifs
    · rw [List.length_append, List.length_dropLast, List.length_singleton]
      omega
    · exact Nat.le_of_eq (by rw [List.length_append, List.length_singleton])

/-- Fewer spans than the bound stay in it. -/
theorem foldlM_addSpan_ok {spans acc : List StyleSpan}
    (h : acc.length + spans.length ≤ MAX_SPANS) : ∃ all, spans.foldlM addSpan acc = .ok all := by
  induction spans generalizing acc with
  | nil => exact ⟨acc, rfl⟩
  | cons span spans ih =>
    rw [List.length_cons] at h
    have hlen := joinSpan_length acc span
    have hadd : addSpan acc span = .ok (joinSpan acc span) := by
      rw [addSpan]
      split_ifs with hfollows hfull
      · rfl
      · omega
      · rfl
    have hrest : (joinSpan acc span).length + spans.length ≤ MAX_SPANS := by omega
    obtain ⟨all, hall⟩ := ih hrest
    exact ⟨all, by rw [List.foldlM_cons, hadd]; exact hall⟩

theorem styled_length (start : Nat) (ts : List Token) : (styled start ts).length ≤ ts.length := by
  induction ts generalizing start with
  | nil => exact Nat.le_refl 0
  | cons t ts ih =>
    have hone : (t.kind.map fun kind =>
        (⟨⟨start, start + t.length⟩, kind⟩ : StyleSpan)).toList.length ≤ 1 := by
      cases t.kind <;> simp
    have := ih (start + t.length)
    rw [styled, List.length_append, List.length_cons]
    omega

theorem styled_append (start : Nat) (ts us : List Token) :
    styled start (ts ++ us) = styled start ts ++ styled (start + extent ts) us := by
  induction ts generalizing start with
  | nil => rfl
  | cons t ts ih =>
    rw [List.cons_append, styled, styled, ih, List.append_assoc, extent, extent, List.map_cons,
      List.sum_cons, Nat.add_assoc]

/-! ## §2 Line ends inside a window -/

/-- A place behind a line end is one where the pass over the window stands. -/
theorem sparse_spec {lexer : Lexer} (hvalid : lexer.Valid) {text : Bytes} {line start : Nat}
    {ts : List Token} {state last : State} (hpass : lexer.Pass state (text.drop start) ts last)
    {found : Nat × State} (h : found ∈ sparse text line start ts) :
    ∃ k, found.1 = start + k ∧ lexer.Reaches state (text.drop start) k found.2 ∧ 0 < found.1 ∧
      ∃ b, text[found.1 - 1]? = some b ∧ isLineEnd b = true := by
  induction ts generalizing line start state with
  | nil => cases h
  | cons t ts ih =>
    generalize hrest : text.drop start = rest at hpass
    cases hpass with
    | step more after =>
      subst hrest
      have hbounds := Lexer.token_bounds hvalid state more
      have hlater := fun k => @Lexer.Reaches.later lexer state found.2 _ k more
      generalize lexer.token state (text.drop start) = token at *
      have hbehind : ∀ line', found ∈ sparse text line' (start + token.length) ts →
          ∃ k, found.1 = start + k ∧ lexer.Reaches state (text.drop start) k found.2 ∧
            0 < found.1 ∧ ∃ b, text[found.1 - 1]? = some b ∧ isLineEnd b = true := by
        intro line' hfound
        rw [List.drop_drop] at after
        obtain ⟨k, heq, hreach, hpos, hend⟩ := ih after hfound
        refine ⟨token.length + k, by omega, hlater k ?_, hpos, hend⟩
        rw [List.drop_drop]
        exact hreach
      rw [sparse] at h
      split_ifs at h with hend hline
      · rcases List.mem_append.mp h with hhere | hthere
        · obtain rfl := List.mem_singleton.mp hhere
          refine ⟨token.length, rfl, hlater 0 (.here _ _), by dsimp only; omega, ?_⟩
          · rcases hend with hlf | ⟨hcr, -⟩
            · exact ⟨LF, hlf, by decide⟩
            · exact ⟨CR, hcr, by decide⟩
        · exact hbehind _ hthere
      · exact hbehind _ (by simpa using h)
      · exact hbehind _ h

/-! ## §3 Finished requests -/

/-- The tokens of a window. -/
def windowTokens (lexer : Lexer) (state : State) (text : Bytes) : List Token :=
  if lexer.active then lexer.tokens text.length state text else []

/-- What a request found that did not refuse its checkpoint or leave the window unlexed. -/
structure Finished (vocabulary : Vocabulary) (arcs : Nat → Definition)
    (source : DocumentSnapshot) (language : Language) (range : Range)
    (checkpoint : Option Checkpoint) (options : LexOptions) (state : State)
    (result : SyntaxResult) : Prop where
  started : startState source language range.start checkpoint options.definition = .ok state
  verified : range.start = 0 ∨ checkpoint ≠ none ∨
    (lexerFor vocabulary arcs language options.definition).active = false
  spans : result.spans = merge (styled range.start
    (windowTokens (lexerFor vocabulary arcs language options.definition) state
      (range.of source.text)))
  checkpoint : ∀ cp, result.checkpoint = some cp →
    cp = ⟨source, language, range.stop, stateAfter state
      (windowTokens (lexerFor vocabulary arcs language options.definition) state
        (range.of source.text)), options.definition⟩ ∧
      (range.stop = source.len ∨ (range.of source.text).getLast?.any isLineEnd = true)
  checkpoints : ∀ cp ∈ result.checkpoints, ∃ line, ∃ found ∈ sparse (range.of source.text) line 0
      (windowTokens (lexerFor vocabulary arcs language options.definition) state
        (range.of source.text)),
    cp = ⟨source, language, range.start + found.1, found.2, options.definition⟩

/-- A definition is read as it was validated. -/
theorem lexerFor_valid {vocabulary : Vocabulary} {arcs : Nat → Definition} {language : Language}
    {definition : Option Nat} (h : validateShared arcs definition = .ok ()) :
    (lexerFor vocabulary arcs language definition).Valid := by
  intro custom hcustom
  cases definition with
  | none => cases hcustom
  | some address =>
    obtain rfl := Option.some.inj hcustom
    exact h

/-- A request that succeeds had a valid definition and a range of the document, and is finished or
handed out nothing. -/
theorem lexConfigured_ok {vocabulary : Vocabulary} {arcs : Nat → Definition}
    {source : DocumentSnapshot} {language : Language} {range : Range}
    {checkpoint : Option Checkpoint} {options : LexOptions} {result : SyntaxResult}
    (h : lexConfigured vocabulary arcs source language range checkpoint options = .ok result) :
    (lexerFor vocabulary arcs language options.definition).Valid ∧ range.start ≤ range.stop ∧
      range.stop ≤ source.len ∧
      ((∃ state, Finished vocabulary arcs source language range checkpoint options state result) ∨
        (range.start ≠ 0 ∧ checkpoint = none ∧ result.checkpoint = none ∧
          result.checkpoints = [])) := by
  obtain ⟨_, hvalidate, h⟩ := bind_ok.mp h
  have hvalid : (lexerFor vocabulary arcs language options.definition).Valid :=
    lexerFor_valid hvalidate
  by_cases hrange : range.start > range.stop ∨ range.stop > source.len ∨
      ¬source.isBoundary range.start ∨ ¬source.isBoundary range.stop
  · rw [if_pos hrange] at h
    cases h
  rw [if_neg hrange] at h
  by_cases hsize : range.stop - range.start > MAX_REQUEST_BYTES
  · rw [if_pos hsize] at h
    cases h
  rw [if_neg hsize] at h
  obtain ⟨state, hstate, h⟩ := bind_ok.mp h
  refine ⟨hvalid, by omega, by omega, ?_⟩
  by_cases hunread : range.start ≠ 0 ∧ checkpoint = none ∧
      (language ≠ .plainText ∨ options.definition ≠ none)
  · rw [if_pos hunread] at h
    obtain rfl := Except.ok.inj h
    exact .inr ⟨hunread.1, hunread.2.1, rfl, rfl⟩
  rw [if_neg hunread] at h
  dsimp only at h
  obtain ⟨spans, hspans, h⟩ := bind_ok.mp h
  obtain rfl := Except.ok.inj h
  have hverified : range.start = 0 ∨ checkpoint ≠ none ∨
      (language = .plainText ∧ options.definition = none) := by
    by_contra hno
    push Not at hno
    refine hunread ⟨hno.1, hno.2.1, ?_⟩
    by_cases hplain : language = .plainText
    · exact .inr (hno.2.2 hplain)
    · exact .inl hplain
  refine .inl ⟨state, hstate, ?_, ?_, fun cp hcp => ?_, fun cp hcp => ?_⟩
  · refine hverified.imp_right (Or.imp_right fun hplain => ?_)
    rw [Lexer.active, lexerFor, hplain.1, hplain.2]
    rfl
  · dsimp only
    rw [if_pos hverified, foldlM_addSpan hspans]
    rfl
  · by_cases hboth : (range.stop = source.len ∨
        (range.of source.text).getLast?.any isLineEnd = true) ∧
      (range.start = 0 ∨ checkpoint ≠ none ∨
        language = .plainText ∧ options.definition = none)
    · rw [if_pos hboth] at hcp
      exact ⟨(Option.some.inj hcp).symm, hboth.1⟩
    · rw [if_neg hboth] at hcp
      cases hcp
  · dsimp only at hcp
    rw [if_pos hverified] at hcp
    obtain ⟨found, hfound, heq⟩ := List.mem_map.mp hcp
    exact ⟨_, found, hfound, heq.symm⟩

/-- A request starts where its checkpoint is, in the same document, revision and language. -/
theorem startState_ok {source : DocumentSnapshot} {language : Language} {start : Nat}
    {cp : Checkpoint} {definition : Option Nat} {state : State}
    (h : startState source language start (some cp) definition = .ok state) :
    cp.source.documentId = source.documentId ∧ cp.source.revision = source.revision ∧
      cp.language = language ∧ cp.offset = start ∧ cp.definition = definition ∧
      state = cp.state := by
  rw [startState] at h
  split_ifs at h with hstale
  push Not at hstale
  obtain ⟨hsame, hrevision, hlanguage, hoffset, hdefinition⟩ := hstale
  exact ⟨beq_iff_eq.mp hsame, hrevision, hlanguage, hoffset, hdefinition,
    (Except.ok.inj h).symm⟩

end BareLine.Syntax
