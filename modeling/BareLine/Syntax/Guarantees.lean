import BareLine.Syntax.Checkpoints

/-!
# Windows make up one pass

Every checkpoint a history of edits and requests hands out stands where the pass over its revision
does, and the windows that start at them find what that pass finds, as long as no character
literal of the pass goes around a line end.
-/

namespace BareLine.Syntax

open Lib Codec

variable {vocabulary : Vocabulary} {arcs : Nat → Definition} {history : List DocumentSnapshot}

/-! ## §1 Unbroken passes -/

/-- Only Rust has literals that can break a line. -/
theorem Lexer.unbroken_of_ne_rust {lexer : Lexer} (hvalid : lexer.Valid)
    (hlanguage : lexer.language ≠ .rust) (state : State) (text : Bytes) :
    lexer.Unbroken state text := by
  generalize hn : text.length = n
  induction n using Nat.strongRecOn generalizing state text with
  | ind n ih =>
    by_cases hnil : text = []
    · rw [hnil]
      exact .done state
    have hbounds := token_bounds hvalid state hnil
    refine .step hnil ?_ (ih _ ?_ _ _ rfl)
    · rintro ⟨-, length, hliteral, -⟩
      rw [charLiteral, if_neg fun hboth => hlanguage hboth.1] at hliteral
      cases hliteral
    · rw [List.length_drop]
      omega

theorem endsLine_of_getLast {u : Bytes} (h : u.getLast?.any isLineEnd = true) : EndsLine u := by
  rcases List.eq_nil_or_concat u with rfl | ⟨w, b, rfl⟩
  · cases h
  · rw [List.concat_eq_append, List.getLast?_concat] at h
    exact ⟨w, b, List.concat_eq_append, h⟩

theorem endsLine_take {u : Bytes} {k : Nat} {b : UInt8} (hpos : 0 < k)
    (hlast : u[k - 1]? = some b) (hb : isLineEnd b = true) : EndsLine (u.take k) := by
  refine ⟨u.take (k - 1), b, ?_, hb⟩
  have hsplit := List.take_add_one (l := u) (i := k - 1)
  rw [Nat.sub_add_cancel hpos, hlast] at hsplit
  exact hsplit

/-- The place behind a line end that the window counted. -/
theorem sparse_place {lexer : Lexer} (hvalid : lexer.Valid) {text : Bytes} {line : Nat}
    {ts : List Token} {state last : State} (hpass : lexer.Pass state text ts last)
    {found : Nat × State} (h : found ∈ sparse text line 0 ts) :
    lexer.Reaches state text found.1 found.2 ∧ EndsLine (text.take found.1) := by
  have hwhole : lexer.Pass state (text.drop 0) ts last := hpass
  obtain ⟨k, hk, hreach, hpos, b, hlast, hb⟩ := sparse_spec hvalid hwhole h
  rw [Nat.zero_add] at hk
  exact ⟨hk ▸ hreach, endsLine_take hpos hlast hb⟩

/-- A text up to the end of a window, and from its start on. -/
theorem window_split {text : Bytes} {range : Range} (hle : range.start ≤ range.stop)
    (hstop : range.stop ≤ text.length) :
    text.take range.stop = text.take range.start ++ range.of text ∧
      text.drop range.start = range.of text ++ text.drop range.stop ∧
      range.start + (range.of text).length = range.stop := by
  have hfront : (text.take range.stop).length = range.stop := List.length_take_of_le hstop
  refine ⟨?_, ?_, ?_⟩
  · rw [Range.of, ← List.take_append_drop range.start (text.take range.stop), List.take_take,
      Nat.min_eq_left hle, List.drop_left' (List.length_take_of_le (hle.trans hstop))]
  · rw [Range.of, ← List.drop_append_of_le_length (by omega), List.take_append_drop]
  · rw [Range.of, List.length_drop, hfront]
    omega

/-! ## §2 Known checkpoints -/

/-- The checkpoint's pass stands where it says. -/
def Checkpoint.Right (vocabulary : Vocabulary) (arcs : Nat → Definition) (self : Checkpoint) :
    Prop := Faithful (self.lexer vocabulary arcs) self.source.text self.offset self.state

/-- A finished request starts where the pass over the whole text stands. -/
theorem Finished.stands (hrun : EditRun history) {source : DocumentSnapshot}
    (hsource : source ∈ history) {language : Language} {range : Range}
    {offered : Option Checkpoint} {options : LexOptions} {state : State} {result : SyntaxResult}
    (h : Finished vocabulary arcs source language range offered options state result)
    (hoffered : ∀ cp ∈ offered, cp.source ∈ history ∧
      (cp.lexer vocabulary arcs = lexerFor vocabulary arcs language options.definition →
        cp.Right vocabulary arcs)) :
    Stands (lexerFor vocabulary arcs language options.definition) source.text range.start
      state := by
  cases offered with
  | none =>
    obtain rfl := Except.ok.inj h.started
    rcases h.verified with hzero | hno | hidle
    · rw [hzero]
      exact stands_zero _ _
    · exact absurd rfl hno
    · refine .of_reaches (fun hactive => ?_) fun _ => rfl
      rw [hidle] at hactive
      cases hactive
  | some cp =>
    obtain ⟨-, hrevision, hlanguage, hoffset, hdefinition, rfl⟩ := startState_ok h.started
    obtain ⟨hmember, hright⟩ := hoffered cp rfl
    have hsame := hrun.unique _ hmember _ hsource hrevision
    have hlexer : cp.lexer vocabulary arcs =
        lexerFor vocabulary arcs language options.definition := by
      rw [Checkpoint.lexer, hlanguage, hdefinition]
    have hstands := (hright hlexer).stands
    rw [hlexer, hsame, hoffset] at hstands
    exact hstands

/-- What a request hands out is right where what it was offered is. -/
theorem found_right (hrun : EditRun history) {source : DocumentSnapshot}
    (hsource : source ∈ history) {language : Language} {range : Range}
    {offered : Option Checkpoint} {options : LexOptions} {result : SyntaxResult} {cp : Checkpoint}
    (hlexed : lexConfigured vocabulary arcs source language range offered options = .ok result)
    (hoffered : ∀ cp ∈ offered, cp.source ∈ history ∧
      (cp.lexer vocabulary arcs = lexerFor vocabulary arcs language options.definition →
        cp.Right vocabulary arcs))
    (hwhole : (lexerFor vocabulary arcs language options.definition).Unbroken .normal source.text)
    (hcp : cp ∈ result.checkpoint ∨ cp ∈ result.checkpoints) : cp.Right vocabulary arcs := by
  obtain ⟨hvalid, hle, hstop, hcases⟩ := lexConfigured_ok hlexed
  rcases hcases with ⟨state, hfinished⟩ | ⟨-, -, hnone, hnil⟩
  · have hstands := hfinished.stands hrun hsource hoffered
    rw [hrun.len_eq hsource] at hstop
    obtain ⟨hfront, htext, hlen⟩ := window_split hle hstop
    rcases hcp with hcp | hcp
    · obtain ⟨rfl, hboundary⟩ := hfinished.checkpoint cp hcp
      rw [hrun.len_eq hsource] at hboundary
      have hjoint : source.text.drop range.stop = [] ∨ EndsLine (range.of source.text) :=
        hboundary.imp (fun hall => by rw [hall, List.drop_length]) endsLine_of_getLast
      have hbehind := hstands.window hvalid hwhole htext (.inr hjoint)
      rw [hlen] at hbehind
      refine ⟨hbehind, hstop, hboundary.imp_right fun hlast => ?_⟩
      rw [hfront]
      exact (endsLine_of_getLast hlast).append_left _
    · obtain ⟨line, found, hfound, rfl⟩ := hfinished.checkpoints cp hcp
      cases hactive : (lexerFor vocabulary arcs language options.definition).active with
      | false =>
        rw [windowTokens_idle hactive] at hfound
        cases hfound
      | true =>
        have hpass := windowTokens_pass hvalid hactive state (range.of source.text)
        obtain ⟨hreach, hend⟩ := sparse_place hvalid hpass hfound
        have hkle := hreach.le hvalid
        refine ⟨hstands.inside hvalid hwhole htext hactive hreach hend, ?_, .inr ?_⟩
        · dsimp only
          omega
        · dsimp only
          rw [List.take_add, htext, List.take_append_of_le_length hkle]
          exact hend.append_left _
  · rcases hcp with hcp | hcp
    · rw [hnone] at hcp
      cases hcp
    · rw [hnil] at hcp
      cases hcp

/-- What a checkpoint of the history is about. -/
structure Checkpoint.Sound (vocabulary : Vocabulary) (arcs : Nat → Definition)
    (history : List DocumentSnapshot) (cp : Checkpoint) : Prop where
  member : cp.source ∈ history
  valid : (cp.lexer vocabulary arcs).Valid
  right : (∀ s ∈ history, (cp.lexer vocabulary arcs).Unbroken .normal s.text) →
    cp.Right vocabulary arcs

/-- Every known checkpoint is right where no revision has a broken literal. -/
theorem Known.sound (hrun : EditRun history) {cp : Checkpoint}
    (h : Known vocabulary arcs history cp) : cp.Sound vocabulary arcs history := by
  induction h with
  | @found source language range offered options result cp member known lexed handed ih =>
    obtain ⟨hvalid, -, -, hcases⟩ := lexConfigured_ok lexed
    have hplace : cp.source = source ∧ cp.language = language ∧
        cp.definition = options.definition := by
      rcases hcases with ⟨state, hfinished⟩ | ⟨-, -, hnone, hnil⟩
      · rcases handed with hcp | hcp
        · obtain ⟨rfl, -⟩ := hfinished.checkpoint cp hcp
          exact ⟨rfl, rfl, rfl⟩
        · obtain ⟨-, -, -, rfl⟩ := hfinished.checkpoints cp hcp
          exact ⟨rfl, rfl, rfl⟩
      · rcases handed with hcp | hcp
        · rw [hnone] at hcp
          cases hcp
        · rw [hnil] at hcp
          cases hcp
    obtain ⟨rfl, rfl, hdefinition⟩ := hplace
    have hlexer : cp.lexer vocabulary arcs =
        lexerFor vocabulary arcs cp.language options.definition := by
      rw [Checkpoint.lexer, hdefinition]
    refine ⟨member, hlexer ▸ hvalid, fun hwhole => ?_⟩
    rw [hlexer] at hwhole
    refine found_right hrun member lexed (fun cp' hcp' => ⟨(ih cp' hcp').member, fun hsame => ?_⟩)
      (hwhole _ member) handed
    exact (ih cp' hcp').right (hsame ▸ hwhole)
  | @carried cp cp' next known member moved ih =>
    obtain ⟨rfl, hfront⟩ := Checkpoint.rebase_some hrun ih.member member moved
    exact ⟨member, ih.valid, fun hwhole =>
      (ih.right hwhole).carry ih.valid (hwhole _ ih.member) (hwhole _ member) hfront⟩

/-! ## §3 Covering windows -/

/-- The merged spans of one pass over a text. -/
def onePass (lexer : Lexer) (text : Bytes) : List StyleSpan :=
  merge (styled 0 (windowTokens lexer .normal text))

/-- The results of windows that cover a revision's text from an offset on, each lexed from the
start of the document or from a known checkpoint. -/
inductive Covers (vocabulary : Vocabulary) (arcs : Nat → Definition)
    (history : List DocumentSnapshot) (source : DocumentSnapshot) (language : Language)
    (definition : Option Nat) : Nat → List SyntaxResult → Prop where
  | finished : Covers vocabulary arcs history source language definition source.len []
  | window {range : Range} {offered : Option Checkpoint} {lineOrigin : Nat}
      {result : SyntaxResult} {results : List SyntaxResult}
      (place : range.start = 0 ∨ offered ≠ none)
      (known : ∀ cp ∈ offered, Known vocabulary arcs history cp)
      (lexed : lexConfigured vocabulary arcs source language range offered
        ⟨lineOrigin, definition⟩ = .ok result)
      (behind : Covers vocabulary arcs history source language definition range.stop results) :
      Covers vocabulary arcs history source language definition range.start (result :: results)

section Covering

variable {source : DocumentSnapshot} {language : Language} {definition : Option Nat}
  {offset : Nat} {results : List SyntaxResult}

/-- Windows start at the start of the text, behind a line end or at the end of the text. -/
theorem Covers.place (hrun : EditRun history) (hsource : source ∈ history)
    (hwhole : ∀ s ∈ history, (lexerFor vocabulary arcs language definition).Unbroken .normal s.text)
    (h : Covers vocabulary arcs history source language definition offset results) :
    offset = 0 ∨ offset = source.text.length ∨ EndsLine (source.text.take offset) := by
  cases h with
  | finished => exact .inr (.inl (hrun.len_eq hsource))
  | @window range offered lineOrigin result results place known lexed behind =>
    refine place.imp_right fun hsome => ?_
    cases offered with
    | none => exact absurd rfl hsome
    | some cp =>
      obtain ⟨-, -, -, ⟨state, hfinished⟩ | ⟨-, hnone, -⟩⟩ := lexConfigured_ok lexed
      · obtain ⟨-, hrevision, hlanguage, hoffset, hdefinition, -⟩ :=
          startState_ok hfinished.started
        have hsound := (known cp rfl).sound hrun
        have hsame := hrun.unique _ hsound.member _ hsource hrevision
        have hplace := (hsound.right (by
          rw [Checkpoint.lexer, hlanguage, hdefinition]
          exact hwhole)).place
        rw [hsame, hoffset] at hplace
        exact hplace
      · cases hnone

/-- From where the pass stands on, the windows find what the pass finds. -/
theorem Covers.joins (hrun : EditRun history) (hsource : source ∈ history)
    (hwhole : ∀ s ∈ history, (lexerFor vocabulary arcs language definition).Unbroken .normal s.text)
    (h : Covers vocabulary arcs history source language definition offset results) {state : State}
    (hstands : Stands (lexerFor vocabulary arcs language definition) source.text offset state)
    (acc : List StyleSpan) :
    (results.flatMap SyntaxResult.spans).foldl joinSpan acc =
      (styled offset (windowTokens (lexerFor vocabulary arcs language definition) state
        (source.text.drop offset))).foldl joinSpan acc := by
  induction h generalizing state acc with
  | finished =>
    rw [hrun.len_eq hsource, List.drop_length, windowTokens_nil]
    rfl
  | @window range offered lineOrigin result results place known lexed behind ih =>
    obtain ⟨hvalid, hle, hstop, ⟨started, hfinished⟩ | ⟨hzero, hnone, -⟩⟩ := lexConfigured_ok lexed
    · rw [hrun.len_eq hsource] at hstop
      obtain ⟨hfront, htext, hlen⟩ := window_split hle hstop
      have hstarted := hfinished.stands hrun hsource fun cp hcp =>
        ⟨((known cp hcp).sound hrun).member, fun hsame =>
          ((known cp hcp).sound hrun).right (hsame ▸ hwhole)⟩
      obtain rfl := hstands.unique hvalid hstarted
      have hjoint : range.of source.text = [] ∨ source.text.drop range.stop = [] ∨
          EndsLine (range.of source.text) := by
        rcases behind.place hrun hsource hwhole with hzero | hall | hend
        · exact .inl (List.length_eq_zero_iff.mp (by omega))
        · exact .inr (.inl (by rw [hall, List.drop_length]))
        · by_cases hnil : range.of source.text = []
          · exact .inl hnil
          · rw [hfront] at hend
            exact .inr (.inr (hend.of_append hnil))
      have hbehind := hstands.window hvalid (hwhole _ hsource) htext hjoint
      rw [hlen] at hbehind
      have hrest : (lexerFor vocabulary arcs language definition).active = true →
          (lexerFor vocabulary arcs language definition).Unbroken state
            (range.of source.text ++ source.text.drop range.stop) := fun hactive =>
        htext ▸ (hwhole _ hsource).behind (hstands.reaches hactive)
      rw [List.flatMap_cons, List.foldl_append, hfinished.spans, foldl_merge, ih hbehind,
        ← List.foldl_append, htext, styled_windows hvalid hjoint hrest, hlen]
    · exact absurd (place.resolve_right (fun h => h hnone)) hzero

end Covering

/-! ## §4 Requests that succeed, and those that do not -/

/-- A window of at most `MAX_REQUEST_BYTES` between boundaries of the text. -/
structure IsWindow (source : DocumentSnapshot) (range : Range) : Prop where
  ordered : range.start ≤ range.stop
  inside : range.stop ≤ source.len
  bounded : range.stop - range.start ≤ MAX_REQUEST_BYTES
  starts : source.isBoundary range.start = true
  stops : source.isBoundary range.stop = true

/-- A window lexed from where it may start never runs out of spans. -/
theorem lexConfigured_total {source : DocumentSnapshot} {language : Language} {range : Range}
    {offered : Option Checkpoint} {options : LexOptions} {state : State}
    (hdefinition : validateShared arcs options.definition = .ok ())
    (hwindow : IsWindow source range)
    (hstart : startState source language range.start offered options.definition = .ok state) :
    ∃ result, lexConfigured vocabulary arcs source language range offered options = .ok result := by
  have hvalid : (lexerFor vocabulary arcs language options.definition).Valid :=
    lexerFor_valid hdefinition
  have hrange : ¬(range.start > range.stop ∨ range.stop > source.len ∨
      ¬source.isBoundary range.start ∨ ¬source.isBoundary range.stop) := by
    rintro (h | h | h | h)
    · exact absurd hwindow.ordered (by omega)
    · exact absurd hwindow.inside (by omega)
    · exact h hwindow.starts
    · exact h hwindow.stops
  have hsize : ¬range.stop - range.start > MAX_REQUEST_BYTES := Nat.not_lt.mpr hwindow.bounded
  have hcount : (windowTokens (lexerFor vocabulary arcs language options.definition) state
      (range.of source.text)).length ≤ MAX_SPANS := by
    cases hactive : (lexerFor vocabulary arcs language options.definition).active with
    | false =>
      rw [windowTokens_idle hactive]
      exact Nat.zero_le _
    | true =>
      have hle := (windowTokens_pass hvalid hactive state (range.of source.text)).count_le hvalid
      rw [Range.of_length] at hle
      have := hwindow.bounded
      rw [MAX_SPANS]
      omega
  have hfits : ([] : List StyleSpan).length + (styled range.start
      (windowTokens (lexerFor vocabulary arcs language options.definition) state
        (range.of source.text))).length ≤ MAX_SPANS := by
    rw [List.length_nil, Nat.zero_add]
    exact (styled_length _ _).trans hcount
  obtain ⟨spans, hspans⟩ := foldlM_addSpan_ok hfits
  rw [windowTokens] at hspans
  rw [lexConfigured]
  simp only [hdefinition, hstart, hspans, bind, Except.bind, if_neg hrange, if_neg hsize]
  by_cases hunread : range.start ≠ 0 ∧ offered = none ∧
      (language ≠ .plainText ∨ options.definition ≠ none)
  · rw [if_pos hunread]
    exact ⟨_, rfl⟩
  · rw [if_neg hunread]
    exact ⟨_, rfl⟩

/-- A checkpoint of another revision, language or definition is refused. -/
theorem lexConfigured_refuses {source : DocumentSnapshot} {language : Language} {range : Range}
    {cp : Checkpoint} {options : LexOptions}
    (h : cp.source.documentId ≠ source.documentId ∨ cp.source.revision ≠ source.revision ∨
      cp.language ≠ language ∨ cp.definition ≠ options.definition) :
    ∃ error, lexConfigured vocabulary arcs source language range (some cp) options =
      .error error := by
  cases hlex : lexConfigured vocabulary arcs source language range (some cp) options with
  | error error => exact ⟨error, rfl⟩
  | ok result =>
    exfalso
    obtain ⟨-, -, -, ⟨state, hfinished⟩ | ⟨-, hnone, -⟩⟩ := lexConfigured_ok hlex
    · obtain ⟨hdocument, hrevision, hlanguage, -, hdefinition, -⟩ :=
        startState_ok hfinished.started
      rcases h with h | h | h | h
      · exact h hdocument
      · exact h hrevision
      · exact h hlanguage
      · exact h hdefinition
    · cases hnone

/-! ## §5 The guarantee -/

/-- Where no literal of the history goes around a line end, windows that cover a revision find the
spans of one pass, every known checkpoint stands where that pass does, a checkpoint of something
else is refused, and a window lexed from where it may start succeeds. -/
theorem windows_find_one_pass (hrun : EditRun history) {language : Language}
    {definition : Option Nat}
    (hwhole : ∀ s ∈ history,
      (lexerFor vocabulary arcs language definition).Unbroken .normal s.text) :
    (∀ source ∈ history, ∀ results,
      Covers vocabulary arcs history source language definition 0 results →
        merge (results.flatMap SyntaxResult.spans) =
          onePass (lexerFor vocabulary arcs language definition) source.text) ∧
    (∀ cp, Known vocabulary arcs history cp → cp.language = language →
      cp.definition = definition →
        Stands (lexerFor vocabulary arcs language definition) cp.source.text cp.offset cp.state) ∧
    (∀ cp, Known vocabulary arcs history cp → ∀ source ∈ history, ∀ other range options,
      cp.source.revision ≠ source.revision ∨ cp.language ≠ other ∨
        cp.definition ≠ options.definition →
          ∃ error, lexConfigured vocabulary arcs source other range (some cp) options =
            .error error) ∧
    (∀ source ∈ history, ∀ range, IsWindow source range →
      validateShared arcs definition = .ok () → ∀ offered : Option Checkpoint,
      (∀ cp ∈ offered, Known vocabulary arcs history cp ∧ cp.source = source ∧
        cp.language = language ∧ cp.offset = range.start ∧ cp.definition = definition) →
      ∀ lineOrigin, ∃ result, lexConfigured vocabulary arcs source language range offered
        ⟨lineOrigin, definition⟩ = .ok result) := by
  refine ⟨fun source hsource results hcovers => ?_, fun cp hknown hlanguage hdefinition => ?_,
    fun cp _ source _ other range options hother => lexConfigured_refuses (.inr hother),
    fun source hsource range hwindow hdefinition offered hoffered lineOrigin => ?_⟩
  · have hjoins := hcovers.joins hrun hsource hwhole (stands_zero _ _) []
    rw [List.drop_zero] at hjoins
    exact hjoins
  · have hlexer : cp.lexer vocabulary arcs = lexerFor vocabulary arcs language definition := by
      rw [Checkpoint.lexer, hlanguage, hdefinition]
    have hright := (hknown.sound hrun).right (hlexer ▸ hwhole)
    rw [Checkpoint.Right, hlexer] at hright
    exact hright.stands
  · have hstart : ∃ state, startState source language range.start offered definition =
        .ok state := by
      cases offered with
      | none => exact ⟨.normal, rfl⟩
      | some cp =>
        obtain ⟨-, rfl, rfl, hoffset, rfl⟩ := hoffered cp rfl
        refine ⟨cp.state, ?_⟩
        rw [startState, if_neg]
        rintro (h | h | h | h | h)
        · exact h (beq_iff_eq.mpr rfl)
        · exact h rfl
        · exact h rfl
        · exact h hoffset
        · exact h rfl
    obtain ⟨state, hstate⟩ := hstart
    exact lexConfigured_total hdefinition hwindow hstate

/-- The letters and digits of ASCII, and no keyword. -/
def asciiVocabulary : Vocabulary where
  isAlphabetic c := c.length == 1 && c.all fun b => (65 ≤ b && b ≤ 90) || (97 ≤ b && b ≤ 122)
  isAlphanumeric c := c.length == 1 && c.all isAsciiAlphanumeric
  keyword _ _ := false
  lineEnd b h := by
    rw [isLineEnd, Bool.or_eq_true, beq_iff_eq, beq_iff_eq] at h
    rcases h with rfl | rfl <;> decide

/-- The first snapshot of a document of one leaf. -/
def oneLeaf (text : Bytes) : DocumentSnapshot :=
  ⟨none, .default, some (.leaf (.new ⟨0, text, none, true⟩ ⟨0, text.length⟩)), 0, 0, 0, true⟩

theorem oneLeaf_run {text : Bytes} (h : 0 < text.length) : EditRun [oneLeaf text] :=
  .opened (Tree.rootWf_some.mpr ⟨h, Nat.le_refl _, rfl⟩) fun _ hchange => (nomatch hchange)

/-- No definition is looked up. -/
def unusedArcs : Nat → Definition := fun _ => ⟨1, [], [], [], [], [], none, none, [], []⟩

/-- Two windows of a Rust text that meet at `3`, with what they found. -/
def twoWindows (text : Bytes) (state : State) (first second : List StyleSpan) :
    List SyntaxResult :=
  [⟨oneLeaf text, .rust, ⟨0, 3⟩, first, .complete, some ⟨oneLeaf text, .rust, 3, state, none⟩, []⟩,
    ⟨oneLeaf text, .rust, ⟨3, text.length⟩, second, .complete,
      some ⟨oneLeaf text, .rust, text.length, .normal, none⟩, []⟩]

/-- Two such windows cover the text where each was lexed so. -/
theorem twoWindows_cover {text : Bytes} {state : State} {first second : List StyleSpan}
    (hfirst : lexConfigured asciiVocabulary unusedArcs (oneLeaf text) .rust ⟨0, 3⟩ none ⟨0, none⟩ =
      .ok ⟨oneLeaf text, .rust, ⟨0, 3⟩, first, .complete,
        some ⟨oneLeaf text, .rust, 3, state, none⟩, []⟩)
    (hsecond : lexConfigured asciiVocabulary unusedArcs (oneLeaf text) .rust ⟨3, text.length⟩
      (some ⟨oneLeaf text, .rust, 3, state, none⟩) ⟨0, none⟩ =
      .ok ⟨oneLeaf text, .rust, ⟨3, text.length⟩, second, .complete,
        some ⟨oneLeaf text, .rust, text.length, .normal, none⟩, []⟩)
    (hlen : (oneLeaf text).len = text.length) :
    Covers asciiVocabulary unusedArcs [oneLeaf text] (oneLeaf text) .rust none 0
      (twoWindows text state first second) := by
  have hbehind : Covers asciiVocabulary unusedArcs [oneLeaf text] (oneLeaf text) .rust none
      text.length [] := hlen ▸ .finished
  have hsecondWindow := Covers.window (.inr (Option.some_ne_none _)) (fun cp h => by
    obtain rfl := Option.some.inj h
    exact .found List.mem_cons_self (fun _ hno => by cases hno) hfirst (.inl rfl)) hsecond hbehind
  exact .window (.inl rfl) (fun _ hno => by cases hno) hfirst hsecondWindow

/-- A block comment goes on behind the line end its first window stops at. -/
theorem windows_find_one_pass_comment :
    merge ((twoWindows [47, 42, 10, 42, 47] (.block 1) [⟨⟨0, 3⟩, .comment⟩]
      [⟨⟨3, 5⟩, .comment⟩]).flatMap SyntaxResult.spans) =
        onePass (lexerFor asciiVocabulary unusedArcs .rust none) [47, 42, 10, 42, 47] := by
  have hrun : EditRun [oneLeaf [47, 42, 10, 42, 47]] := oneLeaf_run (by decide)
  refine (windows_find_one_pass hrun fun s hs => ?_).1 _ List.mem_cons_self _
    (twoWindows_cover rfl rfl rfl)
  obtain rfl := List.mem_singleton.mp hs
  change (lexerFor asciiVocabulary unusedArcs .rust none).Unbroken .normal [47, 42, 10, 42, 47]
  refine .step (by decide) ?_ ?_
  · rintro ⟨-, n, hliteral, -⟩
    have hnone : (lexerFor asciiVocabulary unusedArcs .rust none).charLiteral
        [47, 42, 10, 42, 47] = none := by rfl
    rw [hnone] at hliteral
    cases hliteral
  change (lexerFor asciiVocabulary unusedArcs .rust none).Unbroken (.block 1) [10, 42, 47]
  refine .step (by decide) (fun h => (nomatch h.1)) ?_
  change (lexerFor asciiVocabulary unusedArcs .rust none).Unbroken (.block 1) [42, 47]
  refine .step (by decide) (fun h => (nomatch h.1)) ?_
  exact .done _

/-- The literal of a quote, a backslash, a line end and a quote is one token of the pass; two
windows that meet behind its line end both find nothing. -/
theorem windows_miss_literal :
    ¬∀ (history : List DocumentSnapshot), EditRun history → ∀ source ∈ history, ∀ results,
      Covers asciiVocabulary unusedArcs history source .rust none 0 results →
        merge (results.flatMap SyntaxResult.spans) =
          onePass (lexerFor asciiVocabulary unusedArcs .rust none) source.text := by
  intro hall
  have hcovers : Covers asciiVocabulary unusedArcs [oneLeaf [39, 92, 10, 39]]
      (oneLeaf [39, 92, 10, 39]) .rust none 0 (twoWindows [39, 92, 10, 39] .normal [] []) :=
    twoWindows_cover rfl rfl rfl
  have hspans := hall _ (oneLeaf_run (by decide)) _ List.mem_cons_self _ hcovers
  exact absurd hspans (by decide +kernel)

end BareLine.Syntax
