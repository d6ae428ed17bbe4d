import BareLine.Syntax.Carry

/-!
# Stand-ins for a fresh result

A result carried through an edit is again well formed and styles every byte the edit left alone as
before; a fresh result laid over it hides it inside the fresh range only.
-/

namespace BareLine.Syntax

open Lib Lib.Relocation Codec

/-! ## §1 Well-formed results -/

/-- The spans lie between two offsets, none is empty, and each ends before the next one starts. -/
def Sorted : Nat → List StyleSpan → Nat → Prop
  | a, [], b => a ≤ b
  | a, span :: spans, b => a ≤ span.range.start ∧ span.range.start < span.range.stop ∧
    Sorted span.range.stop spans b

/-- The style of the byte at an offset. -/
def styleAt : List StyleSpan → Nat → Option StyleKind
  | [], _ => none
  | span :: spans, p =>
    if span.range.start ≤ p ∧ p < span.range.stop then some span.kind else styleAt spans p

/-- The spans are non-empty, sorted, disjoint and inside the range, and the range is one of the
text. -/
structure SyntaxResult.WellFormed (r : SyntaxResult) : Prop where
  nonempty : ∀ span ∈ r.spans, span.range.start < span.range.stop
  sorted : r.spans.Pairwise fun a b => a.range.stop ≤ b.range.start
  inside : ∀ span ∈ r.spans, r.range.start ≤ span.range.start ∧ span.range.stop ≤ r.range.stop
  range : r.range.start ≤ r.range.stop
  text : r.range.stop ≤ r.source.text.length

variable {a b c : Nat} {spans others : List StyleSpan}

theorem Sorted.le (h : Sorted a spans b) : a ≤ b := by
  induction spans generalizing a with
  | nil => exact h
  | cons span spans ih => exact h.1.trans (h.2.1.le.trans (ih h.2.2))

theorem Sorted.mono (h : Sorted a spans b) (ha : c ≤ a) : Sorted c spans b := by
  cases spans with
  | nil => exact ha.trans h
  | cons span spans => exact ⟨ha.trans h.1, h.2⟩

theorem Sorted.mono_right (h : Sorted a spans b) (hb : b ≤ c) : Sorted a spans c := by
  induction spans generalizing a with
  | nil => exact h.trans hb
  | cons span spans ih => exact ⟨h.1, h.2.1, ih h.2.2⟩

theorem Sorted.append (h : Sorted a spans b) (h' : Sorted b others c) :
    Sorted a (spans ++ others) c := by
  induction spans generalizing a with
  | nil => exact h'.mono h
  | cons span spans ih => exact ⟨h.1, h.2.1, ih h.2.2⟩

theorem sorted_iff : Sorted a spans b ↔
    (∀ span ∈ spans, span.range.start < span.range.stop) ∧
    spans.Pairwise (fun s t => s.range.stop ≤ t.range.start) ∧
    (∀ span ∈ spans, a ≤ span.range.start ∧ span.range.stop ≤ b) ∧ a ≤ b := by
  induction spans generalizing a with
  | nil => simp [Sorted]
  | cons span spans ih =>
    rw [Sorted, ih, List.forall_mem_cons, List.forall_mem_cons, List.pairwise_cons]
    constructor
    · rintro ⟨hstart, hspan, hnonempty, hsorted, hinside, hle⟩
      refine ⟨⟨hspan, hnonempty⟩, ⟨fun t ht => (hinside t ht).1, hsorted⟩, ⟨⟨hstart, hle⟩, ?_⟩, ?_⟩
      · exact fun t ht => ⟨hstart.trans (hspan.le.trans (hinside t ht).1), (hinside t ht).2⟩
      · exact hstart.trans (hspan.le.trans hle)
    · rintro ⟨⟨hspan, hnonempty⟩, ⟨hbefore, hsorted⟩, ⟨⟨hstart, hstop⟩, hinside⟩, -⟩
      exact ⟨hstart, hspan, hnonempty, hsorted, fun t ht => ⟨hbefore t ht, (hinside t ht).2⟩, hstop⟩

theorem SyntaxResult.wellFormed_iff {r : SyntaxResult} : r.WellFormed ↔
    Sorted r.range.start r.spans r.range.stop ∧ r.range.stop ≤ r.source.text.length := by
  rw [sorted_iff]
  exact ⟨fun h => ⟨⟨h.nonempty, h.sorted, h.inside, h.range⟩, h.text⟩,
    fun ⟨⟨hnonempty, hsorted, hinside, hrange⟩, htext⟩ =>
      ⟨hnonempty, hsorted, hinside, hrange, htext⟩⟩

theorem styleAt_append (p : Nat) :
    styleAt (spans ++ others) p = (styleAt spans p).or (styleAt others p) := by
  induction spans with
  | nil => rfl
  | cons span spans ih =>
    rw [List.cons_append, styleAt, styleAt, ih]
    split_ifs <;> rfl

/-- Outside of where the spans lie there is no style. -/
theorem Sorted.styleAt_outside (h : Sorted a spans b) {p : Nat} (hp : p < a ∨ b ≤ p) :
    styleAt spans p = none := by
  induction spans generalizing a with
  | nil => rfl
  | cons span spans ih =>
    have hle := h.2.2.le
    have hstart := h.1
    have hspan := h.2.1
    rw [styleAt, if_neg (by omega)]
    exact ih h.2.2 (by omega)

/-! ## §2 Spans carried -/

/-- The image of a span, where anything is left of it. -/
def carriedSpan (es : List (Splice UInt8)) (span : StyleSpan) : List StyleSpan :=
  if after 0 0 es span.range.start < after 0 0 es span.range.stop then
    [⟨⟨after 0 0 es span.range.start, after 0 0 es span.range.stop⟩, span.kind⟩]
  else []

section Carried

variable {es : List (Splice UInt8)} {n : Nat} {carry : Carry}

/-- The pass over the spans maps each of them. -/
theorem carrySpans_spec (h : carry.Stands es n a) (hspans : Sorted a spans b)
    (hfits : ∀ y ≤ b, after 0 0 es y ≤ usizeMax) :
    (carrySpans carry spans).1 = spans.flatMap (carriedSpan es) ∧
      ∃ y ≤ b, (carrySpans carry spans).2.Stands es n y := by
  induction spans generalizing carry a with
  | nil => exact ⟨rfl, a, hspans, h⟩
  | cons span spans ih =>
    obtain ⟨hstart, hspan, hrest⟩ := hspans
    have hle := hrest.le
    obtain ⟨hfirst, hstands⟩ := Carry.after_spec h hstart (hfits _ (hspan.le.trans hle))
    obtain ⟨hsecond, hstands⟩ := Carry.after_spec hstands hspan.le (hfits _ hle)
    obtain ⟨hbehind, hend⟩ := ih hstands hrest
    refine ⟨?_, hend⟩
    rw [carrySpans, List.flatMap_cons, ← hbehind, carriedSpan, ← hfirst, ← hsecond]

theorem sorted_carried (h : Ordered 0 es n) (hspans : Sorted a spans b) :
    Sorted (after 0 0 es a) (spans.flatMap (carriedSpan es)) (after 0 0 es b) := by
  induction spans generalizing a with
  | nil => exact after_mono h (Nat.zero_le a) hspans
  | cons span spans ih =>
    obtain ⟨hstart, hspan, hrest⟩ := hspans
    have hfirst := after_mono (d := 0) h (Nat.zero_le a) hstart
    have hsecond := after_mono (d := 0) h (Nat.zero_le span.range.start) hspan.le
    rw [List.flatMap_cons, carriedSpan]
    split_ifs with hleft
    · exact ⟨hfirst, hleft, ih hrest⟩
    · exact (ih hrest).mono (hfirst.trans hsecond)

/-- A byte that stays is in the image of a span when it was in the span. -/
theorem image_in_span (h : Ordered 0 es n) {p x y : Nat} (hp : Untouched es p) :
    (after 0 0 es x ≤ after 0 0 es p ∧ after 0 0 es p < after 0 0 es y) ↔ x ≤ p ∧ p < y := by
  have hroom := after_lt (d := 0) h (Nat.zero_le p) hp
  constructor
  · rintro ⟨hx, hy⟩
    constructor
    · by_contra hlt
      have := after_mono (d := 0) h (Nat.zero_le (p + 1)) (show p + 1 ≤ x by omega)
      omega
    · by_contra hle
      have := after_mono (d := 0) h (Nat.zero_le y) (show y ≤ p by omega)
      omega
  · rintro ⟨hx, hy⟩
    exact ⟨after_mono h (Nat.zero_le x) hx,
      hroom.trans_le (after_mono h (Nat.zero_le (p + 1)) hy)⟩

/-- A byte that stays keeps its style. -/
theorem styleAt_carried (h : Ordered 0 es n) {p : Nat} (hp : Untouched es p) :
    styleAt (spans.flatMap (carriedSpan es)) (after 0 0 es p) = styleAt spans p := by
  induction spans with
  | nil => rfl
  | cons span spans ih =>
    have hin := image_in_span h (x := span.range.start) (y := span.range.stop) hp
    rw [List.flatMap_cons, styleAt_append, ih, styleAt, carriedSpan]
    split_ifs with hleft hmem hmem
    · rw [styleAt, if_pos (hin.mpr hmem)]
      rfl
    · rw [styleAt, if_neg fun hcontra => hmem (hin.mp hcontra)]
      rfl
    · have := hin.mpr hmem
      omega
    · rfl

end Carried

/-! ## §3 Spans laid over others -/

theorem sorted_spansBefore (h : Sorted a spans b) :
    Sorted (min a c) (SyntaxResult.spansBefore spans c) c := by
  induction spans generalizing a with
  | nil => exact Nat.min_le_right a c
  | cons span spans ih =>
    obtain ⟨hstart, hspan, hrest⟩ := h
    rw [SyntaxResult.spansBefore, List.filter_cons]
    split_ifs with hin
    · have hlt : span.range.start < c := of_decide_eq_true hin
      exact ⟨(Nat.min_le_left a c).trans hstart, lt_min hspan hlt, ih hrest⟩
    · exact (ih hrest).mono (by omega)

theorem sorted_spansAfter (h : Sorted a spans b) :
    Sorted (max a c) (SyntaxResult.spansAfter spans c) (max b c) := by
  induction spans generalizing a with
  | nil => exact max_le_max_right c h
  | cons span spans ih =>
    obtain ⟨hstart, hspan, hrest⟩ := h
    rw [SyntaxResult.spansAfter, List.filter_cons]
    split_ifs with hin
    · have hlt : c < span.range.stop := of_decide_eq_true hin
      refine ⟨max_le_max_right c hstart, max_lt hspan hlt, (ih hrest).mono ?_⟩
      exact Nat.le_max_left _ c
    · exact (ih hrest).mono (max_le_max_right c (hstart.trans hspan.le))

theorem spansBefore_cons {span : StyleSpan} :
    SyntaxResult.spansBefore (span :: spans) c =
      (if span.range.start < c then
        [⟨⟨span.range.start, min span.range.stop c⟩, span.kind⟩] else []) ++
        SyntaxResult.spansBefore spans c := by
  simp only [SyntaxResult.spansBefore, List.filter_cons, decide_eq_true_eq]
  split_ifs <;> rfl

theorem spansAfter_cons {span : StyleSpan} :
    SyntaxResult.spansAfter (span :: spans) c =
      (if c < span.range.stop then
        [⟨⟨max span.range.start c, span.range.stop⟩, span.kind⟩] else []) ++
        SyntaxResult.spansAfter spans c := by
  simp only [SyntaxResult.spansAfter, List.filter_cons, decide_eq_true_eq]
  split_ifs <;> rfl

theorem styleAt_spansBefore (p : Nat) :
    styleAt (SyntaxResult.spansBefore spans c) p = if p < c then styleAt spans p else none := by
  induction spans with
  | nil => exact (ite_self none).symm
  | cons span spans ih =>
    rw [spansBefore_cons, styleAt_append, ih]
    by_cases hp : p < c
    · rw [if_pos hp, if_pos hp, styleAt]
      split_ifs with hin hmem hmem
      · rw [styleAt, if_pos ⟨hmem.1, lt_min hmem.2 hp⟩]
        rfl
      · rw [styleAt, if_neg fun h => hmem ⟨h.1, h.2.trans_le (Nat.min_le_left _ c)⟩]
        rfl
      · omega
      · rfl
    · rw [if_neg hp, if_neg hp]
      split_ifs
      · rw [styleAt, if_neg fun h => hp (h.2.trans_le (Nat.min_le_right _ c))]
        rfl
      · rfl

theorem styleAt_spansAfter (p : Nat) :
    styleAt (SyntaxResult.spansAfter spans c) p = if c ≤ p then styleAt spans p else none := by
  induction spans with
  | nil => exact (ite_self none).symm
  | cons span spans ih =>
    rw [spansAfter_cons, styleAt_append, ih]
    by_cases hp : c ≤ p
    · rw [if_pos hp, if_pos hp, styleAt]
      split_ifs with hin hmem hmem
      · rw [styleAt, if_pos ⟨max_le hmem.1 hp, hmem.2⟩]
        rfl
      · rw [styleAt, if_neg fun h => hmem ⟨(Nat.le_max_left _ c).trans h.1, h.2⟩]
        rfl
      · omega
      · rfl
    · rw [if_neg hp, if_neg hp]
      split_ifs
      · rw [styleAt, if_neg fun h => hp ((Nat.le_max_right _ c).trans h.1)]
        rfl
      · rfl

/-- What a fresh result over a stand-in of the same text and language is: the fresh styles in the
fresh range, those of the stand-in outside. -/
structure Overlaid (fresh standIn r : SyntaxResult) : Prop where
  wellFormed : r.WellFormed
  range : r.range = ⟨min fresh.range.start standIn.range.start,
    max fresh.range.stop standIn.range.stop⟩
  inside : ∀ q, fresh.range.start ≤ q → q < fresh.range.stop →
    styleAt r.spans q = styleAt fresh.spans q
  outside : ∀ q, (q < fresh.range.start ∨ fresh.range.stop ≤ q) →
    styleAt r.spans q = styleAt standIn.spans q

theorem overlay_spec {fresh standIn : SyntaxResult} (hfresh : fresh.WellFormed)
    (hstandIn : standIn.WellFormed) (hsource : standIn.source = fresh.source)
    (hlanguage : standIn.language = fresh.language) :
    Overlaid fresh standIn (fresh.overlay standIn) := by
  obtain ⟨hfreshSorted, hfreshText⟩ := SyntaxResult.wellFormed_iff.mp hfresh
  obtain ⟨hsorted, htext⟩ := SyntaxResult.wellFormed_iff.mp hstandIn
  have hcurrent : standIn.isCurrent fresh.source = true := by
    rw [SyntaxResult.isCurrent, sameDocument, hsource, beq_self_eq_true, beq_self_eq_true]
    rfl
  have hle := hfresh.range
  rw [SyntaxResult.overlay, if_neg (by rw [hcurrent, hlanguage]; simp)]
  constructor
  · refine SyntaxResult.wellFormed_iff.mpr ⟨?_, max_le hfreshText (hsource ▸ htext)⟩
    dsimp only
    rw [min_comm, max_comm]
    have hbefore := sorted_spansBefore (c := fresh.range.start) hsorted
    have hafter := sorted_spansAfter (c := fresh.range.stop) hsorted
    exact ((hbefore.append hfreshSorted).append (hafter.mono (Nat.le_max_right _ _)))
  · rfl
  · intro q hstart hstop
    rw [styleAt_append, styleAt_append, styleAt_spansBefore, styleAt_spansAfter,
      if_neg (Nat.not_lt.mpr hstart), if_neg (Nat.not_le.mpr hstop), Option.or_none]
    rfl
  · intro q hq
    rw [styleAt_append, styleAt_append, styleAt_spansBefore, styleAt_spansAfter,
      hfreshSorted.styleAt_outside hq, Option.or_none]
    obtain hlt | hge := hq
    · rw [if_pos hlt, if_neg (by omega), Option.or_none]
    · rw [if_neg (by omega), if_pos hge]
      rfl

/-! ## §4 Edits that do nothing -/

section Idle

variable {es : List (Splice UInt8)} {n x : Nat}

theorem idle_untouched (h : Idle es n) (p : Nat) : Untouched es p := by
  intro e he
  obtain ⟨hstart, hstop, -⟩ := h e he
  omega

theorem idle_after {c d : Nat} (h : Idle es n) (hc : c ≤ x) (hx : x ≤ n) :
    after c d es x = d + (x - c) := by
  induction es generalizing c d with
  | nil => rfl
  | cons e es ih =>
    obtain ⟨⟨hstart, hstop, hnone⟩, hrest⟩ := List.forall_mem_cons.mp h
    rw [after]
    split_ifs with hle
    · rw [ih hrest hle, hnone, List.length_nil]
      omega
    · omega
    · rfl

theorem idle_splice {c : Nat} {t : Bytes} (h : Idle es n) (hn : c + t.length = n) :
    spliceFrom c es t = t := by
  induction es generalizing c t with
  | nil => rfl
  | cons e es ih =>
    obtain ⟨⟨hstart, hstop, hnone⟩, hrest⟩ := List.forall_mem_cons.mp h
    rw [spliceFrom, hnone, hstart, hstop, ih hrest (by rw [List.length_drop]; omega),
      List.append_nil, List.take_append_drop]

theorem idle_written {y q : Nat} (h : Idle es n) : ¬Written 0 0 es x y q := by
  rintro ⟨f, hf, -, hle, hlt⟩
  rw [(h f.1 (mem_of_placed hf)).2.2, List.length_nil] at hlt
  omega

theorem idle_stays {y q : Nat} (h : Idle es n) (hy : y ≤ n) :
    Stays 0 0 ([] : List (Splice UInt8)) x y q ↔ Stays 0 0 es x y q := by
  refine exists_congr fun p => and_congr_right fun _ => and_congr_right fun hpy => ?_
  have hp : p ≤ n := by omega
  rw [idle_after h (Nat.zero_le p) hp]
  simp only [idle_untouched h p, true_and]
  rw [after]
  exact ⟨And.right, fun hq => ⟨fun _ he => (by cases he), hq⟩⟩

end Idle

/-! ## §5 The stand-in -/

/-- What a result carried to the next revision is.  The range covers the bytes of the old one that
stay and the texts of the edits it meets: those that end at its start or behind it, and start in
front of its end or insert there. -/
structure Carried (old : SyntaxResult) (next : DocumentSnapshot) (es : List (Splice UInt8))
    (r : SyntaxResult) : Prop where
  wellFormed : r.WellFormed
  source : r.source = next
  language : r.language = old.language
  status : r.status = .provisional
  kept : ∀ p < old.source.text.length, Untouched es p →
    next.text[after 0 0 es p]? = old.source.text[p]? ∧
    styleAt r.spans (after 0 0 es p) = styleAt old.spans p
  range : ∀ q, (r.range.start ≤ q ∧ q < r.range.stop) ↔
    Stays 0 0 es old.range.start old.range.stop q ∨
    Written 0 0 es old.range.start old.range.stop q

section Rebase

variable {room : Nat → Bool} {self : SyntaxResult} {next : DocumentSnapshot}
  {es : List (Splice UInt8)} {first : Nat}

/-- A pass over the splices themselves. -/
theorem rebase_splices (h : self.WellFormed) (hroom : room self.spans.length = true)
    (hfirst : firstChange self.source next = some first)
    (hedits : stepEdits next first = es.map compact)
    (hordered : Ordered 0 es self.source.text.length) (htext : splice es self.source.text = next.text)
    (hlen : next.len = next.text.length) (hfits : next.len ≤ usizeMax) :
    ∃ r, self.rebase room next = some r ∧ Carried self next es r := by
  obtain ⟨hsorted, hrange⟩ := SyntaxResult.wellFormed_iff.mp h
  have hlength : after 0 0 es self.source.text.length = next.text.length := by
    have hend := after_length (c := 0) (d := 0) (t := self.source.text) (by simpa using hordered)
    rw [Nat.zero_add, Nat.zero_add] at hend
    exact hend.trans (congrArg List.length htext)
  have himage : ∀ y ≤ self.range.stop, after 0 0 es y ≤ next.len := fun y hy => by
    rw [hlen, ← hlength]
    exact after_mono hordered (Nat.zero_le y) (hy.trans hrange)
  obtain ⟨hspans, y, hy, hstands⟩ := carrySpans_spec (Carry.stands_start hordered)
    (hsorted.mono (Nat.zero_le _)) fun y hy => (himage y hy).trans hfits
  have hstop := (Carry.after_spec hstands hy ((himage _ (Nat.le_refl _)).trans hfits)).1
  have hstart : widen self.range.start self.range.start (es.map compact) =
      before 0 0 es self.range.start := widen_start hordered
  have hle : before 0 0 es self.range.start ≤ after 0 0 es self.range.stop :=
    (before_le_after hordered (Nat.zero_le _)).trans
      (after_mono hordered (Nat.zero_le _) hsorted.le)
  have hnew : self.carriedRange next (es.map compact)
      (carrySpans ⟨es.map compact, 0⟩ self.spans).2 =
      some ⟨before 0 0 es self.range.start, after 0 0 es self.range.stop⟩ := by
    rw [SyntaxResult.carriedRange, hstart,
      Carry.toUsize_natCast (hle.trans ((himage _ (Nat.le_refl _)).trans hfits)), Option.bind_some,
      hstop]
    exact if_neg (by have := himage _ (Nat.le_refl self.range.stop); omega)
  refine ⟨⟨next, self.language, ⟨before 0 0 es self.range.start, after 0 0 es self.range.stop⟩,
    self.spans.flatMap (carriedSpan es), .provisional, self.checkpoint.bind fun c => c.rebase next,
    self.checkpoints.filterMap fun c => c.rebase next⟩, ?_, ?_⟩
  · rw [SyntaxResult.rebase, hfirst, Option.bind_some, if_pos hroom, hedits]
    dsimp only
    rw [hnew, hspans]
    rfl
  · constructor
    · refine SyntaxResult.wellFormed_iff.mpr ⟨?_, hlen ▸ himage _ (Nat.le_refl _)⟩
      exact (sorted_carried hordered hsorted).mono (before_le_after hordered (Nat.zero_le _))
    · rfl
    · rfl
    · rfl
    · intro p hp hstays
      refine ⟨?_, styleAt_carried hordered hstays⟩
      have hbyte := getElem?_after (d := 0) (t := self.source.text) (by simpa using hordered)
        (Nat.zero_le p) hstays
      rw [← htext]
      exact hbyte
    · exact fun q => mem_between hordered (Nat.zero_le _) hsorted.le q

/-- A result that directly precedes a revision is carried to it. -/
theorem rebase_spec (h : self.WellFormed) (hfollows : Follows self.source next es)
    (hroom : room self.spans.length = true) :
    ∃ r, self.rebase room next = some r ∧ Carried self next es r := by
  have hlen := hfollows.measured.2
  have hfits := hfollows.fits.2
  obtain hedits | ⟨hnone, hidle⟩ := hfollows.stepEdits_eq
  · exact rebase_splices h hroom hfollows.firstChange_eq hedits hfollows.ordered hfollows.text hlen
      hfits
  · -- the edits, which do nothing, are not looked at
    have htext : splice [] self.source.text = next.text := by
      rw [← hfollows.text, splice, splice, idle_splice hidle (Nat.zero_add _)]
      rfl
    have hedits : stepEdits next _ = ([] : List (Splice UInt8)).map compact := hnone
    obtain ⟨r, hrebase, hr⟩ := rebase_splices h hroom hfollows.firstChange_eq hedits
      (Nat.zero_le _) htext hlen hfits
    refine ⟨r, hrebase, hr.wellFormed, hr.source, hr.language, hr.status, fun p hp _ => ?_,
      fun q => ?_⟩
    · have hkept := hr.kept p hp fun _ he => by cases he
      rw [after, Nat.sub_zero, Nat.zero_add] at hkept
      rw [idle_after hidle (Nat.zero_le p) hp.le, Nat.sub_zero, Nat.zero_add]
      exact hkept
    · have hwritten : ¬Written 0 0 ([] : List (Splice UInt8)) self.range.start self.range.stop q :=
        by
          rintro ⟨f, hf, -⟩
          cases hf
      rw [hr.range q, idle_stays hidle h.text, or_iff_left hwritten, or_iff_left (idle_written hidle)]

/-- No offset the pass computes is negative. -/
theorem pass_nonneg (hfollows : Follows self.source next es) {x y : Nat} {carry : Carry}
    (hfirst : firstChange self.source next = some first)
    (hcarry : Carry.Reached (stepEdits next first) x carry) (hxy : x ≤ y) :
    0 ≤ (passed carry.edits carry.delta y).mapped y ∧
      0 ≤ widen self.range.start self.range.start (stepEdits next first) := by
  have hnonneg : ∀ es' : List (Splice UInt8), Ordered 0 es' self.source.text.length →
      Carry.Reached (es'.map compact) x carry →
      0 ≤ (passed carry.edits carry.delta y).mapped y ∧
        0 ≤ widen self.range.start self.range.start (es'.map compact) := by
    intro es' hordered hreached
    refine ⟨hreached.mapped_nonneg hordered hxy, ?_⟩
    rw [widen_start hordered]
    exact Int.natCast_nonneg _
  rw [hfollows.firstChange_eq] at hfirst
  obtain rfl := Option.some.inj hfirst
  obtain hedits | ⟨hnone, -⟩ := hfollows.stepEdits_eq
  · rw [hedits] at hcarry ⊢
    exact hnonneg es hfollows.ordered hcarry
  · rw [hnone] at hcarry ⊢
    exact hnonneg [] (Nat.zero_le _) hcarry

end Rebase

/-- Carried highlighting is well formed and in place, and so is a fresh result laid over it. -/
theorem carried_highlighting {room : Nat → Bool} {self : SyntaxResult} {next : DocumentSnapshot}
    {es : List (Splice UInt8)} (h : self.WellFormed) (hfollows : Follows self.source next es)
    (hroom : room self.spans.length = true) :
    (∃ r, self.rebase room next = some r ∧ Carried self next es r ∧
      ∀ fresh : SyntaxResult, fresh.WellFormed → fresh.source = next →
        (fresh.language = self.language → Overlaid fresh r (fresh.overlay r)) ∧
        (fresh.language ≠ self.language → fresh.overlay r = fresh)) ∧
    ∀ first, firstChange self.source next = some first → ∀ x y carry,
      Carry.Reached (stepEdits next first) x carry → x ≤ y →
      0 ≤ (passed carry.edits carry.delta y).mapped y ∧
        0 ≤ widen self.range.start self.range.start (stepEdits next first) := by
  refine ⟨?_, fun first hfirst x y carry hcarry hxy => pass_nonneg hfollows hfirst hcarry hxy⟩
  obtain ⟨r, hrebase, hr⟩ := rebase_spec h hfollows hroom
  refine ⟨r, hrebase, hr, fun fresh hfresh hsource => ⟨fun hlanguage => ?_, fun hlanguage => ?_⟩⟩
  · exact overlay_spec hfresh hr.wellFormed (hr.source.trans hsource.symm)
      (hr.language.trans hlanguage.symm)
  · exact if_pos (.inr (by rw [hr.language]; exact hlanguage.symm))

/-- The next revision of a text of one leaf, with one edit. -/
def edited (text : Bytes) (e : Splice UInt8) : DocumentSnapshot :=
  { oneLeaf text with
    revision := 1
    contentState := 1
    appliedChange := some ⟨0, 0, 1, 0, 1, .edit, [compact e]⟩ }

/-- A result for the two bytes in the middle of four. -/
def middle : SyntaxResult :=
  ⟨oneLeaf [97, 98, 99, 100], .rust, ⟨1, 3⟩, [⟨⟨1, 3⟩, .keyword⟩], .complete, none, []⟩

theorem middle_wellFormed : middle.WellFormed :=
  SyntaxResult.wellFormed_iff.mpr ⟨⟨by decide, by decide, Nat.le_refl 3⟩, by decide⟩

theorem edited_follows {text : Bytes} {e : Splice UInt8} (hordered : Ordered 0 [e] 4)
    (htext : splice [e] [97, 98, 99, 100] = text) (hlen : (oneLeaf text).len = text.length)
    (htextOf : (oneLeaf text).text = text) (hfits : text.length ≤ usizeMax) :
    Follows middle.source (edited text e) [e] where
  same := rfl
  later := Nat.zero_lt_one
  receipt := ⟨_, rfl, rfl, rfl⟩
  ordered := hordered
  text := htext.trans htextOf.symm
  measured := ⟨rfl, hlen.trans (congrArg List.length htextOf).symm⟩
  fits := ⟨by decide, hlen.le.trans hfits⟩

theorem carried_highlighting_middle :
    ∃ r, middle.rebase (fun _ => true) (edited [97, 98, 120, 121, 100] ⟨2, 3, [120, 121]⟩) = some r ∧
      Carried middle (edited [97, 98, 120, 121, 100] ⟨2, 3, [120, 121]⟩) [⟨2, 3, [120, 121]⟩] r := by
  have hfollows : Follows middle.source (edited [97, 98, 120, 121, 100] ⟨2, 3, [120, 121]⟩)
      [⟨2, 3, [120, 121]⟩] := edited_follows (by decide) rfl rfl rfl (by decide)
  obtain ⟨⟨r, hrebase, hr, -⟩, -⟩ :=
    @carried_highlighting (fun _ => true) middle _ _ middle_wellFormed hfollows rfl
  exact ⟨r, hrebase, hr⟩

/-- A replacement that starts where the range ends is left out, and one that ends where the range
starts is covered. -/
theorem replacements_at_the_ends :
    (Follows middle.source (edited [97, 98, 99, 120, 121] ⟨3, 4, [120, 121]⟩) [⟨3, 4, [120, 121]⟩] ∧
      (middle.rebase (fun _ => true) (edited [97, 98, 99, 120, 121] ⟨3, 4, [120, 121]⟩)).map
        SyntaxResult.range = some ⟨1, 3⟩) ∧
    (Follows middle.source (edited [120, 121, 98, 99, 100] ⟨0, 1, [120, 121]⟩) [⟨0, 1, [120, 121]⟩] ∧
      (middle.rebase (fun _ => true) (edited [120, 121, 98, 99, 100] ⟨0, 1, [120, 121]⟩)).map
        SyntaxResult.range = some ⟨0, 4⟩) :=
  ⟨⟨edited_follows (by decide) rfl rfl rfl (by decide), by decide +kernel⟩,
    ⟨edited_follows (by decide) rfl rfl rfl (by decide), by decide +kernel⟩⟩

end BareLine.Syntax
