import BareLine.Completion.Dedent
import BareLine.Completion.Toggles

/-!
# The opener a typed bracket finds

The walk backwards reads each scalar of its window once, wherever its chunks end, and its cursor
among the literals answers for each of them.  So it finds the last opener behind which the brackets
that count are balanced.
-/

namespace BareLine.Power.Completion

open Lib
open Search (Text)
open String (utf8Len)

variable {u : Unicode} {snapshot : DocumentSnapshot} {limits : Limits} {size : Nat}

/-! ## §1 Chunks -/

/-- A chunk read forwards ends behind its start, at a boundary within the size. -/
theorem chunk_forward {before part after : Text} (hsize : 4 ≤ size) (hpart : part ≠ [])
    (htext : snapshot.text = before ++ (part ++ after)) :
    ∃ left right, part = left ++ right ∧ left ≠ [] ∧ utf8Len left ≤ size ∧
      Search.boundaryUpTo snapshot.toDocumentSnapshot (min (saturatingAdd (utf8Len before) size)
        (utf8Len before + utf8Len part)) = utf8Len before + utf8Len left := by
  obtain ⟨c, tail, rfl⟩ := List.exists_cons_of_ne_nil hpart
  have hlen := snapshot.fits
  have hfits : utf8Len before + utf8Len (c :: tail) ≤ usizeMax := by
    refine Nat.le_trans ?_ hlen
    rw [show snapshot.pieces.flatten = _ from htext, String.utf8Len_append, String.utf8Len_append]
    omega
  have hfour := c.utf8Size_le_four
  have hpos := c.utf8Size_pos
  have hnext : snapshot.isBoundary (utf8Len before + c.utf8Size) = true :=
    isScalarBoundary_iff.mpr ⟨before ++ [c], tail ++ after, by rw [htext]; simp, by simp⟩
  rw [String.utf8Len_cons] at hfits ⊢
  have hbound : min (saturatingAdd (utf8Len before) size)
      (utf8Len before + (utf8Len tail + c.utf8Size)) =
      min (utf8Len before + size) (utf8Len before + (utf8Len tail + c.utf8Size)) := by
    rw [saturatingAdd]
    omega
  rw [hbound]
  obtain ⟨hge, hle, hfound⟩ := @Search.boundaryUpTo_spec snapshot.toDocumentSnapshot _ hnext
    (min (utf8Len before + size) (utf8Len before + (utf8Len tail + c.utf8Size))) (by omega)
  obtain ⟨left, right, hsplit, hstop⟩ := Search.cut_at htext hfound (by omega)
    (by rw [String.utf8Len_cons]; omega)
  refine ⟨left, right, hsplit, ?_, by omega, hstop⟩
  rintro rfl
  rw [String.utf8Len_nil] at hstop
  omega

/-- A chunk read backwards starts in front of its end, at a boundary within the size. -/
theorem chunk_backward {before part after : Text} (hsize : 4 ≤ size) (hpart : part ≠ [])
    (htext : snapshot.text = before ++ (part ++ after)) :
    ∃ left right, part = left ++ right ∧ right ≠ [] ∧ utf8Len right ≤ size ∧
      snapUp snapshot (max (utf8Len before + utf8Len part - size) (utf8Len before))
        (utf8Len before + utf8Len part) = utf8Len before + utf8Len left := by
  obtain ⟨init, c, rfl⟩ : ∃ init c, part = init ++ [c] :=
    ⟨_, _, (List.dropLast_append_getLast hpart).symm⟩
  have hfour := c.utf8Size_le_four
  have hpos := c.utf8Size_pos
  have hprevious : snapshot.isBoundary (utf8Len before + utf8Len init) = true :=
    isScalarBoundary_iff.mpr ⟨before ++ init, [c] ++ after, by rw [htext]; simp, by simp⟩
  have hlen : utf8Len (init ++ [c]) = utf8Len init + c.utf8Size := by simp
  rw [snapUp, hlen]
  obtain ⟨hge, hle, hfound⟩ := @Search.boundaryFrom_spec snapshot.toDocumentSnapshot _ hprevious
    (utf8Len before + (utf8Len init + c.utf8Size) -
      max (utf8Len before + (utf8Len init + c.utf8Size) - size) (utf8Len before))
    (max (utf8Len before + (utf8Len init + c.utf8Size) - size) (utf8Len before))
    (by omega) (by omega)
  obtain ⟨left, right, hsplit, hstart⟩ := Search.cut_at htext hfound (by omega) (by omega)
  have hright : utf8Len left + utf8Len right = utf8Len init + c.utf8Size := by
    rw [← hlen, hsplit, String.utf8Len_append]
  refine ⟨left, right, hsplit, ?_, by omega, hstart⟩
  rintro rfl
  rw [String.utf8Len_nil] at hright
  omega

/-! ## §2 The leading blanks -/

/-- The blanks a part of the text starts with, unless they are over the limit. -/
theorem leadingIndentFrom_eq {before part after indent : Text} (hsize : 4 ≤ size)
    (htext : snapshot.text = before ++ (part ++ after)) (hindent : utf8Len indent ≤ limits.maxBytes) :
    leadingIndentFrom snapshot size (utf8Len before + utf8Len part) limits indent (utf8Len before) =
      if limits.maxBytes < utf8Len indent + utf8Len (indentOf part) then .error .budgetExceeded
      else .ok (indent ++ indentOf part) := by
  induction hn : part.length using Nat.strong_induction_on generalizing before part indent with
  | _ n ih =>
    rw [leadingIndentFrom]
    dsimp only
    by_cases hpart : part = []
    · subst hpart
      have hnil : indentOf [] = [] := rfl
      simp [hnil, Nat.not_lt.mpr hindent]
    obtain ⟨left, right, rfl, hleft, hfits, hstop⟩ := chunk_forward hsize hpart htext
    have hpos : 0 < utf8Len left := Nat.pos_of_ne_zero fun h => hleft (String.utf8Len_eq_zero.mp h)
    rw [hstop, dif_pos ⟨by rw [String.utf8Len_append]; omega, by omega⟩,
      readText_eq (by rw [htext, List.append_assoc]) hfits]
    have hblank : utf8Len (indentOf left) ≤ utf8Len left := by
      conv_rhs => rw [← indentOf_append_contentOf left, String.utf8Len_append]
      exact Nat.le_add_right _ _
    show (if limits.maxBytes < utf8Len indent + utf8Len (indentOf left) then _
      else if utf8Len (indentOf left) < utf8Len left then _ else _) = _
    by_cases hmore : utf8Len (indentOf left) < utf8Len left
    · -- the blanks end in this chunk
      have hsame : indentOf (left ++ right) = indentOf left := by
        rw [indentOf, List.takeWhile_append, if_neg]
        · rfl
        · intro hall
          have : indentOf left = left := (List.takeWhile_prefix _).eq_of_length hall
          rw [this] at hmore
          exact Nat.lt_irrefl _ hmore
      rw [hsame, if_pos hmore]
      rfl
    · have hall : indentOf left = left := by
        have hnil : contentOf left = [] := by
          refine String.utf8Len_eq_zero.mp ?_
          have hsum := congrArg utf8Len (indentOf_append_contentOf left)
          rw [String.utf8Len_append] at hsum
          omega
        have hwhole := indentOf_append_contentOf left
        rwa [hnil, List.append_nil] at hwhole
      have hboth : indentOf (left ++ right) = left ++ indentOf right := by
        rw [indentOf, List.takeWhile_append, if_pos (by rw [← indentOf, hall])]
        rfl
      have hsum : utf8Len indent + utf8Len (left ++ indentOf right) =
          utf8Len indent + utf8Len left + utf8Len (indentOf right) := by
        rw [String.utf8Len_append, Nat.add_assoc]
      rw [if_neg hmore, hboth, hall, hsum]
      by_cases hbudget : limits.maxBytes < utf8Len indent + utf8Len left
      · rw [if_pos hbudget, if_pos (Nat.lt_of_lt_of_le hbudget (Nat.le_add_right _ _))]
      · have hlength : right.length < n := by
          rw [← hn, List.length_append]
          have := List.length_pos_iff.mpr hleft
          omega
        have hnext := @ih right.length hlength (before ++ left) right (indent ++ left)
          (by rw [htext]; simp) (by rw [String.utf8Len_append]; omega) rfl
        simp only [String.utf8Len_append, List.append_assoc, Nat.add_assoc] at hnext ⊢
        rw [if_neg hbudget, ← indentOf, hall]
        exact hnext

/-! ## §3 The walk over one chunk -/

theorem charIndices_append (offset : Nat) (a b : Text) : charIndices offset (a ++ b) =
    charIndices offset a ++ charIndices (offset + utf8Len a) b := by
  induction a generalizing offset with
  | nil => rfl
  | cons c a ih =>
    rw [List.cons_append, charIndices, charIndices, ih, String.utf8Len_cons, List.cons_append,
      Nat.add_assoc, Nat.add_comm c.utf8Size]

theorem mem_charIndices {offset : Nat} {text : Text} :
    ∀ m ∈ charIndices offset text, offset ≤ m.1 ∧ m.1 < offset + utf8Len text := by
  induction text generalizing offset with
  | nil => exact nofun
  | cons c text ih =>
    have hpos := c.utf8Size_pos
    rw [charIndices, String.utf8Len_cons]
    refine List.forall_mem_cons.mpr ⟨⟨Nat.le_refl _, by dsimp only; omega⟩, fun m hm => ?_⟩
    have := ih m hm
    omega

theorem charIndices_sorted (offset : Nat) (text : Text) :
    (charIndices offset text).Pairwise fun a b => a.1 < b.1 := by
  induction text generalizing offset with
  | nil => exact .nil
  | cons c text ih =>
    have hpos := c.utf8Size_pos
    refine .cons (fun m hm => ?_) (ih _)
    have := (mem_charIndices m hm).1
    dsimp only
    omega

/-- A bracket that counts: it lies in no literal. -/
def counts (literal : Nat → Bool) (bracket : Char) (m : Nat × Char) : Bool :=
  m.2 == bracket && !literal m.1

section

variable {literals : List Range} {literal : Nat → Bool} {typed opener : Char}

/-- How the walk over a chunk stands in the count of all brackets from the back. -/
def Walk.Stands (literals : List Range) (literal : Nat → Bool) (typed opener : Char)
    (marks : List (Nat × Char)) (pending bound : Nat) : Walk → Prop
  | .found offset => ∀ rest, (countBack (counts literal opener) (counts literal typed) pending
      (marks ++ rest)).map Prod.fst = some offset
  | .more cursor pending' => 0 < pending' ∧ StartBehind literals bound cursor ∧
      ∀ rest, countBack (counts literal opener) (counts literal typed) pending (marks ++ rest) =
        countBack (counts literal opener) (counts literal typed) pending' rest

/-- Marks that leave the same count behind stand alike. -/
theorem Walk.Stands.of_count {marks marks' : List (Nat × Char)} {pending pending' bound : Nat}
    {w : Walk} (hcount : ∀ rest,
      countBack (counts literal opener) (counts literal typed) pending (marks ++ rest) =
        countBack (counts literal opener) (counts literal typed) pending' (marks' ++ rest))
    (h : w.Stands literals literal typed opener marks' pending' bound) :
    w.Stands literals literal typed opener marks pending bound := by
  cases w with
  | found offset => exact fun rest => (congrArg _ (hcount rest)).trans (h rest)
  | more cursor left => exact ⟨h.1, h.2.1, fun rest => (hcount rest).trans (h.2.2 rest)⟩

/-- The walk over a chunk counts the brackets of the chunk from the back; its cursor never falls
behind a literal that a later mark may lie in. -/
theorem walkChunk_stands (hne : typed ≠ opener)
    (hapart : literals.Pairwise fun a b => a.stop < b.start) {marks : List (Nat × Char)}
    {bound cursor pending top : Nat}
    (hcovered : ∀ m ∈ marks, Covered literals m.1 ↔ literal m.1 = true)
    (hdown : marks.Pairwise fun a b => b.1 < a.1) (hbound : ∀ m ∈ marks, bound ≤ m.1)
    (htop : bound ≤ top) (hmarks : ∀ m ∈ marks, m.1 ≤ top)
    (hcursor : StartBehind literals top cursor) (hpending : 0 < pending) :
    (walkChunk literals typed opener marks cursor pending).Stands literals literal typed opener
      marks pending bound := by
  induction marks generalizing cursor pending top with
  | nil => exact ⟨hpending, hcursor.mono htop, fun rest => rfl⟩
  | cons m marks ih =>
    obtain ⟨offset, c⟩ := m
    obtain ⟨hm, hcovered⟩ := List.forall_mem_cons.mp hcovered
    obtain ⟨hbelow, hdown⟩ := List.pairwise_cons.mp hdown
    obtain ⟨hboundm, hbound⟩ := List.forall_mem_cons.mp hbound
    obtain ⟨htopm, hmarks⟩ := List.forall_mem_cons.mp hmarks
    have hhere : StartBehind literals offset cursor := hcursor.mono htopm
    have hnext := fun {cursor pending : Nat} (h : StartBehind literals offset cursor)
      (h' : 0 < pending) => @ih cursor pending offset hcovered hdown hbound hboundm
        (fun m hm => Nat.le_of_lt (hbelow m hm)) h h'
    -- a scalar that counts as neither leaves the count as it is
    have hskip (hclose : counts literal typed (offset, c) = false)
        (hopen : counts literal opener (offset, c) = false) (rest : List (Nat × Char)) :
        countBack (counts literal opener) (counts literal typed) pending
          ((offset, c) :: marks ++ rest) =
        countBack (counts literal opener) (counts literal typed) pending (marks ++ rest) := by
      rw [List.cons_append, countBack, hclose, hopen]
      rfl
    rw [walkChunk]
    by_cases hother : c ≠ typed ∧ c ≠ opener
    · rw [if_pos hother]
      exact (hnext hhere hpending).of_count
        (hskip (by simp [counts, hother.1]) (by simp [counts, hother.2]))
    rw [if_neg hother]
    dsimp only
    -- only at a bracket does the cursor move, and only there are the literals asked
    have hcut := (cursorDown_spec hhere).1
    have hin : coveredAt literals offset (cursorDown literals offset cursor) = literal offset :=
      Bool.eq_iff_iff.mpr ((coveredAt_iff hapart hhere).trans hm)
    rw [hin]
    by_cases hliteral : literal offset = true
    · rw [if_pos hliteral]
      exact (hnext hcut hpending).of_count
        (hskip (by simp [counts, hliteral]) (by simp [counts, hliteral]))
    rw [if_neg hliteral]
    rw [Bool.not_eq_true] at hliteral
    by_cases htyped : c = typed
    · have hclose : counts literal typed (offset, c) = true := by simp [counts, htyped, hliteral]
      rw [if_pos htyped]
      refine (hnext hcut (Nat.succ_pos pending)).of_count fun rest => ?_
      rw [List.cons_append, countBack, if_pos hclose]
    · obtain rfl : c = opener := by
        by_contra hopen
        exact hother ⟨htyped, hopen⟩
      have hclose : counts literal typed (offset, c) = false := by simp [counts, htyped]
      have hopen : counts literal c (offset, c) = true := by simp [counts, hliteral]
      rw [if_neg htyped]
      by_cases hlast : pending - 1 = 0
      · -- the opener of the bracket that was typed
        rw [if_pos hlast]
        intro rest
        rw [List.cons_append, countBack, hclose, if_neg Bool.false_ne_true, if_pos hopen,
          if_pos (by omega)]
        rfl
      · rw [if_neg hlast]
        refine (hnext hcut (Nat.pos_of_ne_zero hlast)).of_count fun rest => ?_
        rw [List.cons_append, countBack, hclose, if_neg Bool.false_ne_true, if_pos hopen,
          if_neg (by omega)]

/-! ## §4 The walk -/

/-- Chunk by chunk the walk counts all brackets of its window from the back. -/
theorem walkBack_eq (hsize : 4 ≤ size) (hne : typed ≠ opener)
    (hapart : literals.Pairwise fun a b => a.stop < b.start) {before part after : Text}
    (htext : snapshot.text = before ++ (part ++ after)) {cursor pending : Nat}
    (hcovered : ∀ m ∈ charIndices (utf8Len before) part, Covered literals m.1 ↔ literal m.1 = true)
    (hcursor : StartBehind literals (utf8Len before + utf8Len part) cursor)
    (hpending : 0 < pending) :
    walkBack snapshot size literals typed opener (utf8Len before)
      (utf8Len before + utf8Len part) cursor pending =
      .ok ((countBack (counts literal opener) (counts literal typed) pending
        (charIndices (utf8Len before) part).reverse).map Prod.fst) := by
  induction hn : part.length using Nat.strong_induction_on generalizing part after cursor pending with
  | _ n ih =>
    rw [walkBack]
    by_cases hpart : part = []
    · subst hpart
      have hstay : snapUp snapshot (max (utf8Len before + utf8Len [] - size) (utf8Len before))
          (utf8Len before + utf8Len []) = utf8Len before := by
        have hmax : max (utf8Len before - size) (utf8Len before) = utf8Len before := by omega
        rw [String.utf8Len_nil, Nat.add_zero, hmax, snapUp, Nat.sub_self]
        rfl
      rw [hstay, dif_neg (by simp)]
      rfl
    obtain ⟨left, right, rfl, hright, hfits, hstart⟩ := chunk_backward hsize hpart htext
    have hpos : 0 < utf8Len right :=
      Nat.pos_of_ne_zero fun h => hright (String.utf8Len_eq_zero.mp h)
    have hstop : utf8Len before + utf8Len (left ++ right) =
        utf8Len (before ++ left) + utf8Len right := by
      rw [String.utf8Len_append, String.utf8Len_append, Nat.add_assoc]
    have hcut : snapshot.text = (before ++ left) ++ (right ++ after) := by
      rw [htext]
      simp
    rw [hstart, dif_pos (by rw [String.utf8Len_append]; omega), hstop,
      ← String.utf8Len_append before left,
      readText_eq hcut hfits]
    rw [charIndices_append, ← String.utf8Len_append] at hcovered ⊢
    obtain ⟨hleft, hrightcov⟩ := List.forall_mem_append.mp hcovered
    have hrange : ∀ m ∈ (charIndices (utf8Len (before ++ left)) right).reverse,
        utf8Len (before ++ left) ≤ m.1 ∧ m.1 < utf8Len (before ++ left) + utf8Len right :=
      fun m hm => mem_charIndices m (List.mem_reverse.mp hm)
    have hstands := @walkChunk_stands literals literal typed opener hne hapart
      (charIndices (utf8Len (before ++ left)) right).reverse (utf8Len (before ++ left)) cursor pending
      (utf8Len (before ++ left) + utf8Len right)
      (fun m hm => hrightcov m (List.mem_reverse.mp hm))
      (List.pairwise_reverse.mpr (charIndices_sorted _ _)) (fun m hm => (hrange m hm).1)
      (Nat.le_add_right _ _) (fun m hm => Nat.le_of_lt (hrange m hm).2) (hstop ▸ hcursor) hpending
    rw [List.reverse_append]
    show (match walkChunk literals typed opener
      (charIndices (utf8Len (before ++ left)) right).reverse cursor pending with
      | .found offset => (.ok (some offset) : Except Error (Option Nat))
      | .more cursor pending => walkBack snapshot size literals typed opener (utf8Len before)
        (utf8Len (before ++ left)) cursor pending) = _
    cases hw : walkChunk literals typed opener
        (charIndices (utf8Len (before ++ left)) right).reverse cursor pending with
    | found offset =>
      rw [hw] at hstands
      exact congrArg Except.ok (hstands _).symm
    | more cursor' pending' =>
      rw [hw] at hstands
      obtain ⟨hpos', hcursor', hcount⟩ := hstands
      have hlength : left.length < n := by
        rw [← hn, List.length_append]
        have := List.length_pos_iff.mpr hright
        omega
      have hnext := @ih left.length hlength left (right ++ after) (by rw [htext]; simp) cursor'
        pending' hleft (by rwa [← String.utf8Len_append]) hpos' rfl
      rw [← String.utf8Len_append] at hnext
      rw [hcount]
      exact hnext

end

/-! ## §5 Literals -/

/-- The spans of a result are in order and apart. -/
structure SyntaxResult.Sorted (self : SyntaxResult) : Prop where
  le : ∀ span ∈ self.spans, span.range.start ≤ span.range.stop
  apart : self.spans.Pairwise fun a b => a.range.stop ≤ b.range.start

/-- An offset lies in a string or comment of a current result. -/
def inLiteral (source : Source) (syntaxResult : Option SyntaxResult) (o : Nat) : Bool :=
  (syntaxResult.filter fun result => result.isCurrent source).any fun result =>
    result.spans.any fun span =>
      isLiteral span && (decide (span.range.start ≤ o) && decide (o < span.range.stop))

/-- The ranges of the window are apart and cover its offsets in literals. -/
theorem literalRanges_spec {source : Source} {syntaxResult : Option SyntaxResult} (window : Range)
    (hsorted : ∀ result ∈ syntaxResult, result.isCurrent source = true → result.Sorted) :
    (literalRanges source syntaxResult window).Pairwise (fun a b => a.stop < b.start) ∧
      ∀ o, window.start ≤ o → o < window.stop →
        (Covered (literalRanges source syntaxResult window) o ↔
          inLiteral source syntaxResult o = true) := by
  rw [literalRanges]
  simp only [inLiteral]
  cases hcurrent : syntaxResult.filter fun result => result.isCurrent source with
  | none =>
    refine ⟨.nil, fun o _ _ => ⟨fun h => ?_, fun h => nomatch h⟩⟩
    obtain ⟨r, hr, -⟩ := h
    exact nomatch hr
  | some result =>
    obtain ⟨hresult, hyes⟩ := Option.filter_eq_some_iff.mp hcurrent
    obtain ⟨hle, hapart⟩ := hsorted result hresult hyes
    dsimp only
    generalize hspans : (result.spans.dropWhile fun span =>
      decide (span.range.stop ≤ window.start)).takeWhile
        (fun span => decide (span.range.start < window.stop)) = spans
    have hsub : spans.Sublist result.spans :=
      hspans ▸ (List.takeWhile_prefix _).sublist.trans (List.dropWhile_suffix _).sublist
    have hstarts : ((spans.filter isLiteral).map Syntax.StyleSpan.range).Pairwise
        fun a b => a.start ≤ b.start := by
      refine List.pairwise_map.mpr (((hapart.sublist hsub).filter _).imp_of_mem ?_)
      intro a b ha _ hab
      exact Nat.le_trans (hle a (hsub.subset (List.mem_of_mem_filter ha))) hab
    rw [hstarts.insertionSort_eq]
    obtain ⟨hmerged, hcovered⟩ := mergeRanges_spec hstarts
    refine ⟨hmerged, fun o hlo hhi => ?_⟩
    rw [hcovered, Option.any_some, List.any_eq_true, Covered]
    simp only [Bool.and_eq_true, decide_eq_true_iff]
    constructor
    · rintro ⟨r, hr, hstart, hstop⟩
      obtain ⟨span, hspan, rfl⟩ := List.mem_map.mp hr
      obtain ⟨hspan, hliteral⟩ := List.mem_filter.mp hspan
      exact ⟨span, hsub.subset hspan, hliteral, hstart, hstop⟩
    · rintro ⟨span, hspan, hliteral, hstart, hstop⟩
      refine ⟨span.range, List.mem_map_of_mem (List.mem_filter.mpr ⟨?_, hliteral⟩), hstart, hstop⟩
      rw [← hspans]
      refine mem_takeWhile_of_sorted ?_ (mem_dropWhile_of_neg hspan ?_) ?_
      · refine (hapart.sublist (List.dropWhile_suffix _).sublist).imp_of_mem ?_
        intro a b ha _ hab hb
        rw [decide_eq_true_iff] at hb ⊢
        have := hle a ((List.dropWhile_suffix _).sublist.subset ha)
        omega
      · rw [decide_eq_true_iff]
        omega
      · rw [decide_eq_true_iff]
        omega

/-! ## §6 Lines -/

variable {ls : List Text}

theorem lineRange_eq (hls : LinesOf snapshot.text ls) {n : Nat} (hn : n < ls.length) :
    ∃ stop, snapshot.lineRange n = .ok ⟨utf8Len (ls.take n).flatten, stop⟩ := by
  have hstarts : StartsAt snapshot.bytes n (utf8Len (ls.take n).flatten) :=
    hls.startsAt.mpr ⟨hn, rfl⟩
  cases hstart : snapshot.lineStart n with
  | none => exact absurd hstarts (DocumentSnapshot.lineStart_none hstart _)
  | some p =>
    obtain rfl := (DocumentSnapshot.lineStart_spec hstart).unique hstarts
    exact ⟨_, by rw [DocumentSnapshot.lineRange, hstart]⟩

/-- A text around one of its lines. -/
theorem text_around (hls : LinesOf snapshot.text ls) {n : Nat} {l : Text} (hl : ls[n]? = some l) :
    snapshot.text = (ls.take n).flatten ++ (l ++ (ls.drop (n + 1)).flatten) ∧
      (ls.take (n + 1)).flatten = (ls.take n).flatten ++ l := by
  have htake : (ls.take (n + 1)).flatten = (ls.take n).flatten ++ l := by
    rw [List.take_add_one, hl, Option.toList_some, List.flatten_concat]
  refine ⟨?_, htake⟩
  rw [← List.append_assoc, ← htake, ← List.flatten_append, List.take_append_drop, hls.flatten]

/-- The line of an offset in a line, or at the end of the last one. -/
theorem lineAt_eq (hls : LinesOf snapshot.text ls) {left right : Text} {n : Nat}
    (hl : ls[n]? = some (left ++ right)) (hright : right ≠ [] ∨ n + 1 = ls.length) :
    snapshot.lineAt (utf8Len (ls.take n).flatten + utf8Len left) = .ok n := by
  obtain ⟨htext, htake⟩ := text_around hls hl
  have hboundary : snapshot.isBoundary (utf8Len (ls.take n).flatten + utf8Len left) = true :=
    isScalarBoundary_iff.mpr ⟨(ls.take n).flatten ++ left, right ++ (ls.drop (n + 1)).flatten,
      by rw [htext]; simp, by simp⟩
  have hlen : utf8Len (ls.take n).flatten + utf8Len left ≤ snapshot.len :=
    le_of_isScalarBoundary hboundary
  rw [DocumentSnapshot.lineAt, if_neg (Nat.not_lt.mpr hlen), if_pos hboundary]
  have hstarts : StartsAt snapshot.bytes n (utf8Len (ls.take n).flatten) :=
    hls.startsAt.mpr ⟨(List.getElem?_eq_some_iff.mp hl).1, rfl⟩
  refine congrArg Except.ok (Nat.le_antisymm ?_ (hstarts.le_iff.mp (Nat.le_add_right _ _)))
  by_contra hmore
  obtain ⟨p, hp, hnext⟩ := exists_startsAt _ (Nat.lt_of_not_le hmore)
  obtain ⟨hlt, rfl⟩ := hls.startsAt.mp hnext
  rw [htake, String.utf8Len_append, String.utf8Len_append] at hp
  rcases hright with hright | hlast
  · have : utf8Len right ≠ 0 := fun h => hright (String.utf8Len_eq_zero.mp h)
    omega
  · omega

/-- A scalar of some lines is one of a line. -/
theorem mem_line {ls : List Text} {a b : Text} {c : Char} (h : ls.flatten = a ++ c :: b) :
    ∃ k left right, ls[k]? = some (left ++ c :: right) ∧ a = (ls.take k).flatten ++ left := by
  induction ls generalizing a with
  | nil => exact absurd h.symm (List.append_ne_nil_of_right_ne_nil _ (List.cons_ne_nil _ _))
  | cons l ls ih =>
    rw [List.flatten_cons] at h
    rcases List.append_eq_append_iff.mp h with ⟨a', rfl, hrest⟩ | ⟨c', rfl, hrest⟩
    · obtain ⟨k, left, right, hl, rfl⟩ := ih hrest
      exact ⟨k + 1, left, right, hl, by rw [List.take_succ_cons, List.flatten_cons, List.append_assoc]⟩
    · cases c' with
      | nil =>
        obtain ⟨k, left, right, hl, hnil⟩ := @ih [] hrest.symm
        refine ⟨k + 1, left, right, hl, ?_⟩
        rw [List.take_succ_cons, List.flatten_cons, List.append_assoc, ← hnil, List.append_nil,
          List.append_nil]
      | cons d right =>
        obtain ⟨rfl, rfl⟩ := List.cons.inj hrest
        exact ⟨0, a, right, rfl, rfl⟩

theorem exists_of_mem_charIndices {offset : Nat} {text : Text} {m : Nat × Char}
    (h : m ∈ charIndices offset text) : ∃ a b, text = a ++ m.2 :: b ∧ m.1 = offset + utf8Len a := by
  induction text generalizing offset with
  | nil => exact nomatch h
  | cons c text ih =>
    rcases List.mem_cons.mp h with rfl | h
    · exact ⟨[], text, rfl, rfl⟩
    · obtain ⟨a, b, rfl, hm⟩ := ih h
      refine ⟨c :: a, b, rfl, ?_⟩
      rw [hm, String.utf8Len_cons]
      omega

/-! ## §7 The command -/

/-- The scalars of the lines in front of one that start at or behind an offset. -/
def scalarsFrom (ls : List Text) (n floor : Nat) : List (Nat × Char) :=
  (charIndices 0 (ls.take n).flatten).filter fun m => floor ≤ m.1

/-- The window starts at the first boundary from its floor on. -/
theorem window_start {front after : Text} (htext : snapshot.text = front ++ after) (floor : Nat) :
    ∃ before part, front = before ++ part ∧
      snapUp snapshot (min floor (utf8Len front)) (utf8Len front) = utf8Len before ∧
      (charIndices 0 front).filter (fun m => decide (floor ≤ m.1)) =
        charIndices (utf8Len before) part := by
  have hend : snapshot.isBoundary (utf8Len front) = true :=
    isScalarBoundary_iff.mpr ⟨front, after, htext, rfl⟩
  have hspec := fun {boundary : Nat} (h : snapshot.isBoundary boundary = true)
    (hle : min floor (utf8Len front) ≤ boundary) (hge : boundary ≤ utf8Len front) =>
    @Search.boundaryFrom_spec snapshot.toDocumentSnapshot boundary h
      (utf8Len front - min floor (utf8Len front)) (min floor (utf8Len front)) hle (by omega)
  obtain ⟨hlo, hhi, hfound⟩ := hspec hend (Nat.min_le_right _ _) (Nat.le_refl _)
  obtain ⟨before, part, rfl, hstart⟩ := Search.cut_at
    (show snapshot.text = [] ++ (front ++ after) from htext) hfound (Nat.zero_le _)
    (by rw [String.utf8Len_nil, Nat.zero_add]; exact hhi)
  rw [String.utf8Len_nil, Nat.zero_add] at hstart
  refine ⟨before, part, rfl, hstart, ?_⟩
  rw [charIndices_append, List.filter_append, Nat.zero_add]
  have hfront : (charIndices 0 before).filter (fun m => decide (floor ≤ m.1)) = [] := by
    refine List.filter_eq_nil_iff.mpr fun m hm => ?_
    obtain ⟨a, b, hcut, hm'⟩ := exists_of_mem_charIndices hm
    have hlt := (mem_charIndices m hm).2
    rw [decide_eq_true_iff]
    intro hle
    have hboundary : snapshot.isBoundary m.1 = true :=
      isScalarBoundary_iff.mpr ⟨a, m.2 :: b ++ (part ++ after), by rw [htext, hcut]; simp, by omega⟩
    have := (hspec hboundary (by omega) (by rw [String.utf8Len_append]; omega)).2.1
    omega
  have hback : (charIndices (utf8Len before) part).filter (fun m => decide (floor ≤ m.1)) =
      charIndices (utf8Len before) part := by
    refine List.filter_eq_self.mpr fun m hm => ?_
    obtain ⟨hge, hlt⟩ := mem_charIndices m hm
    rw [String.utf8Len_append] at hlo hstart
    rw [decide_eq_true_iff]
    omega
  rw [hfront, hback, List.nil_append]

/-- The closing brackets and their openers. -/
theorem openerOf_spec {typed opener : Char} (h : openerOf typed = some opener) :
    typed ≠ opener ∧ isIndent opener = false := by
  rw [openerOf] at h
  split_ifs at h with hbrace hround hsquare
  · rw [hbrace, ← Option.some.inj h]
    decide
  · rw [hround, ← Option.some.inj h]
    decide
  · rw [hsquare, ← Option.some.inj h]
    decide

/-- The blanks in front of an opener are those of its line. -/
theorem openerIndent_eq (hsize : 4 ≤ size) (hls : LinesOf snapshot.text ls) {k : Nat}
    {left right : Text} {c : Char} (hl : ls[k]? = some (left ++ c :: right))
    (hc : isIndent c = false) :
    leadingIndent snapshot size (utf8Len (ls.take k).flatten)
      (utf8Len (ls.take k).flatten + utf8Len left) limits =
      if limits.maxBytes < utf8Len (indentOf (left ++ c :: right)) then .error .budgetExceeded
      else .ok (indentOf (left ++ c :: right)) := by
  have hsame : indentOf (left ++ c :: right) = indentOf left := by
    rw [indentOf, List.takeWhile_append]
    split_ifs with hall
    · rw [List.takeWhile_cons_of_neg (by rw [hc]; exact Bool.false_ne_true), List.append_nil]
      exact ((List.takeWhile_prefix _).eq_of_length hall).symm
    · rfl
  have hcut : snapshot.text = (ls.take k).flatten ++
      (left ++ (c :: right ++ (ls.drop (k + 1)).flatten)) := by
    rw [(text_around hls hl).1]
    simp
  rw [leadingIndent, leadingIndentFrom_eq hsize hcut (Nat.zero_le _), String.utf8Len_nil,
    Nat.zero_add, List.nil_append, hsame]

/-- What the command gives, without chunks and cursors. -/
def dedentResult (source : Source) (ls : List Text) (n caret : Nat) (blanks : Text)
    (typed opener : Char) (syntaxResult : Option SyntaxResult) (limits : Limits) :
    Except Error (Option PowerEdit) :=
  if CONTEXT_SCAN_BYTES < utf8Len blanks then .ok none
  else if limits.maxBytes < utf8Len blanks then .error .budgetExceeded
  else
    match countBack (counts (inLiteral source syntaxResult) opener)
      (counts (inLiteral source syntaxResult) typed) 1
      (scalarsFrom ls n (caret - CONTEXT_SCAN_BYTES)).reverse with
    | none => .ok none
    | some m => do
      let line ← source.snapshot.lineAt m.1
      let indent := indentOf (ls.getD line [])
      if limits.maxBytes < utf8Len indent then .error .budgetExceeded
      else do
        let prepared ← finish source.snapshot
          [⟨⟨utf8Len (ls.take n).flatten, caret⟩, indent ++ [typed]⟩] limits
        pure (some prepared)

theorem countBack_mem {α : Type} {opens closes : α → Bool} {pending : Nat} {marks : List α} {m : α}
    (h : countBack opens closes pending marks = some m) : m ∈ marks ∧ opens m = true := by
  induction marks generalizing pending with
  | nil => exact nomatch h
  | cons x marks ih =>
    rw [countBack] at h
    split_ifs at h with hcloses hopens hlast
    · exact ⟨List.mem_cons_of_mem _ (ih h).1, (ih h).2⟩
    · obtain rfl := Option.some.inj h
      exact ⟨List.mem_cons_self .., hopens⟩
    · exact ⟨List.mem_cons_of_mem _ (ih h).1, (ih h).2⟩
    · exact ⟨List.mem_cons_of_mem _ (ih h).1, (ih h).2⟩

section

variable {source : Source} {syntaxResult : Option SyntaxResult} {typed opener : Char}
  {caret n : Nat} {blanks rest : Text}

/-- What a bracket typed behind the blanks of a line does, whatever the chunks are. -/
theorem dedentAt_eq (hsize : 4 ≤ size) (hopener : openerOf typed = some opener)
    (hsorted : ∀ result ∈ syntaxResult, result.isCurrent source = true → result.Sorted)
    (hls : LinesOf source.snapshot.text ls) (hline : ls[n]? = some (blanks ++ rest))
    (hblanks : ∀ c ∈ blanks, isIndent c = true)
    (hcaret : caret = utf8Len (ls.take n).flatten + utf8Len blanks) :
    dedentAt source size caret typed opener syntaxResult limits =
      dedentResult source ls n caret blanks typed opener syntaxResult limits := by
  obtain ⟨hne, hindent⟩ := openerOf_spec hopener
  obtain ⟨htext, -⟩ := text_around hls hline
  -- blanks end no line, so behind them there is a rest unless the line is the last one
  have hlast : rest ≠ [] ∨ n + 1 = ls.length := by
    by_contra hnot
    obtain ⟨hrest, hmore⟩ := not_or.mp hnot
    obtain ⟨c, hc, hbreak⟩ := hls.exists_break hline hmore
    rw [not_not.mp hrest, List.append_nil] at hc
    rcases hbreak with rfl | rfl <;> exact absurd (hblanks _ hc) (by decide)
  have hblank : indentOf blanks = blanks := List.takeWhile_eq_self_iff.mpr hblanks
  have hcut : source.snapshot.text = (ls.take n).flatten ++
      (blanks ++ (rest ++ (ls.drop (n + 1)).flatten)) := by
    rw [htext]
    simp
  obtain ⟨stop, hrange⟩ := lineRange_eq hls (List.getElem?_eq_some_iff.mp hline).1
  have hlead := @leadingIndentFrom_eq source.snapshot limits size _ _ _ [] hsize hcut
    (Nat.zero_le _)
  rw [String.utf8Len_nil, Nat.zero_add, List.nil_append, hblank] at hlead
  have hok : ∀ {α β : Type} (a : α) (f : α → Except Error β), (Except.ok a >>= f) = f a :=
    fun _ _ => rfl
  rw [dedentAt, dedentResult, hcaret, lineAt_eq hls hline hlast, hok, hrange, hok]
  dsimp only
  rw [Nat.add_sub_cancel_left]
  by_cases hfar : CONTEXT_SCAN_BYTES < utf8Len blanks
  · rw [if_pos hfar, if_pos hfar]
  rw [if_neg hfar, if_neg hfar, leadingIndent, hlead]
  by_cases hbudget : limits.maxBytes < utf8Len blanks
  · rw [if_pos hbudget, if_pos hbudget]
    rfl
  rw [if_neg hbudget, if_neg hbudget, hok, if_neg (not_not.mpr rfl)]
  -- the walk over the window
  obtain ⟨before, part, hfront, hstart, hmarks⟩ := window_start htext
    (utf8Len (ls.take n).flatten + utf8Len blanks - CONTEXT_SCAN_BYTES)
  obtain ⟨hapart, hcovered⟩ := @literalRanges_spec source syntaxResult
    ⟨utf8Len (ls.take n).flatten + utf8Len blanks - CONTEXT_SCAN_BYTES,
      utf8Len (ls.take n).flatten⟩ hsorted
  have hpart : utf8Len before + utf8Len part = utf8Len (ls.take n).flatten := by
    rw [hfront, String.utf8Len_append]
  have hwalk := @walkBack_eq source.snapshot size _ (inLiteral source syntaxResult) typed opener
    hsize hne hapart before part (blanks ++ rest ++ (ls.drop (n + 1)).flatten)
    (by rw [htext, hfront]; simp) _ 1 (fun m hm => by
      have hm' := hm
      rw [← hmarks, List.mem_filter, decide_eq_true_iff] at hm'
      exact hcovered m.1 hm'.2 (hpart ▸ (mem_charIndices m hm).2))
    (startBehind_length _ _) Nat.one_pos
  rw [hpart] at hwalk
  rw [hstart, hwalk, hok, scalarsFrom, hmarks]
  cases hfound : countBack (counts (inLiteral source syntaxResult) opener)
      (counts (inLiteral source syntaxResult) typed) 1 (charIndices (utf8Len before) part).reverse with
  | none => rfl
  | some m =>
    -- the opener lies in a line k above, whose indentation is written again
    obtain ⟨hmem, hcounts⟩ := countBack_mem hfound
    obtain ⟨rfl, -⟩ : m.2 = opener ∧ _ := by
      rw [counts, Bool.and_eq_true, beq_iff_eq] at hcounts
      exact hcounts
    rw [List.mem_reverse, ← hmarks] at hmem
    obtain ⟨a, b, hsplit, hat⟩ := exists_of_mem_charIndices (List.mem_of_mem_filter hmem)
    obtain ⟨k, left, right, hl, rfl⟩ := mem_line hsplit
    rw [Nat.zero_add, String.utf8Len_append] at hat
    rw [List.getElem?_take] at hl
    split_ifs at hl with hk
    rw [List.take_take, Nat.min_eq_left (Nat.le_of_lt hk)] at hat
    obtain ⟨stop', hrange'⟩ := lineRange_eq hls (List.getElem?_eq_some_iff.mp hl).1
    have hline' := lineAt_eq hls hl (.inl (List.cons_ne_nil _ _))
    have hindent' := @openerIndent_eq source.snapshot limits size ls hsize hls k left right m.2 hl
      hindent
    rw [← hat] at hline' hindent'
    show (source.snapshot.lineAt m.1 >>= _) = (source.snapshot.lineAt m.1 >>= _)
    rw [hline', hok, hok, hrange', hok, List.getD_eq_getElem?_getD, hl, Option.getD_some]
    dsimp only
    rw [hindent']
    split_ifs
    · rfl
    · rfl

/-- One caret dedents where it stands. -/
theorem autoDedent_eq {set normalized : SelectionSet} (hopener : openerOf typed = some opener)
    (hset : normalize u source.snapshot set limits = .ok normalized)
    (hsingle : normalized.selections = [⟨caret, caret⟩]) :
    autoDedent u size source set typed syntaxResult limits =
      dedentAt source size caret typed opener syntaxResult limits := by
  rw [autoDedent, hopener, hset]
  simp only [bind, Except.bind, hsingle]
  exact if_neg (not_not.mpr rfl)

/-- A closing bracket typed behind the blanks of a line finds its opener: the last one in the
window, outside strings and comments, behind which the brackets are balanced.  Its line's blanks
and the bracket take the place of the blanks; without such an opener nothing changes.  The size
of the chunks makes no difference. -/
theorem typed_bracket_finds_opener {set normalized : SelectionSet} (hsize : 4 ≤ size)
    (hopener : openerOf typed = some opener)
    (hset : normalize u source.snapshot set limits = .ok normalized)
    (hsingle : normalized.selections = [⟨caret, caret⟩])
    (hsorted : ∀ result ∈ syntaxResult, result.isCurrent source = true → result.Sorted)
    (hls : LinesOf source.snapshot.text ls) (hline : ls[n]? = some (blanks ++ rest))
    (hblanks : ∀ c ∈ blanks, isIndent c = true)
    (hcaret : caret = utf8Len (ls.take n).flatten + utf8Len blanks) :
    (∀ size', 4 ≤ size' → autoDedent u size' source set typed syntaxResult limits =
      autoDedent u size source set typed syntaxResult limits) ∧
    (utf8Len blanks ≤ CONTEXT_SCAN_BYTES ∧ limits.maxBytes < utf8Len blanks ∧
        autoDedent u size source set typed syntaxResult limits = .error .budgetExceeded ∨
      (∃ m k l, LastOpener (counts (inLiteral source syntaxResult) opener)
          (counts (inLiteral source syntaxResult) typed)
          (scalarsFrom ls n (caret - CONTEXT_SCAN_BYTES)) m ∧
        ls[k]? = some l ∧ utf8Len (ls.take k).flatten ≤ m.1 ∧
        m.1 < utf8Len (ls.take (k + 1)).flatten ∧
        autoDedent u size source set typed syntaxResult limits =
          if limits.maxBytes < utf8Len (indentOf l) then .error .budgetExceeded
          else (finish source.snapshot [⟨⟨utf8Len (ls.take n).flatten, caret⟩,
            indentOf l ++ [typed]⟩] limits).map some) ∨
      NoOpener (counts (inLiteral source syntaxResult) opener)
        (counts (inLiteral source syntaxResult) typed)
        (scalarsFrom ls n (caret - CONTEXT_SCAN_BYTES)) ∧
        autoDedent u size source set typed syntaxResult limits = .ok none) := by
  have heq := fun {size : Nat} (hsize : 4 ≤ size) => (autoDedent_eq hopener hset hsingle).trans
    (dedentAt_eq hsize hopener hsorted hls hline hblanks hcaret)
  refine ⟨fun size' hsize' => (heq hsize').trans (heq hsize).symm, ?_⟩
  rw [heq hsize, dedentResult]
  obtain ⟨hne, -⟩ := openerOf_spec hopener
  have hapart : ∀ m, ¬(counts (inLiteral source syntaxResult) opener m = true ∧
      counts (inLiteral source syntaxResult) typed m = true) := by
    rintro m ⟨hopen, hclose⟩
    simp only [counts, Bool.and_eq_true, beq_iff_eq] at hopen hclose
    exact hne (hclose.1.symm.trans hopen.1)
  obtain ⟨hsome, hnone⟩ := countBack_spec hapart (scalarsFrom ls n (caret - CONTEXT_SCAN_BYTES))
  by_cases hfar : CONTEXT_SCAN_BYTES < utf8Len blanks
  · -- then the window is empty
    have hempty : scalarsFrom ls n (caret - CONTEXT_SCAN_BYTES) = [] := by
      refine List.filter_eq_nil_iff.mpr fun m hm => ?_
      have := (mem_charIndices m hm).2
      rw [decide_eq_true_iff]
      omega
    rw [if_pos hfar]
    refine .inr (.inr ⟨hnone ?_, rfl⟩)
    rw [hempty]
    rfl
  rw [if_neg hfar]
  by_cases hbudget : limits.maxBytes < utf8Len blanks
  · exact .inl ⟨Nat.le_of_not_lt hfar, hbudget, if_pos hbudget⟩
  rw [if_neg hbudget]
  refine .inr ?_
  cases hfound : countBack (counts (inLiteral source syntaxResult) opener)
      (counts (inLiteral source syntaxResult) typed) 1
      (scalarsFrom ls n (caret - CONTEXT_SCAN_BYTES)).reverse with
  | none => exact .inr ⟨hnone hfound, rfl⟩
  | some m =>
    obtain ⟨hmem, -⟩ := countBack_mem hfound
    obtain ⟨a, b, hsplit, hat⟩ :=
      exists_of_mem_charIndices (List.mem_of_mem_filter (List.mem_reverse.mp hmem))
    obtain ⟨k, left, right, hl, rfl⟩ := mem_line hsplit
    rw [Nat.zero_add, String.utf8Len_append] at hat
    rw [List.getElem?_take] at hl
    split_ifs at hl with hk
    rw [List.take_take, Nat.min_eq_left (Nat.le_of_lt hk)] at hat
    have hline' := lineAt_eq hls hl (.inl (List.cons_ne_nil _ _))
    rw [← hat] at hline'
    refine .inl ⟨m, k, _, hsome m hfound, hl, by omega, ?_, ?_⟩
    · have hpos := m.2.utf8Size_pos
      rw [(text_around hls hl).2, String.utf8Len_append, String.utf8Len_append,
        String.utf8Len_cons]
      omega
    · dsimp only
      rw [hline']
      show (if _ then _ else _) = _
      rw [List.getD_eq_getElem?_getD, hl, Option.getD_some]
      split_ifs
      · rfl
      · cases finish source.snapshot [⟨⟨utf8Len (ls.take n).flatten, caret⟩,
          indentOf (left ++ m.2 :: right) ++ [typed]⟩] limits <;> rfl

end

/-- A round bracket opened on the line above one that holds a space. -/
def openedRound : Source := ⟨opened ['(', '\n', ' '] (by decide), 0⟩

theorem typed_bracket_finds_opener_above : ∃ l, [['(', '\n'], [' ']][0]? = some l ∧
    autoDedent ascii SCAN_CHUNK openedRound ⟨[⟨3, 3⟩], 0⟩ ')' none roomy =
      (finish openedRound.snapshot [⟨⟨2, 3⟩, indentOf l ++ [')']⟩] roomy).map some := by
  have hls : LinesOf openedRound.snapshot.text [['(', '\n'], [' ']] :=
    @LinesOf.ended ['('] ['\n'] [' '] _ (by decide : NoBreak ['(']) (.inr (.inl rfl))
      (.last (by decide : NoBreak [' ']))
  obtain ⟨-, hresult⟩ := @typed_bracket_finds_opener ascii roomy SCAN_CHUNK [['(', '\n'], [' ']]
    openedRound none ')' '(' 3 1 [' '] [] ⟨[⟨3, 3⟩], 0⟩ ⟨[⟨3, 3⟩], 0⟩ (by decide) rfl
    (by decide +kernel) rfl nofun hls rfl (List.forall_mem_singleton.mpr rfl) rfl
  rcases hresult with ⟨-, hbudget, -⟩ | ⟨m, k, l, ⟨front, back, hsplit, hopens, -⟩, hl, hlo, hhi, heq⟩ |
    ⟨hnone, -⟩
  · exact absurd hbudget (by decide)
  · have hmem : m ∈ [(0, '('), (1, '\n')] := by
      have hmarks : scalarsFrom [['(', '\n'], [' ']] 1 (3 - CONTEXT_SCAN_BYTES) =
          [(0, '('), (1, '\n')] := by decide
      rw [← hmarks, hsplit]
      exact List.mem_append_right _ (List.mem_cons_self ..)
    obtain rfl : m = (0, '(') := by
      rcases List.mem_cons.mp hmem with rfl | hmem
      · rfl
      · rw [List.mem_singleton.mp hmem] at hopens
        exact nomatch hopens
    obtain rfl : k = 0 := by
      have hk := (List.getElem?_eq_some_iff.mp hl).1
      obtain rfl | rfl : k = 0 ∨ k = 1 := by
        rw [List.length_cons, List.length_singleton] at hk
        omega
      · rfl
      · exact absurd hlo (by decide)
    obtain rfl := Option.some.inj hl
    exact ⟨_, rfl, heq⟩
  · exact absurd (show Balanced _ _ [(1, '\n')] from rfl) (hnone [] (0, '(') [(1, '\n')] rfl rfl)

end BareLine.Power.Completion
