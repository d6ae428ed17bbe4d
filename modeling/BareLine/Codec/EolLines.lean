import BareLine.Codec.EolConversion
import BareLine.Document.Guarantees

/-!
# Line-ending conversion and lines

Whatever the number of edits allowed and however the text lies in pieces, a conversion writes
the same text: each terminator that overlaps the range rewritten.  That text has the lines of
the one before, except where a rewritten terminator meets an unselected CR or LF at an edge of
the range and makes one pair with it.
-/

namespace BareLine.Codec

open Lib Lib.Terminators

/-! ## §1 The terminators in the window -/

/-- The scanned window: it reaches over the range where a pair lies across an edge. -/
structure ScanWindow (t : Bytes) (requested : Range) (scanStart scanEnd : Nat) : Prop where
  order : requested.start ≤ requested.stop
  low : scanStart ≤ requested.start
  high : requested.stop ≤ scanEnd
  fits : scanEnd ≤ t.length
  cr : 0 < requested.start → t[requested.start - 1]? = some CR →
    scanStart + 1 = requested.start
  lf : t[requested.stop]? = some LF → scanEnd = requested.stop + 1

section Window

variable {t : Bytes} {requested : Range} {scanStart scanEnd : Nat} {target : Eol}

theorem getElem?_of {a b i : Nat} (h : i < b) (hi : a ≤ i) :
    ((⟨a, b⟩ : Range).of t)[i - a]? = t[i]? := by
  show ((t.take b).drop a)[i - a]? = t[i]?
  rw [List.getElem?_drop, Nat.add_sub_cancel' hi, List.getElem?_take_of_lt h]

theorem getElem?_of_none {a b i : Nat} (h : b ≤ i) : ((⟨a, b⟩ : Range).of t)[i - a]? = none := by
  show ((t.take b).drop a)[i - a]? = none
  rw [List.getElem?_eq_none]
  rw [List.length_drop, List.length_take]
  omega

/-- A terminator that overlaps the range stands in the window just if it stands in the text. -/
theorem ScanWindow.eolAt (h : ScanWindow t requested scanStart scanEnd) {p : Nat} {e : Eol}
    (hover : overlaps requested p e = true) :
    EolAt t p e ↔
      scanStart ≤ p ∧ EolAt ((⟨scanStart, scanEnd⟩ : Range).of t) (p - scanStart) e := by
  obtain ⟨hempty, hstop, hstart⟩ := overlaps_iff.mp hover
  have hlow := h.low
  have hhigh := h.high
  -- What lies in the window is read there.
  have hin : ∀ i, scanStart ≤ i → i < scanEnd →
      ((⟨scanStart, scanEnd⟩ : Range).of t)[i - scanStart]? = t[i]? := fun i hi hlt =>
    getElem?_of hlt hi
  have hsub : ∀ i, scanStart ≤ i → i - scanStart + 1 = i + 1 - scanStart := fun i hi => by omega
  have hnextlf : t[p + 1]? = some LF → p + 1 < scanEnd := by
    intro hlf
    rcases Nat.lt_or_ge (p + 1) requested.stop with hlt | hge
    · omega
    · have heq : p + 1 = requested.stop := by omega
      have := h.lf (heq ▸ hlf)
      omega
  cases e with
  | crlf =>
    simp only [Eol.len, Eol.bytes, List.length_cons, List.length_nil] at hstart
    have hfirst : t[p]? = some CR → scanStart ≤ p := by
      intro hcr
      by_contra hlt
      have heq : p = requested.start - 1 := by omega
      have := h.cr (by omega) (heq ▸ hcr)
      omega
    rw [EolAt, EolAt]
    constructor
    · rintro ⟨hcr, hlf⟩
      have hle := hfirst hcr
      have hlt := hnextlf hlf
      rw [hsub p hle, hin p hle (by omega), hin (p + 1) (by omega) hlt]
      exact ⟨hle, hcr, hlf⟩
    · rintro ⟨hle, hcr, hlf⟩
      rw [hsub p hle] at hlf
      rw [hin p hle (by omega)] at hcr
      rcases Nat.lt_or_ge (p + 1) scanEnd with hlt | hge
      · rw [hin (p + 1) (by omega) hlt] at hlf
        exact ⟨hcr, hlf⟩
      · rw [getElem?_of_none hge] at hlf
        cases hlf
  | cr =>
    simp only [Eol.len, Eol.bytes, List.length_cons, List.length_nil] at hstart
    have hle : scanStart ≤ p := by omega
    rw [EolAt, EolAt, hsub p hle, hin p hle (by omega)]
    refine ⟨fun hat => ⟨hle, hat.1, fun hlf' => ?_⟩, fun hat => ⟨hat.2.1, fun hlf' => ?_⟩⟩
    · have hlf := hat.2
      rcases Nat.lt_or_ge (p + 1) scanEnd with hlt | hge
      · rw [hin (p + 1) (by omega) hlt] at hlf'
        exact hlf hlf'
      · rw [getElem?_of_none hge] at hlf'
        cases hlf'
    · have hlf := hat.2.2
      rw [hin (p + 1) (by omega) (hnextlf hlf')] at hlf
      exact hlf hlf'
  | lf =>
    simp only [Eol.len, Eol.bytes, List.length_cons, List.length_nil] at hstart
    have hle : scanStart ≤ p := by omega
    rw [EolAt, EolAt, hin p hle (by omega)]
    refine ⟨fun hat => ⟨hle, hat.1, fun q hq => ?_⟩, fun hat => ⟨hat.2.1, fun q hq hcr => ?_⟩⟩
    · have hq' : q = p - 1 - scanStart := by omega
      rw [hq', hin (p - 1) (by omega) (by omega)]
      exact hat.2 (p - 1) (by omega)
    · rcases Nat.lt_or_ge q scanStart with hlt | hge
      · have heq : q = requested.start - 1 := by omega
        have := h.cr (by omega) (heq ▸ hcr)
        omega
      · refine hat.2.2 (q - scanStart) (by omega) ?_
        rw [hin q hge (by omega)]
        exact hcr

/-- The planner finds the terminators to change in the window. -/
theorem ScanWindow.eolChanges_eq (h : ScanWindow t requested scanStart scanEnd) :
    eolChanges (overlaps requested) target scanStart ((⟨scanStart, scanEnd⟩ : Range).of t) =
      eolChanges (overlaps requested) target 0 t := by
  refine Terminators.eolChanges_eq fun c => ?_
  rw [mem_eolChanges, mem_eolChanges]
  simp only [mem_marks, Nat.zero_le, true_and, Nat.sub_zero]
  constructor
  · rintro ⟨p, e, hat, hover, hne, rfl⟩
    exact ⟨p, e, (h.eolAt hover).mpr hat, hover, hne, rfl⟩
  · rintro ⟨p, e, hat, hover, hne, rfl⟩
    exact ⟨p, e, (h.eolAt hover).mp hat, hover, hne, rfl⟩

/-! ## §2 The span of a single edit -/

/-- The changes lie between the start of the first and the end of the last one. -/
theorem eolChanges_span {chosen : Nat → Eol → Bool} {first last c : Splice UInt8}
    (hfirst : (eolChanges chosen target 0 t).head? = some first)
    (hlast : (eolChanges chosen target 0 t).getLast? = some last)
    (hc : c ∈ eolChanges chosen target 0 t) : first.start ≤ c.start ∧ c.stop ≤ last.stop := by
  have hordered : Ordered 0 (eolChanges chosen target 0 t) _ := eolChanges_ordered
  replace hordered := hordered.pairwise
  have hmem : ∀ c ∈ eolChanges chosen target 0 t, c.start ≤ c.stop := fun c hc => by
    obtain ⟨p, e, -, -, -, rfl⟩ := mem_eolChanges.mp hc
    exact Nat.le_add_right _ _
  generalize eolChanges chosen target 0 t = cs at *
  constructor
  · cases cs with
    | nil => cases hc
    | cons head tail =>
      obtain rfl := Option.some.inj hfirst
      rcases List.mem_cons.mp hc with rfl | hc
      · exact Nat.le_refl _
      · exact Nat.le_trans (hmem head List.mem_cons_self) (List.rel_of_pairwise_cons hordered hc)
  · rcases List.eq_nil_or_concat cs with rfl | ⟨front, back, rfl⟩
    · cases hc
    · rw [List.concat_eq_append] at *
      rw [List.getLast?_concat] at hlast
      obtain rfl := Option.some.inj hlast
      rcases List.mem_append.mp hc with hc' | hc'
      · exact Nat.le_trans ((List.pairwise_append.mp hordered).2.2 c hc' back
          List.mem_cons_self) (hmem back (List.mem_append_right _ List.mem_cons_self))
      · obtain rfl := List.mem_singleton.mp hc'
        exact Nat.le_refl _

/-- Rewriting every terminator from the first change to the last one is rewriting those that
overlap the range. -/
theorem splice_span {first last : Splice UInt8}
    (hfirst : (eolChanges (overlaps requested) target 0 t).head? = some first)
    (hlast : (eolChanges (overlaps requested) target 0 t).getLast? = some last) :
    first.start ≤ last.stop ∧ last.stop ≤ t.length ∧
      spliceFrom 0 [⟨first.start, last.stop,
        converted target ((⟨first.start, last.stop⟩ : Range).of t)⟩] t =
        rewriteEols (overlaps requested) target 0 t := by
  have hspan := fun {c} => eolChanges_span (c := c) hfirst hlast
  obtain ⟨s, e₁, hm₁, hover₁, -, rfl⟩ := mem_eolChanges.mp (List.mem_of_mem_head? hfirst)
  obtain ⟨p, e₂, hm₂, hover₂, -, rfl⟩ := mem_eolChanges.mp (List.mem_of_mem_getLast? hlast)
  have hat₁ := (mem_marks.mp hm₁).2
  have hat₂ := (mem_marks.mp hm₂).2
  rw [Nat.sub_zero] at hat₁ hat₂
  have hle := (hspan (List.mem_of_mem_getLast? hlast)).1
  have hfit := hat₂.le
  have hlen₂ := e₂.len_pos
  simp only at hle hspan ⊢
  refine ⟨by omega, hfit, ?_⟩
  have hseam : Seam (t.take s) ((t.take (p + e₂.len)).drop s) := by
    rintro ⟨hl, hh⟩
    refine hat₁.seam_before ⟨hl, ?_⟩
    rw [List.head?_drop] at hh ⊢
    rwa [List.getElem?_take_of_lt (by omega)] at hh
  have hfront : t.take (p + e₂.len) = t.take s ++ (t.take (p + e₂.len)).drop s := by
    conv_lhs => rw [← List.take_append_drop s (t.take (p + e₂.len))]
    rw [List.take_take, Nat.min_eq_left (by omega)]
  have hmarks : marks 0 t = marks 0 (t.take s) ++ marks s ((t.take (p + e₂.len)).drop s) ++
      marks (p + e₂.len) (t.drop (p + e₂.len)) := by
    conv_lhs => rw [← List.take_append_drop (p + e₂.len) t]
    rw [marks_append hat₂.seam_behind, List.length_take, Nat.min_eq_left hfit, Nat.zero_add,
      hfront, marks_append hseam, List.length_take, Nat.min_eq_left (by omega), Nat.zero_add,
      ← hfront]
  -- A terminator outside the span is not to change.
  have hout : ∀ q e, .eol q e ∈ marks 0 t → e ≠ target → q < s ∨ p + e₂.len ≤ q →
      overlaps requested q e = false := by
    intro q e hm hne hq
    by_contra hover
    have hc := hspan (mem_eolChanges.mpr ⟨q, e, hm, Bool.not_eq_false _ ▸ hover, hne, rfl⟩)
    have := e.len_pos
    simp only at hc
    omega
  -- A terminator inside the span overlaps the range.
  have hin : ∀ q e, .eol q e ∈ marks 0 t → s ≤ q → q < p + e₂.len →
      overlaps requested q e = true := by
    intro q e hm hsq hqf
    have hat := (mem_marks.mp hm).2
    rw [Nat.sub_zero] at hat
    obtain ⟨hempty, -, hstart⟩ := overlaps_iff.mp hover₁
    obtain ⟨-, hstop, -⟩ := overlaps_iff.mp hover₂
    have hqp : q ≤ p := by
      by_contra hlt
      have := hat₂.not_inside hat (Nat.lt_of_not_le hlt)
      omega
    refine overlaps_iff.mpr ⟨hempty, by omega, ?_⟩
    rcases Nat.eq_or_lt_of_le hsq with rfl | hlt
    · rw [hat.unique hat₁]
      exact hstart
    · have := hat₁.not_inside hat hlt
      omega
  have hA : rewriteEols (overlaps requested) target 0 (t.take s) = t.take s := by
    rw [rewriteEols_congr fun _ _ => false, rewriteEols_none]
    intro q e hm hne
    have hle := mem_marks_le hm
    have := e.len_pos
    rw [List.length_take] at hle
    refine hout q e ?_ hne (Or.inl (by omega))
    rw [hmarks, List.append_assoc]
    exact List.mem_append_left _ hm
  have hB : rewriteEols (overlaps requested) target (p + e₂.len) (t.drop (p + e₂.len)) =
      t.drop (p + e₂.len) := by
    rw [rewriteEols_congr fun _ _ => false, rewriteEols_none]
    intro q e hm hne
    refine hout q e ?_ hne (Or.inr (mem_marks_le hm).1)
    rw [hmarks]
    exact List.mem_append_right _ hm
  have hS : rewriteEols (overlaps requested) target s ((t.take (p + e₂.len)).drop s) =
      converted target ((t.take (p + e₂.len)).drop s) := by
    rw [rewriteEols_congr fun _ _ => true, rewriteEols_all, converted]
    intro q e hm _
    have hle := mem_marks_le hm
    have := e.len_pos
    rw [List.length_drop, List.length_take] at hle
    refine hin q e ?_ hle.1 (by omega)
    rw [hmarks, List.append_assoc]
    exact List.mem_append_right _ (List.mem_append_left _ hm)
  have hsplit : rewriteEols (overlaps requested) target 0 t =
      t.take s ++ converted target ((t.take (p + e₂.len)).drop s) ++ t.drop (p + e₂.len) := by
    rw [← hA, ← hS, ← hB, rewriteEols, rewriteEols, rewriteEols, rewriteEols, hmarks]
    simp only [List.map_append, render, List.flatMap_append]
  rw [hsplit]
  rfl

end Window

/-! ## §3 The planned text -/

/-- A text has a boundary in front of a CR or an LF, and behind it. -/
theorem IsText.boundary_around {t : Bytes} (h : IsText t) {o : Nat} {b : UInt8}
    (hb : b = CR ∨ b = LF) (hat : t[o]? = some b) :
    atBoundary t o = true ∧ atBoundary t (o + 1) = true := by
  have hclean : isContinuation b = false := by
    rcases hb with rfl | rfl <;> rfl
  have hscalar : Scalar [b] := by
    rcases hb with rfl | rfl <;> rfl
  have hlt := (List.getElem?_eq_some_iff.mp hat).1
  have hdrop : t.drop o = b :: t.drop (o + 1) := by
    rw [List.drop_eq_getElem_cons hlt, (List.getElem?_eq_some_iff.mp hat).2]
  have htail : IsText (t.drop o) := by
    refine (IsText.of_clean (by rwa [List.take_append_drop]) ?_ (p := t.take o)).2
    rw [hdrop]
    intro c hc
    obtain rfl := Option.some.inj hc
    exact hclean
  rw [hdrop] at htail
  have hrest := IsText.of_scalar_append hscalar htail
  rw [atBoundary, atBoundary, hat]
  refine ⟨by simp [hclean], ?_⟩
  rw [Bool.or_eq_true]
  rcases Nat.eq_or_lt_of_le (Nat.succ_le_of_lt hlt) with heq | hlt'
  · exact Or.inl (beq_iff_eq.mpr heq)
  · refine Or.inr ?_
    rw [List.getElem?_eq_getElem hlt']
    have := hrest.clean t[o + 1] (by
      rw [List.head?_drop, List.getElem?_eq_getElem hlt']
      rfl)
    simp only [this, Bool.not_false]

theorem IsText.boundary_eol {t : Bytes} (h : IsText t) {p : Nat} {e : Eol} (hat : EolAt t p e) :
    atBoundary t p = true ∧ atBoundary t (p + e.len) = true := by
  cases e with
  | lf => exact h.boundary_around (Or.inr rfl) hat.1
  | cr => exact h.boundary_around (Or.inl rfl) hat.1
  | crlf =>
    exact ⟨(h.boundary_around (Or.inl rfl) hat.1).1, (h.boundary_around (Or.inr rfl) hat.2).2⟩

section Planning

variable {s : DocumentSnapshot} {range : Range}

/-- A range that passes the check. -/
theorem validateRange_ok (h : s.validateRange range = .ok ()) :
    range.start ≤ range.stop ∧ isBoundary s.root range.start = true ∧
      isBoundary s.root range.stop = true := by
  rw [DocumentSnapshot.validateRange] at h
  split_ifs at h with horder hboundary
  rw [not_or, Nat.not_lt, Nat.not_lt] at horder
  rw [Bool.and_eq_true] at hboundary
  exact ⟨horder.1, hboundary.1, hboundary.2⟩

theorem isBoundary_le (hroot : Tree.RootWf .resident s.root) {o : Nat}
    (h : isBoundary s.root o = true) : o ≤ s.text.length :=
  ((isBoundary_iff hroot).mp h).1

/-- The window that the planner scans. -/
theorem scanWindow (hroot : Tree.RootWf .resident s.root) (hutf8 : IsText s.text)
    (h : s.validateRange range = .ok ()) :
    let scanStart :=
      if 0 < range.start ∧ s.isBoundary (range.start - 1) then range.start - 1 else range.start
    let scanEnd :=
      if range.stop < s.len ∧ s.isBoundary (range.stop + 1) then range.stop + 1 else range.stop
    ScanWindow s.text range scanStart scanEnd ∧ isBoundary s.root scanStart = true ∧
      isBoundary s.root scanEnd = true := by
  intro scanStart scanEnd
  obtain ⟨horder, hstart, hstop⟩ := validateRange_ok h
  have hlen : s.len = s.text.length := hroot.bytes
  have hbegin : isBoundary s.root scanStart = true := by
    unfold scanStart
    split_ifs with hcond
    · exact hcond.2
    · exact hstart
  have hend : isBoundary s.root scanEnd = true := by
    unfold scanEnd
    split_ifs with hcond
    · exact hcond.2
    · exact hstop
  refine ⟨⟨horder, ?_, ?_, isBoundary_le hroot hend, fun hpos hcr => ?_, fun hlf => ?_⟩, hbegin,
    hend⟩
  · unfold scanStart
    split_ifs <;> omega
  · unfold scanEnd
    split_ifs <;> omega
  · have hlt := (List.getElem?_eq_some_iff.mp hcr).1
    have hboundary : s.isBoundary (range.start - 1) = true := by
      refine (isBoundary_iff hroot).mpr ⟨Nat.le_of_lt hlt, ?_⟩
      rw [atBoundary]
      change s.text[range.start - 1]? = some CR at hcr
      rw [show (Tree.text s.root)[range.start - 1]? = some CR from hcr]
      exact Bool.or_eq_true_iff.mpr (Or.inr rfl)
    unfold scanStart
    rw [if_pos ⟨hpos, hboundary⟩]
    omega
  · have hlt := (List.getElem?_eq_some_iff.mp hlf).1
    have hboundary : s.isBoundary (range.stop + 1) = true :=
      (isBoundary_iff hroot).mpr ⟨hlt, (hutf8.boundary_around (Or.inr rfl) hlf).2⟩
    unfold scanEnd
    rw [if_pos ⟨hlen ▸ hlt, hboundary⟩]

/-- Every plan is a sorted batch of edits that rewrites the terminators which overlap the range,
however many edits it may have. -/
theorem planEolConversion_spec (hroot : Tree.RootWf .resident s.root) (hutf8 : IsText s.text)
    (hcomplete : s.complete = true) (h : s.validateRange range = .ok ()) (target : Eol)
    (maxEdits : Nat) :
    ∃ tr, planEolConversion s range target maxEdits = .ok tr ∧ tr.baseRevision = s.revision ∧
      Ordered 0 (tr.edits.map Edit.toSplice) s.text.length ∧
      splice (tr.edits.map Edit.toSplice) s.text =
        rewriteEols (overlaps range) target 0 s.text := by
  obtain ⟨horder, hstart, hstop⟩ := validateRange_ok h
  obtain ⟨hwindow, hbegin, hend⟩ := scanWindow hroot hutf8 h
  obtain ⟨whole, hwhole, -⟩ := baselineChunks_spec hroot horder hstart hstop
  rw [planEolConversion]
  generalize (if 0 < range.start ∧ s.isBoundary (range.start - 1) then range.start - 1
    else range.start) = scanStart at *
  generalize (if range.stop < s.len ∧ s.isBoundary (range.stop + 1) then range.stop + 1
    else range.stop) = scanEnd at *
  obtain ⟨chunks, hchunks, hflat⟩ : ∃ chunks,
      baselineChunks s.root ⟨scanStart, scanEnd⟩ = .ok chunks ∧ chunks.flatten = _ :=
    baselineChunks_spec hroot (Nat.le_trans hwindow.low (Nat.le_trans horder hwindow.high)) hbegin hend
  have hplanned : Planned maxEdits (eolChanges (overlaps range) target 0 s.text)
      ((chunks.foldl (fun scan (chunk : Bytes) =>
        chunk.foldl (EolScan.step range target maxEdits) scan)
        ⟨none, scanStart, ⟨[], none, false⟩⟩).finish range target maxEdits) := by
    rw [foldl_chunks, EolScan.foldl_eq, hflat, ← hwindow.eolChanges_eq]
    exact Planned.start.foldl
  simp only [hcomplete, hwhole, hchunks, bind, Except.bind, pure, Except.pure]
  generalize (chunks.foldl (fun scan (chunk : Bytes) =>
    chunk.foldl (EolScan.step range target maxEdits) scan)
    ⟨none, scanStart, ⟨[], none, false⟩⟩).finish range target maxEdits = plan at *
  obtain ⟨edits, changed, coalesce⟩ := plan
  obtain ⟨hedits, hcoalesce, hchanged⟩ := hplanned
  -- The scan saw every change of the text, whatever the chunks were.
  simp only at hedits hcoalesce hchanged ⊢
  rw [if_neg (by decide)]
  by_cases hfew : maxEdits < (eolChanges (overlaps range) target 0 s.text).length
  · -- One edit from the first change to the last takes the place of all of them.
    rw [if_pos hfew, List.map_eq_nil_iff] at hedits
    rw [decide_eq_true hfew] at hcoalesce
    obtain ⟨first, hfirst⟩ : ∃ first, (eolChanges (overlaps range) target 0 s.text).head? =
        some first := Option.ne_none_iff_exists'.mp fun hnone => by
      rw [List.head?_eq_none_iff] at hnone
      rw [hnone] at hfew
      exact absurd hfew (Nat.not_lt_zero _)
    obtain ⟨last, hlast⟩ : ∃ last, (eolChanges (overlaps range) target 0 s.text).getLast? =
        some last := Option.ne_none_iff_exists'.mp fun hnone => by
      rw [List.getLast?_eq_none_iff] at hnone
      rw [hnone] at hfew
      exact absurd hfew (Nat.not_lt_zero _)
    obtain ⟨hle, hfit, hspan⟩ := splice_span hfirst hlast
    rw [hfirst, hlast, Option.map_some, Option.getD_some] at hchanged
    rw [hcoalesce, hchanged, Option.filter_some, if_pos rfl]
    obtain ⟨p, e₁, hm₁, -, -, hp⟩ := mem_eolChanges.mp (List.mem_of_mem_head? hfirst)
    obtain ⟨q, e₂, hm₂, -, -, hq⟩ := mem_eolChanges.mp (List.mem_of_mem_getLast? hlast)
    have hspanStart : isBoundary s.root first.start = true := by
      refine (isBoundary_iff hroot).mpr ⟨Nat.le_trans hle hfit, ?_⟩
      rw [hp]
      exact (hutf8.boundary_eol (mem_marks.mp hm₁).2).1
    have hspanStop : isBoundary s.root last.stop = true := by
      refine (isBoundary_iff hroot).mpr ⟨hfit, ?_⟩
      rw [hq]
      exact (hutf8.boundary_eol (mem_marks.mp hm₂).2).2
    obtain ⟨pieces, hpieces, hpiecesFlat⟩ : ∃ pieces,
        baselineChunks s.root ⟨first.start, last.stop⟩ = .ok pieces ∧ pieces.flatten = _ :=
      baselineChunks_spec hroot hle hspanStart hspanStop
    simp only [hpieces]
    have hinsert := convertChunks_spec target [] pieces false []
    refine ⟨_, rfl, rfl, ?_, ?_⟩
    · rw [hedits]
      exact ⟨Nat.zero_le _, hle, hfit⟩
    · have htext : (⟨first.start, last.stop⟩ : Range).of (Tree.text s.root) =
          (⟨first.start, last.stop⟩ : Range).of s.text := rfl
      simp only [List.append_nil, hpiecesFlat, htext] at hinsert
      rw [convertEol_end, hedits]
      exact hinsert ▸ hspan
  · rw [if_neg hfew] at hedits
    rw [decide_eq_false hfew] at hcoalesce
    have hnone : (changed.filter fun _ => coalesce) = none := by
      rw [hcoalesce]
      cases changed <;> rfl
    rw [hnone]
    refine ⟨_, rfl, rfl, ?_, ?_⟩
    · rw [hedits]
      exact Nat.zero_add s.text.length ▸ eolChanges_ordered
    · rw [hedits]
      exact splice_eolChanges

end Planning

/-! ## §4 Lines -/

/-- At the edges of the range no rewritten terminator meets a CR or an LF that it would make a
pair with: for LF a lone CR in front of the first terminator, for CR a lone LF behind the last
one. -/
def StaysApart (t : Bytes) (requested : Range) (target : Eol) : Prop :=
  requested.start < requested.stop →
    (target = .lf →
      ¬ (1 ≤ requested.start ∧ t[requested.start - 1]? = some CR ∧
        t[requested.start]? = some CR) ∧
      ¬ (2 ≤ requested.start ∧ t[requested.start - 2]? = some CR ∧
        t[requested.start - 1]? = some CR ∧ t[requested.start]? = some LF)) ∧
    (target = .cr →
      ¬ (t[requested.stop - 1]? = some LF ∧ t[requested.stop]? = some LF) ∧
      ¬ (t[requested.stop - 1]? = some CR ∧ t[requested.stop]? = some LF ∧
        t[requested.stop + 1]? = some LF))

instance (t : Bytes) (requested : Range) (target : Eol) :
    Decidable (StaysApart t requested target) := by
  unfold StaysApart
  infer_instance

section Edges

variable {t : Bytes} {requested : Range} {target : Eol}

theorem apart_iff_eolAt :
    Apart (overlaps requested) target 0 t ↔
      ∀ p e e', EolAt t p e → EolAt t (p + e.len) e' →
        renewed (overlaps requested) target p e = .cr →
          renewed (overlaps requested) target (p + e.len) e' ≠ .lf := by
  rw [Apart]
  simp only [mem_marks, Nat.zero_le, true_and, Nat.sub_zero]

/-- A rewritten terminator in front of one that stays. -/
theorem meets_behind {p : Nat} {e : Eol} (hat : EolAt t p e) (hlf : EolAt t (p + e.len) .lf)
    (hover : overlaps requested p e = true)
    (hbehind : overlaps requested (p + e.len) .lf = false) :
    (t[requested.stop - 1]? = some LF ∧ t[requested.stop]? = some LF) ∨
      (t[requested.stop - 1]? = some CR ∧ t[requested.stop]? = some LF ∧
        t[requested.stop + 1]? = some LF) := by
  obtain ⟨hempty, hstop, hstart⟩ := overlaps_iff.mp hover
  have hge : requested.stop ≤ p + e.len := by
    by_contra hlt
    rw [overlaps_iff.mpr ⟨hempty, by omega, by omega⟩] at hbehind
    cases hbehind
  cases e with
  | cr => exact absurd hlf.1 hat.2
  | lf =>
    have heq : requested.stop = p + 1 := Nat.le_antisymm hge hstop
    rw [heq, Nat.add_sub_cancel]
    exact Or.inl ⟨hat.1, hlf.1⟩
  | crlf =>
    have hlen : Eol.crlf.len = 2 := rfl
    rw [hlen] at hlf hge
    rcases Nat.eq_or_lt_of_le hge with heq | hlt
    · rw [heq]
      exact Or.inl ⟨hat.2, hlf.1⟩
    · have heq : requested.stop = p + 1 := by omega
      rw [heq, Nat.add_sub_cancel]
      exact Or.inr ⟨hat.1, hat.2, hlf.1⟩

/-- A rewritten terminator behind one that stays. -/
theorem meets_before {p : Nat} {e : Eol} (hcr : EolAt t p .cr) (hat : EolAt t (p + 1) e)
    (hover : overlaps requested (p + 1) e = true) (hbefore : overlaps requested p .cr = false) :
    (1 ≤ requested.start ∧ t[requested.start - 1]? = some CR ∧ t[requested.start]? = some CR) ∨
      (2 ≤ requested.start ∧ t[requested.start - 2]? = some CR ∧
        t[requested.start - 1]? = some CR ∧ t[requested.start]? = some LF) := by
  obtain ⟨hempty, hstop, hstart⟩ := overlaps_iff.mp hover
  have hge : p + 1 ≤ requested.start := by
    by_contra hlt
    have hlen : Eol.cr.len = 1 := rfl
    rw [overlaps_iff.mpr ⟨hempty, by omega, by omega⟩] at hbefore
    cases hbefore
  cases e with
  | lf => exact absurd hat.1 hcr.2
  | cr =>
    have heq : requested.start = p + 1 := Nat.le_antisymm (Nat.le_of_lt_succ hstart) hge
    rw [heq, Nat.add_sub_cancel]
    exact Or.inl ⟨Nat.le_add_left 1 p, hcr.1, hat.1⟩
  | crlf =>
    have hlen : Eol.crlf.len = 2 := rfl
    rw [hlen] at hstart
    rcases Nat.eq_or_lt_of_le hge with heq | hlt
    · rw [← heq, Nat.add_sub_cancel]
      exact Or.inl ⟨Nat.le_add_left 1 p, hcr.1, hat.1⟩
    · have heq : requested.start = p + 2 := by omega
      rw [heq]
      exact Or.inr ⟨Nat.le_add_left 2 p, hcr.1, hat.1, hat.2⟩

/-- The rewriting keeps the terminators apart just if the edges of the range are clear. -/
theorem apart_iff : Apart (overlaps requested) target 0 t ↔ StaysApart t requested target := by
  rw [apart_iff_eolAt]
  constructor
  · intro hall hlt
    have hempty : requested.isEmpty = false := by
      rw [Range.isEmpty, decide_eq_false_iff_not]
      omega
    have hyes : ∀ p e, p < requested.stop → requested.start < p + e.len →
        renewed (overlaps requested) target p e = target := fun p e hp hs => by
      rw [renewed, if_pos (overlaps_iff.mpr ⟨hempty, hp, hs⟩)]
    have hno : ∀ p e, ¬ (p < requested.stop ∧ requested.start < p + e.len) →
        renewed (overlaps requested) target p e = e := fun p e hn => by
      rw [renewed, if_neg fun hover => hn (overlaps_iff.mp hover).2]
    -- Two terminators meet where the range starts, or where it ends.
    refine ⟨?_, ?_⟩
    · rintro rfl
      constructor
      · rintro ⟨hpos, hbefore, hat⟩
        obtain ⟨p, hp⟩ : ∃ p, requested.start = p + 1 := Nat.exists_eq_add_of_le' hpos
        rw [hp] at hat hbefore
        rw [Nat.add_sub_cancel] at hbefore
        obtain ⟨e, he⟩ := exists_eolAt hat
        have hlen := e.len_pos
        have hcr : EolAt t p .cr := ⟨hbefore, fun hlf => cr_ne_lf (Option.some.inj (hat ▸ hlf))⟩
        refine hall p .cr e hcr he (hno _ _ ?_) (hyes _ _ ?_ ?_)
        · simp only [Eol.len, Eol.bytes, List.length_singleton]
          omega
        · simp only [Eol.len, Eol.bytes, List.length_singleton]
          omega
        · rw [hp]
          exact Nat.lt_add_of_pos_right hlen
      · rintro ⟨hpos, hbefore, hat, hlf⟩
        obtain ⟨p, hp⟩ : ∃ p, requested.start = p + 2 := Nat.exists_eq_add_of_le' hpos
        rw [hp] at hat hbefore hlf
        have hcr : EolAt t p .cr :=
          ⟨hbefore, fun h => cr_ne_lf (Option.some.inj (hat.symm.trans h))⟩
        refine hall p .cr .crlf hcr ⟨hat, hlf⟩ (hno _ _ ?_) (hyes _ _ ?_ ?_)
        all_goals
          simp only [Eol.len, Eol.bytes, List.length_cons, List.length_nil]
          omega
    · rintro rfl
      constructor
      · rintro ⟨hbefore, hat⟩
        obtain ⟨p, e, he, hend⟩ := exists_eolAt_behind hbefore
        have hstop : p + e.len = requested.stop := by omega
        have hlen := e.len_pos
        have hlf : EolAt t (p + e.len) .lf := by
          refine ⟨hstop ▸ hat, fun q hq => ?_⟩
          obtain rfl : q = requested.stop - 1 := by omega
          exact fun h => cr_ne_lf (Option.some.inj (h.symm.trans hbefore))
        exact hall p e .lf he hlf (hyes _ _ (by omega) (by omega)) (hno _ _ (by omega))
      · rintro ⟨hcr, hlf, hat⟩
        obtain ⟨p, hp⟩ : ∃ p, requested.stop = p + 1 := Nat.exists_eq_add_of_le' (by omega)
        rw [hp] at hcr hlf hat
        rw [Nat.add_sub_cancel] at hcr
        have hbehind : EolAt t (p + 2) .lf := by
          refine ⟨hat, fun q hq => ?_⟩
          obtain rfl : q = p + 1 := by omega
          exact fun h => cr_ne_lf (Option.some.inj (h.symm.trans hlf))
        refine hall p .crlf .lf ⟨hcr, hlf⟩ hbehind (hyes _ _ (by omega) ?_) (hno _ _ ?_)
        all_goals
          simp only [Eol.len, Eol.bytes, List.length_cons, List.length_nil]
          omega
  · intro hclear p e e' hat hat' hcr hlf
    rw [renewed] at hcr hlf
    cases hover : overlaps requested p e with
    | true =>
      rw [hover, if_pos rfl] at hcr
      have hlt : requested.start < requested.stop := by
        obtain ⟨hempty, -, -⟩ := overlaps_iff.mp hover
        rw [Range.isEmpty, decide_eq_false_iff_not] at hempty
        omega
      cases hover' : overlaps requested (p + e.len) e' with
      | true =>
        rw [hover', if_pos rfl, hcr] at hlf
        cases hlf
      | false =>
        rw [hover', if_neg Bool.false_ne_true] at hlf
        subst hlf
        rcases meets_behind hat hat' hover hover' with h | h
        · exact ((hclear hlt).2 hcr).1 h
        · exact ((hclear hlt).2 hcr).2 h
    | false =>
      rw [hover, if_neg Bool.false_ne_true] at hcr
      subst hcr
      cases hover' : overlaps requested (p + Eol.cr.len) e' with
      | false =>
        rw [hover', if_neg Bool.false_ne_true] at hlf
        subst hlf
        exact hat.2 hat'.1
      | true =>
        rw [hover', if_pos rfl] at hlf
        have hlt : requested.start < requested.stop := by
          obtain ⟨hempty, -, -⟩ := overlaps_iff.mp hover'
          rw [Range.isEmpty, decide_eq_false_iff_not] at hempty
          omega
        rcases meets_before hat hat' hover' hover with h | h
        · exact ((hclear hlt).1 hlf).1 h
        · exact ((hclear hlt).1 hlf).2 h

end Edges

/-- Whatever the number of edits allowed and however the text lies in pieces, a conversion turns
the text into one and the same text.  Its lines are those of the text before, with each
terminator that overlaps the range the target and every other one as it was, just if the edges
of the range are clear. -/
theorem eol_conversion_keeps_lines_iff {d : Document} (hd : Reachable d)
    (hutf8 : IsText d.current.text) (hcomplete : d.current.complete = true) {range : Range}
    (hrange : d.current.validateRange range = .ok ()) (target : Eol) :
    (∀ maxEdits, ∃ tr, planEolConversion d.current range target maxEdits = .ok tr ∧
      ∀ worlds revision d', d.apply worlds tr = (.ok revision, d') →
        d'.current.text = rewriteEols (overlaps range) target 0 d.current.text) ∧
    (lines (rewriteEols (overlaps range) target 0 d.current.text) =
        (lines d.current.text).renew (overlaps range) target 0 ↔
      StaysApart d.current.text range target) := by
  refine ⟨fun maxEdits => ?_, lines_rewriteEols.trans apart_iff⟩
  obtain ⟨tr, htr, -, hordered, htext⟩ := planEolConversion_spec hd.wf.root hutf8 hcomplete hrange
    target maxEdits
  refine ⟨tr, htr, fun worlds revision d' happly => ?_⟩
  have hsorted : tr.edits.Pairwise fun a b => a.range.start ≤ b.range.start := by
    refine (List.pairwise_map.mp hordered.pairwise).imp_of_mem fun {a b} ha _ hle => ?_
    exact Nat.le_trans (hordered.mem (List.mem_map_of_mem ha)).2.1 hle
  rw [(Document.accepted (m := none) hd happly (List.Perm.refl _) hsorted).2.1]
  exact htext

/-- A selection that cuts both pairs of a text. -/
theorem eol_conversion_keeps_lines_cut_pairs :
    let d := openedText [97, CR, LF, 98, CR, LF, 99]
    (∀ maxEdits, ∃ tr, planEolConversion d.current ⟨2, 5⟩ .lf maxEdits = .ok tr ∧
      ∀ worlds revision d', d.apply worlds tr = (.ok revision, d') →
        d'.current.text = rewriteEols (overlaps ⟨2, 5⟩) .lf 0 d.current.text) ∧
    (lines (rewriteEols (overlaps ⟨2, 5⟩) .lf 0 d.current.text) =
        (lines d.current.text).renew (overlaps ⟨2, 5⟩) .lf 0 ↔
      StaysApart d.current.text ⟨2, 5⟩ .lf) := by
  intro d
  have hopen : Document.fromUtf8 ⟨100, 0, 1⟩ 1 1 [97, CR, LF, 98, CR, LF, 99] = .ok d := by
    decide +kernel
  have hutf8 : IsText [97, CR, LF, 98, CR, LF, 99] := by
    have hscalar : ∀ b ∈ [97, CR, LF, 98, CR, LF, 99], Scalar [b] := by
      intro b hb
      simp only [List.mem_cons, List.not_mem_nil, or_false] at hb
      rcases hb with rfl | rfl | rfl | rfl | rfl | rfl | rfl <;> rfl
    have hall : ∀ t : Bytes, (∀ b ∈ t, Scalar [b]) → IsText t := by
      intro t
      induction t with
      | nil => exact fun _ => .nil
      | cons b t ih =>
        exact fun h => IsText.cons (h b List.mem_cons_self)
          (ih fun c hc => h c (List.mem_cons_of_mem b hc))
    exact hall _ hscalar
  exact eol_conversion_keeps_lines_iff (Reachable.fromUtf8 hopen) hutf8 rfl rfl .lf

/-- A CR that is converted to LF behind a CR outside the range makes a pair with it, and a line
is lost. -/
theorem conversion_loses_line :
    let d := openedText [97, CR, CR, 98]
    ∃ tr d', planEolConversion d.current ⟨2, 3⟩ .lf 10 = .ok tr ∧
      d.apply (fun _ => Env.roomy) tr = (.ok 1, d') ∧
      d'.current.text = [97, CR, LF, 98] ∧
      lines d'.current.text ≠ (lines d.current.text).renew (overlaps ⟨2, 3⟩) .lf 0 ∧
      (lines d'.current.text).ended.length ≠ (lines d.current.text).ended.length := by
  intro d
  have hplan : planEolConversion d.current ⟨2, 3⟩ .lf 10 = .ok ⟨0, [⟨⟨2, 3⟩, [LF]⟩]⟩ := by
    decide +kernel
  have hfst : (d.apply (fun _ => Env.roomy) ⟨0, [⟨⟨2, 3⟩, [LF]⟩]⟩).1 = .ok 1 := by decide +kernel
  have htext : (d.apply (fun _ => Env.roomy) ⟨0, [⟨⟨2, 3⟩, [LF]⟩]⟩).2.current.text =
      [97, CR, LF, 98] := by decide +kernel
  refine ⟨_, _, hplan, pair_of_fst hfst, htext, ?_, ?_⟩
  · rw [htext]
    decide +kernel
  · rw [htext]
    decide +kernel

end BareLine.Codec
