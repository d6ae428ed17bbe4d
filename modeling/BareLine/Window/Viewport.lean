import BareLine.Window.Edges

/-!
# Window reads are exact

Whatever the pages answer, a request that is done reports bytes the document has at the range it
reports.  A display window is the largest part of what was asked that is text of its own, and a
line window keeps both bytes of a CR LF on one side of each edge.
-/

namespace BareLine.Window

open Lib Codec Tree

/-! ## §1 The largest window -/

/-- What a display window reports of a range that was asked for. -/
structure Viewport (t : Bytes) (asked reported : Range) : Prop where
  front : asked.start ≤ reported.start ∧ reported.start ≤ asked.start + 3
  ordered : reported.start ≤ reported.stop
  back : reported.stop ≤ asked.stop ∧ asked.stop ≤ reported.stop + 3
  valid : IsText (reported.of t)
  /-- No part of the request that is text of its own is left out. -/
  largest : ∀ a b, asked.start ≤ a → a < b → b ≤ asked.stop →
    IsText ((⟨a, b⟩ : Range).of t) → reported.start ≤ a ∧ b ≤ reported.stop
  /-- In a text every part of the request between two boundaries is reported. -/
  largestAligned : IsText t → ∀ a b, asked.start ≤ a → a ≤ b → b ≤ asked.stop →
    isCharBoundary t a = true → isCharBoundary t b = true →
    reported.start ≤ a ∧ b ≤ reported.stop
  /-- In a text the edges are boundaries where the request has one. -/
  aligned : IsText t → (∃ c, asked.start ≤ c ∧ c ≤ asked.stop ∧ isCharBoundary t c = true) →
    isCharBoundary t reported.start = true ∧ isCharBoundary t reported.stop = true
  /-- A request inside one scalar reports nothing. -/
  nothing : IsText t →
    (∀ c, asked.start ≤ c → c ≤ asked.stop → isCharBoundary t c = false) →
    reported.start = reported.stop

/-- A boundary of a text is where a cut is clean. -/
theorem isCharBoundary_iff {t : Bytes} (h : IsText t) {c : Nat} :
    isCharBoundary t c = true ↔ c ≤ t.length ∧ StartsClean (t.drop c) := by
  rw [isCharBoundary, atBoundary]
  by_cases hzero : c = 0
  · subst hzero
    simpa using h.clean
  by_cases hend : c = t.length
  · subst hend
    simp
  by_cases hlt : c < t.length
  · rw [StartsClean, List.head?_drop, List.getElem?_eq_getElem hlt]
    simp [hzero, hend, Nat.le_of_lt hlt]
  · rw [List.getElem?_eq_none (Nat.le_of_not_lt hlt)]
    simp only [beq_iff_eq, hzero, hend, Bool.or_eq_true, or_self, Bool.false_eq_true, false_iff]
    omega

/-- The bytes between two parts of a text. -/
theorem of_between {p m q : Bytes} :
    (⟨p.length, p.length + m.length⟩ : Range).of (p ++ (m ++ q)) = m := by
  rw [Range.of, ← List.length_append, ← List.append_assoc, List.take_left, List.drop_left]

theorem head_of {t : Bytes} {a b : Nat} (hlt : a < b) : ((⟨a, b⟩ : Range).of t).head? = t[a]? := by
  rw [Range.of, List.head?_drop, List.getElem?_take_of_lt hlt]

namespace Parts

variable {t pre conts text tail post : Bytes}

theorem length_eq (h : Parts t pre conts text tail post) :
    t.length = pre.length + conts.length + text.length + tail.length + post.length := by
  rw [h.whole]
  simp only [List.length_append]
  omega

/-- The text in front of the cut scalar starts clean, and so does the cut scalar. -/
theorem tail_clean (h : Parts t pre conts text tail post) : StartsClean tail := by
  rcases h.tail with rfl | ⟨hcut, -⟩
  · exact startsClean_nil
  · have := scan_scanned (t := tail)
    rw [hcut] at this
    cases this with
    | cut three clean more => exact clean

theorem tail_three (h : Parts t pre conts text tail post) :
    tail.length ≤ 3 ∧ Continues (tail.drop 1) := by
  rcases h.tail with rfl | ⟨hcut, -⟩
  · exact ⟨Nat.zero_le _, fun b hb => nomatch hb⟩
  · have := scan_scanned (t := tail)
    rw [hcut] at this
    cases this with
    | cut three clean more => exact ⟨three, more⟩

/-- The bytes from an offset among the dropped ones continue a scalar. -/
theorem not_clean_front (h : Parts t pre conts text tail post) {a : Nat} (hle : pre.length ≤ a)
    (hlt : a < pre.length + conts.length) : ¬StartsClean (t.drop a) := by
  intro hclean
  rw [h.whole, List.drop_append, List.drop_of_length_le hle, List.nil_append,
    List.drop_append_of_le_length (by omega)] at hclean
  have hne : conts.drop (a - pre.length) ≠ [] := by
    rw [Ne, List.drop_eq_nil_iff]
    omega
  obtain ⟨b, more, hmore⟩ := List.exists_cons_of_ne_nil hne
  rw [hmore] at hclean
  have hb : isContinuation b = false := hclean b rfl
  rw [h.continues b (List.mem_of_mem_drop (hmore ▸ List.mem_cons_self))] at hb
  cases hb

/-- So do the ones inside the cut scalar. -/
theorem not_clean_back (h : Parts t pre conts text tail post) {c : Nat}
    (hlt : pre.length + conts.length + text.length < c)
    (hin : c < pre.length + conts.length + text.length + tail.length) :
    ¬StartsClean (t.drop c) := by
  intro hclean
  have hwhole : t = (pre ++ (conts ++ text)) ++ (tail ++ post) := by
    rw [h.whole]
    simp only [List.append_assoc]
  rw [hwhole, List.drop_append, List.drop_of_length_le (by simp only [List.length_append]; omega),
    List.nil_append, List.drop_append_of_le_length (by simp only [List.length_append]; omega)]
    at hclean
  simp only [List.length_append] at hclean
  generalize hk : c - (pre.length + (conts.length + text.length)) = k at hclean
  have hne : tail.drop k ≠ [] := by
    rw [Ne, List.drop_eq_nil_iff]
    omega
  obtain ⟨b, more, hmore⟩ := List.exists_cons_of_ne_nil hne
  rw [hmore] at hclean
  have hb : isContinuation b = false := hclean b rfl
  have hmem : b ∈ tail.drop 1 := by
    have hsub : tail.drop k = (tail.drop 1).drop (k - 1) := by
      rw [List.drop_drop]
      congr 1
      omega
    exact List.mem_of_mem_drop (hsub ▸ hmore ▸ List.mem_cons_self)
  rw [h.tail_three.2 b hmem] at hb
  cases hb

/-- A boundary of a text that was asked for is not dropped. -/
theorem boundary_in (h : Parts t pre conts text tail post) (ht : IsText t) {c : Nat}
    (hfrom : pre.length ≤ c)
    (hto : c ≤ pre.length + conts.length + text.length + tail.length)
    (hc : isCharBoundary t c = true) :
    pre.length + conts.length ≤ c ∧ c ≤ pre.length + conts.length + text.length := by
  obtain ⟨-, hclean⟩ := (isCharBoundary_iff ht).mp hc
  refine ⟨?_, ?_⟩
  · by_contra hlt
    exact h.not_clean_front hfrom (by omega) hclean
  · by_contra hlt
    by_cases hin : c < pre.length + conts.length + text.length + tail.length
    · exact h.not_clean_back (by omega) hin hclean
    -- a clean cut right behind the cut scalar would make it whole
    have hwhole : t = (pre ++ (conts ++ text)) ++ tail ++ post := by
      rw [h.whole]
      simp only [List.append_assoc]
    have hlen : c = ((pre ++ (conts ++ text)) ++ tail).length := by
      simp only [List.length_append]
      omega
    have hne : tail ≠ [] := by
      rintro rfl
      simp only [List.length_nil] at hto
      omega
    rw [hlen, hwhole, List.drop_left] at hclean
    have htext := ((hwhole ▸ ht).of_clean hclean).1
    have hcut := (h.tail.resolve_left hne).1
    refine not_isText_of_cut (v := []) ?_ hne (htext.of_clean h.tail_clean).2
    rwa [List.append_nil]

/-- The bytes from the first edge on. -/
theorem drop_front (h : Parts t pre conts text tail post) :
    t.drop (pre.length + conts.length) = text ++ (tail ++ post) := by
  rw [h.whole, ← List.append_assoc, ← List.length_append, List.drop_left]

/-- The bytes from the second edge on. -/
theorem drop_back (h : Parts t pre conts text tail post) :
    t.drop (pre.length + conts.length + text.length) = tail ++ post := by
  rw [← List.drop_drop, h.drop_front, List.drop_left]

/-- The edges of the reported text are boundaries where there is one between them. -/
theorem boundaries (h : Parts t pre conts text tail post) (ht : IsText t) {c : Nat}
    (hfrom : pre.length + conts.length ≤ c)
    (hto : c ≤ pre.length + conts.length + text.length) (hc : isCharBoundary t c = true) :
    isCharBoundary t (pre.length + conts.length) = true ∧
      isCharBoundary t (pre.length + conts.length + text.length) = true := by
  have hlen := h.length_eq
  obtain ⟨hin, hclean⟩ := (isCharBoundary_iff ht).mp hc
  have hback : StartsClean (tail ++ post) := by
    by_cases hne : tail = []
    · subst hne
      rw [List.nil_append]
      -- the boundary cuts the text, and its rest is a text that ends where the window does
      obtain ⟨k, rfl⟩ := Nat.exists_eq_add_of_le hfrom
      have hdrop : t.drop (pre.length + conts.length + k) = text.drop k ++ post := by
        rw [← List.drop_drop, h.drop_front, List.nil_append,
          List.drop_append_of_le_length (by omega)]
      rw [hdrop] at hclean
      have hrest : IsText (t.take (pre.length + conts.length + k) ++ (text.drop k ++ post)) := by
        rw [← hdrop, List.take_append_drop]
        exact ht
      have hboth := (hrest.of_clean hclean).2
      by_cases hempty : text.drop k = []
      · rw [hempty, List.nil_append] at hclean
        exact hclean
      · have hpart : StartsClean (text.drop k) := by
          obtain ⟨b, more, hmore⟩ := List.exists_cons_of_ne_nil hempty
          rw [hmore] at hclean ⊢
          exact hclean
        have htext := h.text
        rw [← List.take_append_drop k text] at htext
        exact ((htext.of_clean hpart).2.of_append hboth).clean
    · exact h.tail_clean.append hne
  have hstop : isCharBoundary t (pre.length + conts.length + text.length) = true :=
    (isCharBoundary_iff ht).mpr ⟨by omega, by rw [h.drop_back]; exact hback⟩
  refine ⟨?_, hstop⟩
  by_cases hempty : text = []
  · rw [hempty, List.length_nil, Nat.add_zero] at hstop
    exact hstop
  · refine (isCharBoundary_iff ht).mpr ⟨by omega, ?_⟩
    rw [h.drop_front]
    exact h.text.clean.append hempty

/-- The bytes of a range that ends inside the cut scalar. -/
theorem of_into_tail (h : Parts t pre conts text tail post) {a k : Nat}
    (hle : a ≤ pre.length + conts.length + text.length) :
    (⟨a, pre.length + conts.length + text.length + k⟩ : Range).of t =
      (pre ++ (conts ++ text)).drop a ++ (tail ++ post).take k := by
  have hwhole : t = (pre ++ (conts ++ text)) ++ (tail ++ post) := by
    rw [h.whole]
    simp only [List.append_assoc]
  have hlen : (pre ++ (conts ++ text)).length = pre.length + conts.length + text.length := by
    simp only [List.length_append]
    omega
  rw [Range.of, hwhole, ← hlen, List.take_length_add_append]
  exact List.drop_append_of_le_length (hlen ▸ hle)

theorem of_text (h : Parts t pre conts text tail post) :
    (⟨pre.length + conts.length, pre.length + conts.length + text.length⟩ : Range).of t = text := by
  rw [h.whole, ← List.append_assoc, ← List.length_append, of_between]

/-- The parts of a request make its window. -/
theorem viewport (h : Parts t pre conts text tail post) :
    Viewport t ⟨pre.length, pre.length + conts.length + text.length + tail.length⟩
      ⟨pre.length + conts.length, pre.length + conts.length + text.length⟩ where
  front := ⟨Nat.le_add_right _ _, Nat.add_le_add_left h.three _⟩
  ordered := Nat.le_add_right _ _
  back := ⟨Nat.le_add_right _ _, Nat.add_le_add_left h.tail_three.1 _⟩
  valid := by
    rw [h.of_text]
    exact h.text
  largest a b hfrom hlt hto htext := by
    have hlen := h.length_eq
    dsimp only at hfrom hto
    have hclean : StartsClean (t.drop a) := fun c hc => by
      refine htext.clean c ?_
      rw [head_of hlt, ← List.head?_drop]
      exact hc
    refine ⟨?_, ?_⟩
    · by_contra hno
      exact h.not_clean_front hfrom (by dsimp only at hno; omega) hclean
    · by_contra hno
      dsimp only at hno
      by_cases hin : pre.length + conts.length + text.length < a
      · exact h.not_clean_back hin (by omega) hclean
      -- the range would hold a front of the cut scalar as its last scalar
      obtain ⟨k, rfl⟩ := Nat.exists_eq_add_of_le
        (show pre.length + conts.length + text.length ≤ b by omega)
      rw [h.of_into_tail (by omega), List.take_append_of_le_length (by omega)] at htext
      have hfront : tail.take k ≠ [] := by
        rw [Ne, List.take_eq_nil_iff, ← List.length_eq_zero_iff]
        omega
      have hcut : Codec.scan (tail.take k ++ tail.drop k) = .cut := by
        rw [List.take_append_drop]
        refine (h.tail.resolve_left ?_).1
        rintro rfl
        exact hfront List.take_nil
      have hstart : StartsClean (tail.take k) := fun c hc => by
        refine h.tail_clean c ?_
        rw [← List.take_append_drop k tail, List.head?_append_of_ne_nil _ hfront]
        exact hc
      exact not_isText_of_cut hcut hfront (htext.of_clean hstart).2
  largestAligned ht a b hfrom hab hto ha hb :=
    ⟨(h.boundary_in ht hfrom (Nat.le_trans hab hto) ha).1,
      (h.boundary_in ht (Nat.le_trans hfrom hab) hto hb).2⟩
  aligned ht hsome := by
    obtain ⟨c, hfrom, hto, hc⟩ := hsome
    obtain ⟨hfrom, hto⟩ := h.boundary_in ht hfrom hto hc
    exact h.boundaries ht hfrom hto hc
  nothing ht hnone := by
    by_contra hne
    dsimp only at hne
    have hempty : text ≠ [] := by
      rintro rfl
      exact hne rfl
    have hlen := h.length_eq
    have hstart : isCharBoundary t (pre.length + conts.length) = true :=
      (isCharBoundary_iff ht).mpr
        ⟨by omega, by rw [h.drop_front]; exact h.text.clean.append hempty⟩
    rw [hnone _ (Nat.le_add_right _ _) (by dsimp only; omega)] at hstart
    cases hstart

end Parts

/-! ## §2 The edges of a line window -/

/-- The request without the half of a CR LF whose other half is outside. -/
def clip (t : Bytes) (asked : Range) : Range :=
  if asked.stop ≤ asked.start then asked
  else
    ⟨if insidePair t asked.start then asked.start + 1 else asked.start,
      if insidePair t asked.stop then asked.stop - 1 else asked.stop⟩

theorem not_insidePair_end {t : Bytes} {o : Nat} (hle : t.length ≤ o) : ¬insidePair t o := by
  rintro ⟨-, -, hlf⟩
  rw [List.getElem?_eq_none hle] at hlf
  cases hlf

/-- One byte is not both halves. -/
theorem insidePair_apart {t : Bytes} {o : Nat} (h : insidePair t o) : ¬insidePair t (o + 1) := by
  rintro ⟨-, hcr, -⟩
  rw [Nat.add_sub_cancel, h.2.2] at hcr
  exact cr_ne_lf (Option.some.inj hcr).symm

theorem clip_start {t : Bytes} {asked : Range} (h : ¬insidePair t asked.start) :
    (clip t asked).start = asked.start := by
  rw [clip]
  by_cases hempty : asked.stop ≤ asked.start
  · rw [if_pos hempty]
  · rw [if_neg hempty, if_neg h]

theorem clip_stop {t : Bytes} {asked : Range} (h : ¬insidePair t asked.stop) :
    (clip t asked).stop = asked.stop := by
  rw [clip]
  by_cases hempty : asked.stop ≤ asked.start
  · rw [if_pos hempty]
  · rw [if_neg hempty, if_neg h]

/-- A clipped request stays inside the one that was made. -/
theorem clip_bounds {t : Bytes} {asked : Range} (hle : asked.start ≤ asked.stop) :
    asked.start ≤ (clip t asked).start ∧ (clip t asked).start ≤ (clip t asked).stop ∧
      (clip t asked).stop ≤ asked.stop := by
  rw [clip]
  by_cases hempty : asked.stop ≤ asked.start
  · rw [if_pos hempty]
    exact ⟨Nat.le_refl _, hle, Nat.le_refl _⟩
  rw [if_neg hempty]
  dsimp only
  by_cases hfront : insidePair t asked.start <;> by_cases hback : insidePair t asked.stop
  · rw [if_pos hfront, if_pos hback]
    have hfar : asked.stop ≠ asked.start + 1 := fun heq =>
      insidePair_apart hfront (heq ▸ hback)
    omega
  · rw [if_pos hfront, if_neg hback]
    omega
  · rw [if_neg hfront, if_pos hback]
    omega
  · rw [if_neg hfront, if_neg hback]
    omega

/-- The byte behind the window decides whether its last CR goes with it. -/
theorem trimTrail_spec {t : Bytes} {a s e : Nat} (has : a ≤ s) (hse : s ≤ e) (he : e < t.length) :
    Edges.trimTrail ⟨⟨a, e + 1⟩, (⟨a, e + 1⟩ : Range).of t⟩ (s - a) =
      ⟨⟨a, (clip t ⟨s, e⟩).stop⟩, (⟨a, (clip t ⟨s, e⟩).stop⟩ : Range).of t⟩ := by
  have hlast : ∀ b, a < b → b ≤ t.length →
      ((⟨a, b⟩ : Range).of t).getLast? = t[b - 1]? := fun b hlt hle => by
    rw [Range.of, List.getLast?_drop, List.length_take, if_neg (by dsimp only; omega),
      List.getLast?_take, if_neg (by dsimp only; omega)]
    dsimp only
    rw [List.getElem?_eq_getElem (by omega : b - 1 < t.length)]
    rfl
  have hdrop : ∀ b, b ≤ t.length → ((⟨a, b⟩ : Range).of t).dropLast = (⟨a, b - 1⟩ : Range).of t :=
    fun b hle => by
      simp only [Range.of]
      rw [List.dropLast_eq_take, List.length_drop, List.length_take, List.take_drop,
        List.take_take]
      by_cases hab : a < b
      · congr 2
        omega
      · rw [List.drop_of_length_le (by rw [List.length_take]; omega),
          List.drop_of_length_le (by rw [List.length_take]; omega)]
  rw [Edges.trimTrail]
  dsimp only
  rw [hlast (e + 1) (by omega) he, hdrop (e + 1) he, Nat.add_sub_cancel, Range.of_length]
  dsimp only
  rw [clip]
  dsimp only
  by_cases hempty : e ≤ s
  · rw [if_pos hempty, if_neg (by omega)]
  · rw [if_neg hempty, hlast e (by omega) (by omega)]
    dsimp only
    by_cases hpair : insidePair t e
    · rw [if_pos hpair, if_pos ⟨hpair.2.2, by omega, hpair.2.1⟩, hdrop e (by omega)]
    · rw [if_neg hpair, if_neg (fun hno => hpair ⟨by omega, hno.2.2, hno.1⟩)]

/-- The byte before the window decides whether its first LF goes with it. -/
theorem trimLead_spec {t : Bytes} {s e : Nat} (hpos : 0 < s) (hse : s ≤ e) (he : e ≤ t.length) :
    Edges.trimLead ⟨⟨s - 1, (clip t ⟨s, e⟩).stop⟩, (⟨s - 1, (clip t ⟨s, e⟩).stop⟩ : Range).of t⟩ =
      ⟨clip t ⟨s, e⟩, (clip t ⟨s, e⟩).of t⟩ := by
  obtain ⟨hstart, hordered, hstop⟩ :=
    clip_bounds (t := t) (show Range.start ⟨s, e⟩ ≤ Range.stop ⟨s, e⟩ from hse)
  dsimp only at hstart hstop
  have hcut : (clip t ⟨s, e⟩).start =
      if insidePair t s ∧ s < (clip t ⟨s, e⟩).stop then s + 1 else s := by
    by_cases hboth : insidePair t s ∧ s < (clip t ⟨s, e⟩).stop
    · rw [if_pos hboth, clip, if_neg (by dsimp only; omega), if_pos hboth.1]
    · rw [if_neg hboth]
      rw [clip] at hordered ⊢
      split_ifs at hordered ⊢ with hempty hfront hback
      · rfl
      · exact absurd ⟨hfront, by rw [clip, if_neg hempty, if_pos hback]; exact hordered⟩ hboth
      · exact absurd ⟨hfront, by rw [clip, if_neg hempty, if_neg hback]; exact hordered⟩ hboth
      · rfl
      · rfl
  generalize (clip t ⟨s, e⟩) = cut at *
  obtain ⟨start, stop⟩ := cut
  dsimp only at *
  have hprev : s - 1 < t.length := by omega
  have hbytes : (⟨s - 1, stop⟩ : Range).of t = t[s - 1] :: (⟨s, stop⟩ : Range).of t := by
    simp only [Range.of]
    rw [List.drop_eq_getElem_cons (by rw [List.length_take]; omega), Nat.sub_add_cancel hpos,
      List.getElem_take]
  have hhead : ((⟨s, stop⟩ : Range).of t).head? = some LF ↔ t[s]? = some LF ∧ s < stop := by
    by_cases hlt : s < stop
    · rw [head_of hlt]
      simp [hlt]
    · rw [Range.of_eq_nil (by dsimp only; omega)]
      simp [hlt]
  rw [Edges.trimLead]
  dsimp only
  rw [hbytes]
  dsimp only
  have hpair : (t[s - 1] = CR ∧ ((⟨s, stop⟩ : Range).of t).head? = some LF) ↔
      insidePair t s ∧ s < stop := by
    rw [hhead, insidePair, List.getElem?_eq_getElem hprev, Option.some.injEq]
    tauto
  by_cases hboth : insidePair t s ∧ s < stop
  · rw [if_pos (hpair.mpr hboth)]
    rw [if_pos hboth] at hcut
    subst hcut
    rw [List.drop_succ_cons, show s - 1 + 2 = s + 1 by omega]
    simp only [Range.of, List.drop_drop]
  · rw [if_neg (fun hno => hboth (hpair.mp hno))]
    rw [if_neg hboth] at hcut
    subst hcut
    rw [List.drop_succ_cons, List.drop_zero, Nat.sub_add_cancel hpos]

/-- Both context bytes only decide where the request is clipped. -/
theorem trims_spec {t : Bytes} {s e lead trail : Nat} (hse : s ≤ e) (he : e ≤ t.length)
    (hlead : lead = if s > 0 ∧ s ≤ e then 1 else 0)
    (htrail : trail = if e < t.length then 1 else 0) :
    (if lead = 1 then
      (if trail = 1 then
        Edges.trimTrail ⟨⟨s - lead, e + trail⟩, (⟨s - lead, e + trail⟩ : Range).of t⟩ lead
      else ⟨⟨s - lead, e + trail⟩, (⟨s - lead, e + trail⟩ : Range).of t⟩).trimLead
    else if trail = 1 then
      Edges.trimTrail ⟨⟨s - lead, e + trail⟩, (⟨s - lead, e + trail⟩ : Range).of t⟩ lead
    else ⟨⟨s - lead, e + trail⟩, (⟨s - lead, e + trail⟩ : Range).of t⟩) =
      ⟨clip t ⟨s, e⟩, (clip t ⟨s, e⟩).of t⟩ := by
  have hle : lead ≤ s := by
    rw [hlead]
    split_ifs with hpos
    · exact hpos.1
    · exact Nat.zero_le _
  have hback : (if trail = 1 then
        Edges.trimTrail ⟨⟨s - lead, e + trail⟩, (⟨s - lead, e + trail⟩ : Range).of t⟩ lead
      else ⟨⟨s - lead, e + trail⟩, (⟨s - lead, e + trail⟩ : Range).of t⟩) =
      ⟨⟨s - lead, (clip t ⟨s, e⟩).stop⟩, (⟨s - lead, (clip t ⟨s, e⟩).stop⟩ : Range).of t⟩ := by
    by_cases hend : e < t.length
    · rw [if_pos hend] at htrail
      have htrim := trimTrail_spec (Nat.sub_le s lead) hse hend
      rw [Nat.sub_sub_self hle] at htrim
      rw [if_pos htrail, htrail, htrim]
    · rw [if_neg hend] at htrail
      have hstop : (clip t ⟨s, e⟩).stop = e :=
        clip_stop (not_insidePair_end (Nat.le_of_not_lt hend))
      rw [if_neg (by omega), htrail, hstop, Nat.add_zero]
  rw [hback]
  by_cases hpos : s > 0
  · rw [if_pos ⟨hpos, hse⟩] at hlead
    rw [if_pos hlead, hlead, trimLead_spec hpos hse he]
  · rw [if_neg (fun hno => hpos hno.1)] at hlead
    have hstart : (clip t ⟨s, e⟩).start = s - lead := by
      rw [hlead]
      exact clip_start fun hno => hpos hno.1
    rw [if_neg (by omega), ← hstart]

/-! ## §3 Every request -/

/-- No text has the requested bytes where the document has them. -/
def Malformed (t : Bytes) (asked : Range) : Prop :=
  ∀ x y : Bytes, (asked.start = 0 → x = []) → ¬IsText (x ++ (asked.of t ++ y))

/-- The request reaches the end of the document, and only more bytes there would make its bytes
part of a text. -/
def EndTruncates (t : Bytes) (asked : Range) : Prop :=
  asked.stop = t.length ∧
    (∃ x y : Bytes, y ≠ [] ∧ (asked.start = 0 → x = []) ∧ IsText (x ++ (asked.of t ++ y))) ∧
    ∀ x : Bytes, (asked.start = 0 → x = []) → ¬IsText (x ++ asked.of t)

/-- Bytes that are misplaced are malformed, or the document ends inside a scalar. -/
theorem malformed_or_truncated {t : Bytes} {asked : Range} (hle : asked.start ≤ asked.stop)
    (hin : asked.stop ≤ t.length)
    (h : Misplaced (t.take asked.start) (asked.of t) (t.drop asked.stop)) :
    Malformed t asked ∨ EndTruncates t asked := by
  have hpre : t.take asked.start = [] ↔ asked.start = 0 := by
    rw [List.take_eq_nil_iff, ← List.length_eq_zero_iff]
    omega
  have hpost : t.drop asked.stop = [] ↔ asked.stop = t.length := by
    rw [List.drop_eq_nil_iff]
    omega
  rw [Misplaced, hpre, hpost] at h
  by_cases hmalformed : Malformed t asked
  · exact .inl hmalformed
  rw [Malformed] at hmalformed
  push Not at hmalformed
  obtain ⟨x, y, hx, htext⟩ := hmalformed
  have hend : asked.stop = t.length := by
    by_contra hne
    exact h x y hx (fun heq => absurd heq hne) htext
  refine .inr ⟨hend, ⟨x, y, ?_, hx, htext⟩, fun x hx htext => ?_⟩
  · rintro rfl
    exact h x [] hx (fun _ => rfl) htext
  · exact h x [] hx (fun _ => rfl) (by rwa [List.append_nil])

/-- Under any paging every poll of a request returns an answer with the property, and with all
its pages at hand the request is done. -/
def Answers (first : WindowRequest) (property : WindowPoll → Prop) : Prop :=
  ∀ request, Reached first request → ∀ pages, ∃ out next,
    request.poll pages = some (out, next) ∧ property out ∧
      (request.bytes ≠ none → (∀ cursor, pages cursor = .held) →
        (∃ window, out = .ready window) ∨ out = .invalidUtf8)

/-- What is true of the decoded bytes of a request is true of its answers. -/
theorem Begun.answers {first : WindowRequest} (h : Begun first) {property : WindowPoll → Prop}
    (hready : ∀ window,
      window.range = (first.settle (first.range.of first.snapshot.text)).range →
      fromUtf8 (first.settle (first.range.of first.snapshot.text)).bytes = .ok window.text →
      property (.ready window))
    (hinvalid : ∀ err,
      fromUtf8 (first.settle (first.range.of first.snapshot.text)).bytes = .error err →
      property .invalidUtf8)
    (hother : ∀ out, (∀ window, out ≠ .ready window) → out ≠ .invalidUtf8 → property out) :
    Answers first property := by
  intro request hreached pages
  obtain ⟨⟨out, next⟩, hpoll, hspec⟩ := poll_spec h (hreached.standing h) pages
  refine ⟨out, next, hpoll, ?_⟩
  cases hspec with
  | spent done =>
    exact ⟨hother _ (fun _ => nofun) nofun, fun hbytes => absurd done hbytes⟩
  | pending ticket cursor missing standing =>
    refine ⟨hother _ (fun _ => nofun) nofun, fun _ hheld => ?_⟩
    rw [hheld cursor] at missing
    cases missing
  | unavailable reason cursor refused done =>
    refine ⟨hother _ (fun _ => nofun) nofun, fun _ hheld => ?_⟩
    rw [hheld cursor] at refused
    cases refused
  | ready window range text contentState documentId done =>
    exact ⟨hready window range text, fun _ _ => .inl ⟨window, rfl⟩⟩
  | invalid err text done => exact ⟨hinvalid err text, fun _ _ => .inr rfl⟩

theorem beginRead_ok {snapshot : PagedSnapshot} (h : snapshot.Built) {range : Range}
    {maxBytes : Nat} {budget budget' : Heap} {request : WindowRequest}
    (hok : snapshot.beginRead range maxBytes budget = .ok (request, budget')) :
    Begun request ∧ request.snapshot = snapshot ∧ request.range = range ∧
      request.alignEdges = false ∧ request.context = (0, 0) := by
  rw [PagedSnapshot.beginRead] at hok
  split_ifs at hok with hbounds
  dsimp only at hok
  split_ifs at hok
  obtain ⟨heap, -, hrequest⟩ := bind_ok.mp hok
  obtain ⟨rfl, -⟩ := Prod.mk.inj (Except.ok.inj hrequest)
  have hlen := h.len_eq
  exact ⟨⟨h, rfl, rfl, by dsimp only; omega, by dsimp only; omega, rfl, nofun⟩, rfl, rfl, rfl, rfl⟩

theorem Answers.mono {first : WindowRequest} {property weaker : WindowPoll → Prop}
    (h : Answers first property) (himp : ∀ out, property out → weaker out) :
    Answers first weaker := by
  intro request hreached pages
  obtain ⟨out, next, hpoll, hproperty, hdone⟩ := h request hreached pages
  exact ⟨out, next, hpoll, himp out hproperty, hdone⟩

/-- An answer with the parts of the bytes that were asked for. -/
structure PartsAnswer (t : Bytes) (asked : Range) (out : WindowPoll) : Prop where
  window : ∀ window, out = .ready window → ∃ conts tail,
    Parts t (t.take asked.start) conts window.text tail (t.drop asked.stop) ∧
      asked.start + conts.length = window.range.start ∧
      window.range.start + window.text.length = window.range.stop ∧
      window.range.stop + tail.length = asked.stop
  invalid : out = .invalidUtf8 → Malformed t asked ∨ EndTruncates t asked

/-- A request that aligns the bytes of `asked` answers with their parts. -/
theorem Begun.partsAnswers {first : WindowRequest} (h : Begun first) {asked : Range}
    (hle : asked.start ≤ asked.stop) (hin : asked.stop ≤ first.snapshot.text.length)
    (hsettle : first.settle (first.range.of first.snapshot.text) =
      Edges.alignBack (Edges.alignFront ⟨asked, asked.of first.snapshot.text⟩)
        first.snapshot.len) :
    Answers first (PartsAnswer first.snapshot.text asked) := by
  have hat := Edges.at_range hle hin
  have hspec := align_spec hat
  rw [← h.built.len_eq, ← hsettle] at hspec
  refine h.answers (fun window hrange htext => ?_) (fun err herr => ?_) fun out hready hinvalid =>
    ⟨fun window heq => absurd heq (hready window), fun heq => absurd heq hinvalid⟩
  · rw [htext] at hspec
    generalize htext' : window.text = text at hspec
    cases hspec with
    | ok conts text tail parts bytes range =>
      have hstart := hat.start
      have hstop := hat.stop
      rw [bytes] at hstop
      simp only [List.length_append] at hstop
      dsimp only at hstart hstop
      refine ⟨fun window' heq => ?_, nofun⟩
      obtain rfl := WindowPoll.ready.inj heq
      refine ⟨conts, tail, htext' ▸ parts, ?_, ?_, ?_⟩
      · rw [hrange, range]
        exact congrArg (· + conts.length) hstart
      · rw [hrange, range, htext']
      · rw [hrange, range]
        dsimp only
        omega
  · rw [herr] at hspec
    cases hspec with
    | error _ misplaced =>
      exact ⟨fun window heq => (nomatch heq), fun _ => malformed_or_truncated hle hin misplaced⟩

/-- A window with its parts is the largest, and its text is the document's. -/
theorem PartsAnswer.exact {t : Bytes} {asked : Range} {out : WindowPoll}
    (h : PartsAnswer t asked out) (hin : asked.start ≤ t.length) {window : TextWindow}
    (hready : out = .ready window) :
    window.text = window.range.of t ∧ Viewport t asked window.range := by
  obtain ⟨conts, tail, hparts, hstart, htext, hstop⟩ := h.window window hready
  have hpre : (t.take asked.start).length = asked.start := by
    rw [List.length_take, Nat.min_eq_left hin]
  have hview := hparts.viewport
  have hbytes := hparts.of_text
  rw [hpre, hstart, htext] at hbytes
  rw [hpre, hstart, htext, hstop] at hview
  exact ⟨hbytes.symm, hview⟩

theorem windowEnd_le (snapshot : PagedSnapshot) (start maxBytes : Nat) :
    snapshot.windowEnd start maxBytes ≤ snapshot.len := Nat.min_le_right _ _

/-- A request of at least one byte is empty at the end of the document only. -/
theorem windowEnd_pos {snapshot : PagedSnapshot} {start maxBytes : Nat} (hmax : 0 < maxBytes)
    (hempty : snapshot.windowEnd start maxBytes ≤ start) : snapshot.len ≤ start := by
  rw [PagedSnapshot.windowEnd, checkedAdd] at hempty
  split_ifs at hempty
  · rw [Option.getD_some] at hempty
    omega
  · rw [Option.getD_none] at hempty
    omega

/-- A request ends before it starts only where the document does. -/
theorem windowEnd_past {snapshot : PagedSnapshot} {start maxBytes : Nat}
    (hpast : snapshot.windowEnd start maxBytes < start) :
    snapshot.len ≤ snapshot.windowEnd start maxBytes := by
  rw [PagedSnapshot.windowEnd, checkedAdd] at hpast ⊢
  split_ifs at hpast ⊢
  · rw [Option.getD_some] at hpast ⊢
    omega
  · rw [Option.getD_none] at hpast ⊢
    omega

/-- A display window reads the bytes it was asked for and aligns them. -/
theorem beginViewport_answers {snapshot : PagedSnapshot} (h : snapshot.Built)
    {start maxBytes : Nat} {budget budget' : Heap} {request : WindowRequest}
    (hok : snapshot.beginViewport start maxBytes budget = .ok (request, budget')) :
    start ≤ snapshot.windowEnd start maxBytes ∧
      Answers request (PartsAnswer snapshot.text ⟨start, snapshot.windowEnd start maxBytes⟩) := by
  obtain ⟨⟨read, heap⟩, hread, hrequest⟩ := bind_ok.mp hok
  obtain ⟨rfl, -⟩ := Prod.mk.inj (Except.ok.inj hrequest)
  obtain ⟨hbegun, rfl, hrange, -, hcontext⟩ := beginRead_ok h hread
  have hordered := hbegun.ordered
  have hinside := hbegun.inside
  rw [hrange] at hordered hinside
  refine ⟨hordered, ?_⟩
  have haligned : Begun { read with alignEdges := true } :=
    ⟨hbegun.built, hbegun.cursor, hbegun.stop, hbegun.ordered, hbegun.inside, hbegun.bytes,
      hbegun.reserved⟩
  refine haligned.partsAnswers hordered hinside ?_
  rw [WindowRequest.settle]
  dsimp only
  rw [hcontext, hrange]
  rfl

/-- A line window reads one byte more on each side, to clip and align the ones it was asked
for. -/
theorem beginLineViewport_answers {snapshot : PagedSnapshot} (h : snapshot.Built)
    {start maxBytes : Nat} {budget budget' : Heap} {request : WindowRequest}
    (hok : snapshot.beginLineViewport start maxBytes budget = .ok (request, budget')) :
    start ≤ snapshot.windowEnd start maxBytes ∧
      Answers request (PartsAnswer snapshot.text
        (clip snapshot.text ⟨start, snapshot.windowEnd start maxBytes⟩)) := by
  obtain ⟨⟨read, heap⟩, hread, hrequest⟩ := bind_ok.mp hok
  obtain ⟨rfl, -⟩ := Prod.mk.inj (Except.ok.inj hrequest)
  have hend := windowEnd_le snapshot start maxBytes
  have hpast := @windowEnd_past snapshot start maxBytes
  generalize snapshot.windowEnd start maxBytes = stop at hread hend hpast ⊢
  obtain ⟨hbegun, rfl, hrange, -, -⟩ := beginRead_ok h hread
  have hordered := hbegun.ordered
  rw [hrange] at hordered
  dsimp only at hordered
  have hlen := h.len_eq
  have hle : start ≤ stop := by
    by_contra hno
    have := hpast (Nat.lt_of_not_le hno)
    rw [if_neg (by omega), if_neg (by omega)] at hordered
    omega
  obtain ⟨hfrom, hclip, hto⟩ := clip_bounds (t := read.snapshot.text)
    (show Range.start ⟨start, stop⟩ ≤ Range.stop ⟨start, stop⟩ from hle)
  refine ⟨hle, ?_⟩
  have hlined : ∀ context, Begun { read with alignEdges := true, context := context } :=
    fun context => ⟨hbegun.built, hbegun.cursor, hbegun.stop, hbegun.ordered, hbegun.inside,
      hbegun.bytes, hbegun.reserved⟩
  refine (hlined _).partsAnswers hclip (by dsimp only at hto ⊢; omega) ?_
  rw [WindowRequest.settle]
  dsimp only
  rw [hrange]
  rw [trims_spec hle (hlen ▸ hend) rfl (by rw [hlen])]
  rfl

theorem scan_lf (t : Bytes) : Codec.scan (LF :: t) = .valid 1 := by
  unfold Codec.scan
  exact if_pos (by decide)

/-- No edge of a clipped request is inside a CR LF. -/
theorem clip_apart {t : Bytes} {asked : Range} (hempty : asked.stop ≤ asked.start →
    t.length ≤ asked.start) (hle : asked.start ≤ asked.stop) :
    ¬insidePair t (clip t asked).start ∧ ¬insidePair t (clip t asked).stop := by
  by_cases hnone : asked.stop ≤ asked.start
  · rw [clip, if_pos hnone]
    exact ⟨not_insidePair_end (hempty hnone),
      not_insidePair_end (Nat.le_trans (hempty hnone) hle)⟩
  refine ⟨?_, ?_⟩
  · by_cases hpair : insidePair t asked.start
    · rw [clip, if_neg hnone, if_pos hpair]
      exact insidePair_apart hpair
    · rw [clip_start hpair]
      exact hpair
  · by_cases hpair : insidePair t asked.stop
    · rw [clip, if_neg hnone, if_pos hpair]
      intro hinside
      have hnext := insidePair_apart hinside
      rw [Nat.sub_add_cancel hpair.1] at hnext
      exact hnext hpair
    · rw [clip_stop hpair]
      exact hpair

/-- Neither scalar cut moves an edge into a CR LF. -/
theorem PartsAnswer.apart {t : Bytes} {asked : Range} {out : WindowPoll}
    (h : PartsAnswer t (clip t asked) out) (hle : asked.start ≤ asked.stop)
    (hin : asked.stop ≤ t.length) (hempty : asked.stop ≤ asked.start → t.length ≤ asked.start)
    {window : TextWindow} (hready : out = .ready window) :
    ¬insidePair t window.range.start ∧ ¬insidePair t window.range.stop := by
  obtain ⟨conts, tail, hparts, hstart, htext, hstop⟩ := h.window window hready
  obtain ⟨hfrom, hto⟩ := clip_apart hempty hle
  obtain ⟨-, hordered, hend⟩ := clip_bounds (t := t) hle
  have hpre : (t.take (clip t asked).start).length = (clip t asked).start := by
    rw [List.length_take]
    omega
  refine ⟨fun hpair => ?_, fun hpair => ?_⟩
  · by_cases hnone : conts = []
    · rw [hnone, List.length_nil, Nat.add_zero] at hstart
      exact hfrom (hstart ▸ hpair)
    -- the byte before the edge continues a scalar, so it is no CR
    have hpos := List.length_pos_iff.mpr hnone
    refine hparts.not_clean_front (a := window.range.start - 1) (by omega) (by omega) fun b hb => ?_
    rw [List.head?_drop, hpair.2.1] at hb
    obtain rfl := Option.some.inj hb
    decide
  · by_cases hnone : tail = []
    · rw [hnone, List.length_nil, Nat.add_zero] at hstop
      exact hto (hstop ▸ hpair)
    -- the byte behind the edge starts a longer scalar, so it is no LF
    have hback := hparts.drop_back
    rw [hpre, hstart, htext] at hback
    have hhead := hpair.2.2
    rw [← List.head?_drop, hback, List.head?_append_of_ne_nil _ hnone] at hhead
    obtain ⟨b, more, rfl⟩ := List.exists_cons_of_ne_nil hnone
    obtain rfl := Option.some.inj hhead
    have hcut := (hparts.tail.resolve_left hnone).1
    rw [scan_lf] at hcut
    cases hcut

/-- What a display window answers for `asked`. -/
structure ViewportAnswer (t : Bytes) (asked : Range) (out : WindowPoll) : Prop where
  window : ∀ window, out = .ready window →
    window.text = window.range.of t ∧ Viewport t asked window.range
  invalid : out = .invalidUtf8 → Malformed t asked ∨ EndTruncates t asked

theorem PartsAnswer.viewport {t : Bytes} {asked : Range} {out : WindowPoll}
    (h : PartsAnswer t asked out) (hin : asked.start ≤ t.length) : ViewportAnswer t asked out :=
  ⟨fun _ hready => h.exact hin hready, h.invalid⟩

/-- Every window that any paging ends in is exact; a display window is the largest one, and a
line window of at least one byte has no edge inside a CR LF. -/
theorem window_reads_exact {snapshot : PagedSnapshot} (h : snapshot.Built) :
    (∀ range maxBytes budget request budget',
      snapshot.beginRead range maxBytes budget = .ok (request, budget') →
      Answers request fun out => ∀ window, out = .ready window →
        window.range = range ∧ window.text = range.of snapshot.text) ∧
    (∀ start maxBytes budget request budget',
      snapshot.beginViewport start maxBytes budget = .ok (request, budget') →
      Answers request
        (ViewportAnswer snapshot.text ⟨start, snapshot.windowEnd start maxBytes⟩)) ∧
    (∀ start maxBytes budget request budget',
      snapshot.beginLineViewport start maxBytes budget = .ok (request, budget') →
      Answers request fun out =>
        ViewportAnswer snapshot.text
          (clip snapshot.text ⟨start, snapshot.windowEnd start maxBytes⟩) out ∧
        (0 < maxBytes → ∀ window, out = .ready window →
          ¬insidePair snapshot.text window.range.start ∧
            ¬insidePair snapshot.text window.range.stop)) := by
  have hlen := h.len_eq
  refine ⟨?_, ?_, ?_⟩
  · intro range maxBytes budget request budget' hok
    obtain ⟨hbegun, rfl, rfl, halign, hcontext⟩ := beginRead_ok h hok
    have hsettle : ∀ bytes, request.settle bytes = ⟨request.range, bytes⟩ := fun bytes => by
      rw [WindowRequest.settle, hcontext, halign]
      rfl
    refine hbegun.answers (fun window hrange htext window' heq => ?_)
      (fun err herr window heq => (nomatch heq))
      fun out hready _ window heq => absurd heq (hready window)
    obtain rfl := WindowPoll.ready.inj heq
    rw [hsettle] at hrange htext
    exact ⟨hrange, (fromUtf8_eq_ok htext).1⟩
  · intro start maxBytes budget request budget' hok
    obtain ⟨hle, hanswers⟩ := beginViewport_answers h hok
    have hend := windowEnd_le snapshot start maxBytes
    exact hanswers.mono fun out hparts => hparts.viewport (by dsimp only; omega)
  · intro start maxBytes budget request budget' hok
    obtain ⟨hle, hanswers⟩ := beginLineViewport_answers h hok
    have hend := windowEnd_le snapshot start maxBytes
    obtain ⟨-, hordered, hto⟩ := clip_bounds (t := snapshot.text)
      (show Range.start ⟨start, snapshot.windowEnd start maxBytes⟩ ≤ _ from hle)
    dsimp only at hto
    refine hanswers.mono fun out hparts =>
      ⟨hparts.viewport (by omega), fun hmax window hready => ?_⟩
    refine hparts.apart hle (by dsimp only; omega) (fun hempty => ?_) hready
    exact hlen ▸ windowEnd_pos hmax hempty

/-- A CR in an owned leaf and its LF on a page of one byte. -/
def seamSnapshot : PagedSnapshot :=
  ⟨some (branch (.leaf (.new ⟨0, [97, 13], none, true⟩ ⟨0, 2⟩))
    (.source ⟨1, [10, 98], 1, false⟩ ⟨0, 2⟩)), 7, 3⟩

/-- A window that would end between the two ends before both. -/
theorem window_reads_exact_seam :
    ∃ request budget, seamSnapshot.beginLineViewport 0 2 ⟨64, 0, 0⟩ = .ok (request, budget) ∧
      Answers request fun out => ∀ window, out = .ready window →
        window.text = window.range.of [97, 13, 10, 98] ∧
          ¬insidePair [97, 13, 10, 98] window.range.stop := by
  have hbuilt : seamSnapshot.Built := by
    refine ⟨?_, ?_⟩
    · intro node hnode
      obtain rfl := Option.some.inj hnode
      exact branch_wf ⟨by decide, by decide, rfl⟩ ⟨rfl, by decide, by decide⟩
    · intro node hnode
      obtain rfl := Option.some.inj hnode
      exact ⟨trivial, Nat.one_pos⟩
  refine ⟨_, _, rfl, ?_⟩
  have hanswers := (window_reads_exact hbuilt).2.2 0 2 ⟨64, 0, 0⟩ _ _ rfl
  refine hanswers.mono fun out hout window hready => ?_
  exact ⟨(hout.1.window window hready).1, (hout.2 (by decide) window hready).2⟩

/-- One page of raw bytes. -/
def pageSnapshot (raw : Bytes) : PagedSnapshot :=
  ⟨some (.source ⟨1, raw, 4, false⟩ ⟨0, raw.length⟩), 7, 3⟩

/-- The answer of a request whose pages are at hand. -/
def answerHeld (begun : Except Error (WindowRequest × Heap)) : Option WindowPoll :=
  (begun.toOption.bind fun begun => begun.1.poll fun _ => .held).map Prod.fst

/-- A window inside one scalar is empty at an offset that is no boundary, and a line window of no
bytes stays between the CR and the LF it was asked for. -/
theorem empty_window_off_boundary :
    (answerHeld ((pageSnapshot [0xF0, 0x9F, 0x98, 0x80]).beginViewport 1 1 ⟨64, 0, 0⟩) =
        some (.ready ⟨⟨2, 2⟩, [], 7, 3, 1⟩) ∧
      isCharBoundary (pageSnapshot [0xF0, 0x9F, 0x98, 0x80]).text 2 = false) ∧
    (answerHeld ((pageSnapshot [13, 10]).beginLineViewport 1 0 ⟨64, 0, 0⟩) =
        some (.ready ⟨⟨1, 1⟩, [], 7, 3, 2⟩) ∧
      insidePair (pageSnapshot [13, 10]).text 1) := by
  decide +kernel

end BareLine.Window
