import BareLine.Lib.Splice

/-!
# Offsets through a batch of splices

An ordered batch turns a list into another one; an offset in the first has an image in the
second.  `after` puts the image behind what is inserted at the offset or replaced around it,
`before` in front of it.
-/

namespace BareLine.Lib.Relocation

variable {α : Type*}

/-! ## §1 Images of offsets -/

/-- The image of `x` behind the text put in its place; the lists start at `c` and at `d`. -/
def after : Nat → Nat → List (Splice α) → Nat → Nat
  | c, d, [], x => d + (x - c)
  | c, d, e :: es, x =>
    if e.stop ≤ x then after e.stop (d + (e.start - c) + e.insert.length) es x
    else if e.start < x then d + (e.start - c) + e.insert.length
    else d + (x - c)

/-- The image of `x` in front of the text put in its place. -/
def before : Nat → Nat → List (Splice α) → Nat → Nat
  | c, d, [], x => d + (x - c)
  | c, d, e :: es, x =>
    if e.stop < x then before e.stop (d + (e.start - c) + e.insert.length) es x
    else d + (min e.start x - c)

/-- Each splice with the offset its text gets. -/
def placed : Nat → Nat → List (Splice α) → List (Splice α × Nat)
  | _, _, [] => []
  | c, d, e :: es => (e, d + (e.start - c)) ::
    placed e.stop (d + (e.start - c) + e.insert.length) es

/-- No splice takes the element at an offset away. -/
def Untouched (es : List (Splice α)) (p : Nat) : Prop := ∀ e ∈ es, ¬(e.start ≤ p ∧ p < e.stop)

theorem untouched_cons {e : Splice α} {es : List (Splice α)} {p : Nat} :
    Untouched (e :: es) p ↔ ¬(e.start ≤ p ∧ p < e.stop) ∧ Untouched es p :=
  List.forall_mem_cons

/-- In front of a batch nothing is touched. -/
theorem untouched_of_lt {c n p : Nat} {es : List (Splice α)} (h : Ordered c es n) (hp : p < c) :
    Untouched es p := fun e he ⟨hstart, _⟩ => by
  have := (h.mem he).1
  omega

/-! ## §2 Order -/

variable {c d n x y p : Nat} {es : List (Splice α)}

theorem le_after (hc : c ≤ x) : d ≤ after c d es x := by
  induction es generalizing c d with
  | nil => exact Nat.le_add_right _ _
  | cons e es ih =>
    rw [after]
    split_ifs with hstop hstart
    · have := ih (d := d + (e.start - c) + e.insert.length) hstop
      omega
    · omega
    · omega

theorem before_of_le (h : Ordered c es n) (hx : x ≤ c) : before c d es x = d := by
  cases es with
  | nil => rw [before]; omega
  | cons e es =>
    obtain ⟨hc, hse, -⟩ := h
    rw [before, if_neg (by omega)]
    omega

theorem before_le_after (h : Ordered c es n) (hc : c ≤ x) :
    before c d es x ≤ after c d es x := by
  induction es generalizing c d with
  | nil => exact Nat.le_refl _
  | cons e es ih =>
    obtain ⟨hce, hse, hrest⟩ := h
    rw [before, after]
    by_cases hlt : e.stop < x
    · rw [if_pos hlt, if_pos (Nat.le_of_lt hlt)]
      exact ih hrest (Nat.le_of_lt hlt)
    · rw [if_neg hlt]
      split_ifs with hstop hstart
      · have : _ ≤ after e.stop (d + (e.start - c) + e.insert.length) es _ := le_after hstop
        omega
      · omega
      · omega

theorem after_mono (h : Ordered c es n) (hc : c ≤ x) (hxy : x ≤ y) :
    after c d es x ≤ after c d es y := by
  induction es generalizing c d with
  | nil =>
    rw [after, after]
    omega
  | cons e es ih =>
    obtain ⟨hce, hse, hrest⟩ := h
    rw [after, after]
    by_cases hstop : e.stop ≤ x
    · rw [if_pos hstop, if_pos (Nat.le_trans hstop hxy)]
      exact ih hrest hstop
    · rw [if_neg hstop]
      by_cases hstop' : e.stop ≤ y
      · have : _ ≤ after e.stop (d + (e.start - c) + e.insert.length) es _ := le_after hstop'
        rw [if_pos hstop']
        split_ifs <;> omega
      · rw [if_neg hstop']
        split_ifs <;> omega

/-! ## §3 Elements that stay -/

/-- An element that stays takes up room. -/
theorem after_lt (h : Ordered c es n) (hc : c ≤ p) (hp : Untouched es p) :
    after c d es p < after c d es (p + 1) := by
  induction es generalizing c d with
  | nil =>
    rw [after, after]
    omega
  | cons e es ih =>
    obtain ⟨hce, hse, hrest⟩ := h
    obtain ⟨hout, hp⟩ := untouched_cons.mp hp
    rw [after, after]
    by_cases hstop : e.stop ≤ p
    · rw [if_pos hstop, if_pos (Nat.le_succ_of_le hstop)]
      exact ih hrest hstop hp
    · rw [if_neg hstop, if_neg (show ¬e.start < p by omega)]
      by_cases hstop' : e.stop ≤ p + 1
      · have : _ ≤ after e.stop (d + (e.start - c) + e.insert.length) es _ := le_after hstop'
        rw [if_pos hstop']
        omega
      · rw [if_neg hstop', if_neg (show ¬e.start < p + 1 by omega)]
        omega

/-- The image of the end of the list is the end of the new list. -/
theorem after_length {t : List α} (h : Ordered c es (c + t.length)) :
    after c d es (c + t.length) = d + (spliceFrom c es t).length := by
  induction es generalizing c d t with
  | nil =>
    rw [after, spliceFrom]
    omega
  | cons e es ih =>
    obtain ⟨hce, hse, hrest⟩ := h
    have hstop := hrest.le
    have hlen : c + t.length = e.stop + (t.drop (e.stop - c)).length := by
      rw [List.length_drop]
      omega
    rw [after, if_pos hstop, spliceFrom, hlen, ih (hlen ▸ hrest)]
    simp only [List.length_append, List.length_take]
    omega

/-- An element that stays is at the image of its offset. -/
theorem getElem?_after {t : List α} (h : Ordered c es (c + t.length)) (hc : c ≤ p)
    (hp : Untouched es p) : (spliceFrom c es t)[after c d es p - d]? = t[p - c]? := by
  induction es generalizing c d t with
  | nil => rw [after, spliceFrom, Nat.add_sub_cancel_left]
  | cons e es ih =>
    obtain ⟨hce, hse, hrest⟩ := h
    obtain ⟨hout, hp⟩ := untouched_cons.mp hp
    have hstop := hrest.le
    have htake : (t.take (e.start - c)).length = e.start - c := by
      rw [List.length_take]
      omega
    rw [after, spliceFrom]
    by_cases hle : e.stop ≤ p
    · have hlen : c + t.length = e.stop + (t.drop (e.stop - c)).length := by
        rw [List.length_drop]
        omega
      have hroom : _ ≤ after e.stop (d + (e.start - c) + e.insert.length) es _ := le_after hle
      rw [if_pos hle, List.getElem?_append_right (by
        rw [List.length_append, htake]
        omega)]
      rw [show after e.stop (d + (e.start - c) + e.insert.length) es p - d -
        (t.take (e.start - c) ++ e.insert).length =
        after e.stop (d + (e.start - c) + e.insert.length) es p -
          (d + (e.start - c) + e.insert.length) by rw [List.length_append, htake]; omega]
      rw [ih (hlen ▸ hrest) hle hp, List.getElem?_drop]
      congr 1
      omega
    · have hlt : p < e.start := by omega
      rw [if_neg hle, if_neg (by omega), List.append_assoc,
        List.getElem?_append_left (by rw [htake]; omega), List.getElem?_take_of_lt (by omega),
        Nat.add_sub_cancel_left]

/-! ## §4 Between two images -/

/-- A splice is met by a range: it ends behind the range's start or at it, and starts in front of
the range's end or inserts there. -/
def Meets (start stop : Nat) (e : Splice α) : Prop :=
  start ≤ e.stop ∧ (e.start < stop ∨ e.stop ≤ stop)

theorem after_cons_front {e : Splice α} (hse : e.start ≤ e.stop) (hp : p < e.start) :
    after c d (e :: es) p = d + (p - c) := by
  rw [after, if_neg (by omega), if_neg (by omega)]

theorem after_cons_behind {e : Splice α} (hp : e.stop ≤ p) :
    after c d (e :: es) p = after e.stop (d + (e.start - c) + e.insert.length) es p := by
  rw [after, if_pos hp]

theorem mem_of_placed {f : Splice α × Nat} (h : f ∈ placed c d es) : f.1 ∈ es := by
  induction es generalizing c d with
  | nil => exact nomatch h
  | cons e es ih =>
    obtain rfl | h := List.mem_cons.mp h
    · exact List.mem_cons_self
    · exact List.mem_cons_of_mem _ (ih h)

/-- `q` is where an element of the range goes that stays. -/
def Stays (c d : Nat) (es : List (Splice α)) (x y q : Nat) : Prop :=
  ∃ p, x ≤ p ∧ p < y ∧ Untouched es p ∧ after c d es p = q

/-- `q` is in the text of a splice that the range meets. -/
def Written (c d : Nat) (es : List (Splice α)) (x y q : Nat) : Prop :=
  ∃ f ∈ placed c d es, Meets x y f.1 ∧ f.2 ≤ q ∧ q < f.2 + f.1.insert.length

section Cons

variable {e : Splice α} {q : Nat}

/-- A range behind the first splice. -/
theorem stays_cons_behind (hx : e.stop ≤ x) : Stays c d (e :: es) x y q ↔
    Stays e.stop (d + (e.start - c) + e.insert.length) es x y q := by
  refine exists_congr fun p => and_congr_right fun hxp => ?_
  rw [untouched_cons, after_cons_behind (hx.trans hxp)]
  have hout : ¬(e.start ≤ p ∧ p < e.stop) := by omega
  simp only [hout, not_false_eq_true, true_and]

/-- A range that ends behind the first splice. -/
theorem stays_cons_over (hce : c ≤ e.start) (hse : e.start ≤ e.stop) (hrest : Ordered e.stop es n)
    (hc : c ≤ x) (hx : x ≤ e.stop) (hy : e.stop ≤ y) : Stays c d (e :: es) x y q ↔
      (d + (min e.start x - c) ≤ q ∧ q < d + (e.start - c)) ∨
      Stays e.stop (d + (e.start - c) + e.insert.length) es e.stop y q := by
  constructor
  · rintro ⟨p, hxp, hpy, hp, rfl⟩
    obtain ⟨hout, hp⟩ := untouched_cons.mp hp
    by_cases hfront : p < e.start
    · rw [after_cons_front hse hfront]
      exact .inl (by omega)
    · exact .inr ⟨p, by omega, hpy, hp, (after_cons_behind (by omega)).symm⟩
  · rintro (hq | ⟨p, hp, hpy, hout, rfl⟩)
    · refine ⟨q - d + c, by omega, by omega, untouched_cons.mpr ⟨by omega, ?_⟩, ?_⟩
      · exact untouched_of_lt hrest (by omega)
      · rw [after_cons_front hse (by omega)]
        omega
    · exact ⟨p, hx.trans hp, hpy, untouched_cons.mpr ⟨by omega, hout⟩, after_cons_behind hp⟩

/-- A range that ends in front of the end of the first splice. -/
theorem stays_cons_front (hse : e.start ≤ e.stop) (hrest : Ordered e.stop es n)
    (hc : c ≤ x) (hy : y < e.stop) : Stays c d (e :: es) x y q ↔
      d + (x - c) ≤ q ∧ q < d + (min e.start y - c) := by
  constructor
  · rintro ⟨p, hxp, hpy, hp, rfl⟩
    obtain ⟨hout, -⟩ := untouched_cons.mp hp
    rw [after_cons_front hse (by omega)]
    omega
  · intro hq
    refine ⟨q - d + c, by omega, by omega, untouched_cons.mpr ⟨by omega, ?_⟩, ?_⟩
    · exact untouched_of_lt hrest (by omega)
    · rw [after_cons_front hse (by omega)]
      omega

theorem written_cons : Written c d (e :: es) x y q ↔
    (Meets x y e ∧ d + (e.start - c) ≤ q ∧ q < d + (e.start - c) + e.insert.length) ∨
    Written e.stop (d + (e.start - c) + e.insert.length) es x y q := by
  rw [Written, placed, List.exists_mem_cons_iff]
  rfl

/-- Behind a splice the range may start at its end. -/
theorem written_from (hrest : Ordered c es n) (hx : x ≤ c) :
    Written c d es x y q ↔ Written c d es c y q := by
  refine exists_congr fun f => and_congr_right fun hf => and_congr_left fun _ => ?_
  have := hrest.mem (mem_of_placed hf)
  rw [Meets, Meets]
  omega

/-- Splices behind a range do not meet it. -/
theorem not_written (hrest : Ordered c es n) (hy : y < c) : ¬Written c d es x y q := by
  rintro ⟨f, hf, hmeets, -⟩
  have := hrest.mem (mem_of_placed hf)
  rw [Meets] at hmeets
  omega

end Cons

/-- Between the images of a range's ends lie exactly the elements of the range that stay and the
texts of the splices it meets. -/
theorem mem_between (h : Ordered c es n) (hc : c ≤ x) (hxy : x ≤ y) (q : Nat) :
    (before c d es x ≤ q ∧ q < after c d es y) ↔
      Stays c d es x y q ∨ Written c d es x y q := by
  induction es generalizing c d x with
  | nil =>
    have hwritten : ¬Written c d ([] : List (Splice α)) x y q := fun ⟨f, hf, _⟩ => nomatch hf
    rw [or_iff_left hwritten, before, after]
    constructor
    · exact fun hq => ⟨q - d + c, by omega, by omega, nofun, by rw [after]; omega⟩
    · rintro ⟨p, hxp, hpy, -, rfl⟩
      rw [after]
      omega
  | cons e es ih =>
    obtain ⟨hce, hse, hrest⟩ := h
    rw [written_cons, before]
    by_cases hbehind : e.stop < x
    · have hmeets : ¬Meets x y e := by
        rw [Meets]
        omega
      rw [if_pos hbehind, after_cons_behind (hbehind.le.trans hxy), stays_cons_behind hbehind.le,
        ih hrest hbehind.le hxy]
      simp only [hmeets, false_and, false_or]
    · rw [if_neg hbehind]
      by_cases hover : e.stop ≤ y
      · have hmeets : Meets x y e := ⟨by omega, .inr hover⟩
        have hroom : _ ≤ after e.stop (d + (e.start - c) + e.insert.length) es _ := le_after hover
        rw [after_cons_behind hover, stays_cons_over hce hse hrest hc (by omega) hover,
          written_from hrest (by omega : x ≤ e.stop)]
        have hih := ih (d := d + (e.start - c) + e.insert.length) hrest (Nat.le_refl _) hover
        rw [before_of_le hrest (Nat.le_refl _)] at hih
        simp only [hmeets, true_and]
        rw [or_assoc, or_left_comm (b := _ ∧ _), ← hih]
        omega
      · have hnot := not_written (d := d + (e.start - c) + e.insert.length) (x := x) (q := q)
          hrest (by omega : y < e.stop)
        rw [stays_cons_front hse hrest hc (by omega), or_iff_left hnot, after, if_neg hover, Meets]
        split_ifs <;> omega

end BareLine.Lib.Relocation
