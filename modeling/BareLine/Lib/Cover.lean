import BareLine.Basic

/-!
# Ranges that cover offsets

Ranges sorted by their starts are merged where they meet, and offsets that go down are looked up
among them with a cursor that only goes down.
-/

namespace BareLine.Lib

/-! ## §1 Merging -/

/-- An offset lies in one of the ranges. -/
def Covered (ranges : List Range) (o : Nat) : Prop :=
  ∃ r ∈ ranges, r.start ≤ o ∧ o < r.stop

/-- The ranges behind one that may still grow. -/
def mergeFrom : Range → List Range → List Range
  | last, [] => [last]
  | last, r :: rest =>
    if r.start ≤ last.stop then mergeFrom ⟨last.start, max last.stop r.stop⟩ rest
    else last :: mergeFrom r rest

/-- Ranges in order, merged where they meet. -/
def mergeRanges : List Range → List Range
  | [] => []
  | r :: rest => mergeFrom r rest

theorem covered_cons {r : Range} {ranges : List Range} {o : Nat} :
    Covered (r :: ranges) o ↔ r.start ≤ o ∧ o < r.stop ∨ Covered ranges o := by
  rw [Covered, List.exists_mem_cons_iff]
  rfl

theorem mergeFrom_spec {last : Range} {ranges : List Range}
    (hsorted : (last :: ranges).Pairwise fun a b => a.start ≤ b.start) :
    (mergeFrom last ranges).Pairwise (fun a b => a.stop < b.start) ∧
      (∀ r ∈ mergeFrom last ranges, last.start ≤ r.start) ∧
      ∀ o, Covered (mergeFrom last ranges) o ↔ Covered (last :: ranges) o := by
  induction ranges generalizing last with
  | nil =>
    refine ⟨List.pairwise_singleton _ _, fun r hr => ?_, fun o => Iff.rfl⟩
    exact Nat.le_of_eq (congrArg Range.start (List.mem_singleton.mp hr).symm)
  | cons r rest ih =>
    obtain ⟨hlast, hrest⟩ := List.pairwise_cons.mp hsorted
    have hr : last.start ≤ r.start := hlast r (List.mem_cons_self ..)
    rw [mergeFrom]
    split_ifs with hmeet
    · obtain ⟨hapart, hstarts, hcovered⟩ := @ih ⟨last.start, max last.stop r.stop⟩
        (List.pairwise_cons.mpr ⟨fun x hx => hlast x (List.mem_cons_of_mem _ hx),
          (List.pairwise_cons.mp hrest).2⟩)
      refine ⟨hapart, hstarts, fun o => ?_⟩
      rw [hcovered, covered_cons, covered_cons, covered_cons, ← or_assoc]
      refine or_congr_left ?_
      dsimp only
      omega
    · obtain ⟨hapart, hstarts, hcovered⟩ := ih hrest
      refine ⟨List.pairwise_cons.mpr ⟨fun x hx => ?_, hapart⟩,
        List.forall_mem_cons.mpr ⟨Nat.le_refl _, fun x hx => Nat.le_trans hr (hstarts x hx)⟩,
        fun o => ?_⟩
      · exact Nat.lt_of_lt_of_le (Nat.lt_of_not_le hmeet) (hstarts x hx)
      · exact covered_cons.trans ((or_congr_right (hcovered o)).trans covered_cons.symm)

/-- Merged ranges are apart and cover the same offsets. -/
theorem mergeRanges_spec {ranges : List Range}
    (hsorted : ranges.Pairwise fun a b => a.start ≤ b.start) :
    (mergeRanges ranges).Pairwise (fun a b => a.stop < b.start) ∧
      ∀ o, Covered (mergeRanges ranges) o ↔ Covered ranges o := by
  cases ranges with
  | nil => exact ⟨.nil, fun o => Iff.rfl⟩
  | cons r rest =>
    obtain ⟨hapart, -, hcovered⟩ := mergeFrom_spec hsorted
    exact ⟨hapart, hcovered⟩

/-! ## §2 The cursor -/

/-- The cursor behind the last range that starts at or before an offset. -/
def cursorDown (ranges : List Range) (offset : Nat) : Nat → Nat
  | 0 => 0
  | cursor + 1 =>
    if ranges[cursor]?.any fun r => offset < r.start then cursorDown ranges offset cursor
    else cursor + 1

/-- The offset lies in the range in front of the cursor. -/
def coveredAt (ranges : List Range) (offset : Nat) : Nat → Bool
  | 0 => false
  | cursor + 1 => ranges[cursor]?.any fun r => offset < r.stop

/-- The ranges from the cursor on start behind an offset. -/
structure StartBehind (ranges : List Range) (offset cursor : Nat) : Prop where
  le : cursor ≤ ranges.length
  behind : ∀ i r, cursor ≤ i → ranges[i]? = some r → offset < r.start

variable {ranges : List Range} {offset cursor : Nat}

theorem StartBehind.mono {offset' : Nat} (h : StartBehind ranges offset cursor)
    (hle : offset' ≤ offset) : StartBehind ranges offset' cursor where
  le := h.le
  behind i r hi hr := Nat.lt_of_le_of_lt hle (h.behind i r hi hr)

theorem startBehind_length (ranges : List Range) (offset : Nat) :
    StartBehind ranges offset ranges.length where
  le := Nat.le_refl _
  behind i r hi hr := by
    rw [List.getElem?_eq_none hi] at hr
    exact nomatch hr

theorem cursorDown_spec (h : StartBehind ranges offset cursor) :
    StartBehind ranges offset (cursorDown ranges offset cursor) ∧
      ∀ k r, cursorDown ranges offset cursor = k + 1 → ranges[k]? = some r → r.start ≤ offset := by
  induction cursor with
  | zero => exact ⟨h, nofun⟩
  | succ cursor ih =>
    rw [cursorDown]
    split_ifs with hbehind
    · refine ih ⟨Nat.le_of_succ_le h.le, fun i r hi hr => ?_⟩
      rcases Nat.eq_or_lt_of_le hi with rfl | hlt
      · rw [hr, Option.any_some, decide_eq_true_iff] at hbehind
        exact hbehind
      · exact h.behind i r hlt hr
    · refine ⟨h, fun k r hk hr => ?_⟩
      obtain rfl : cursor = k := Nat.succ.inj hk
      rw [hr, Option.any_some, decide_eq_true_iff] at hbehind
      exact Nat.le_of_not_lt hbehind

/-- The range in front of the cursor is the only one the offset may lie in. -/
theorem coveredAt_iff (hapart : ranges.Pairwise fun a b => a.stop < b.start)
    (h : StartBehind ranges offset cursor) :
    coveredAt ranges offset (cursorDown ranges offset cursor) = true ↔ Covered ranges offset := by
  obtain ⟨hbehind, hstart⟩ := cursorDown_spec h
  generalize cursorDown ranges offset cursor = k at hbehind hstart ⊢
  constructor
  · intro hcovered
    cases k with
    | zero => exact nomatch hcovered
    | succ k =>
      obtain ⟨r, hr, hstop⟩ := (Option.any_eq_true _ _).mp hcovered
      exact ⟨r, List.mem_of_getElem? hr, hstart k r rfl hr, by simpa using hstop⟩
  · rintro ⟨r, hr, hlo, hhi⟩
    obtain ⟨i, hi⟩ := List.mem_iff_getElem?.mp hr
    have hlt : i < k := by
      by_contra hge
      have := hbehind.behind i r (Nat.le_of_not_lt hge) hi
      omega
    cases k with
    | zero => exact absurd hlt (Nat.not_lt_zero i)
    | succ k =>
      rcases Nat.eq_or_lt_of_le (Nat.le_of_lt_succ hlt) with rfl | hbefore
      · rw [coveredAt, hi, Option.any_some, decide_eq_true_iff]
        exact hhi
      · -- the range in front of the cursor starts behind this one's end
        have hk : k < ranges.length := hbehind.le
        have hget := List.getElem?_eq_getElem hk
        have hnext := hstart k _ rfl hget
        have hi' := (List.getElem?_eq_some_iff.mp hi).1
        have hbetween := List.pairwise_iff_getElem.mp hapart i k hi' hk hbefore
        rw [(List.getElem?_eq_some_iff.mp hi).2] at hbetween
        omega

/-! ## §3 Fronts of sorted lists -/

/-- Where a test that fails once fails from there on, all that pass it are in front. -/
theorem mem_takeWhile_of_sorted {α : Type} {p : α → Bool} {l : List α}
    (h : l.Pairwise fun a b => p b = true → p a = true) {x : α} (hx : x ∈ l) (hp : p x = true) :
    x ∈ l.takeWhile p := by
  induction h with
  | nil => exact nomatch hx
  | @cons a l ha _ ih =>
    rcases List.mem_cons.mp hx with rfl | hx
    · rw [List.takeWhile_cons_of_pos hp]
      exact List.mem_cons_self ..
    · rw [List.takeWhile_cons_of_pos (ha x hx hp)]
      exact List.mem_cons_of_mem _ (ih hx)

theorem mem_dropWhile_of_neg {α : Type} {p : α → Bool} {l : List α} {x : α} (hx : x ∈ l)
    (hp : ¬p x = true) : x ∈ l.dropWhile p := by
  rw [← List.takeWhile_append_dropWhile (p := p) (l := l)] at hx
  exact (List.mem_append.mp hx).resolve_left fun hmem => hp (List.mem_takeWhile_imp hmem)

end BareLine.Lib
