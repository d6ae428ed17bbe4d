import Mathlib

/-!
# Line breaks in a byte string

Three terminators end a line: a lone CR, a lone LF, and CR LF, which counts once.  The
count of a prefix and whether it ends in CR are all a reader needs to continue past it,
so a scan is a fold over that pair (`LineScan`).

- `LineScan.run`: the fold; `breaks` and `endsCr` of a whole text.
- `endsLine`: whether a terminator ends at an offset.
- `lineAt`: the line an offset belongs to, an offset inside CR LF belonging to the line
  its CR ends; `StartsAt`: where a line starts.
-/

namespace BareLine.Lib

abbrev Bytes := List UInt8

/-- `b'\r'` -/
def CR : UInt8 := 13
/-- `b'\n'` -/
def LF : UInt8 := 10

theorem cr_ne_lf : CR ≠ LF := by decide

/-! ## §1 Scanning -/

/-- What a prefix tells a reader that continues past it. -/
structure LineScan where
  breaks : Nat
  precedingCr : Bool
  deriving DecidableEq, Repr

namespace LineScan

/-- Nothing scanned yet. -/
def start : LineScan := ⟨0, false⟩

/-- One byte: an LF right after a CR ends no further line. -/
def step (s : LineScan) (byte : UInt8) : LineScan :=
  if byte = CR then ⟨s.breaks + 1, true⟩
  else if byte = LF then ⟨if s.precedingCr then s.breaks else s.breaks + 1, false⟩
  else ⟨s.breaks, false⟩

def run (s : LineScan) (text : Bytes) : LineScan := text.foldl step s

@[simp] theorem run_nil (s : LineScan) : s.run [] = s := rfl

@[simp] theorem run_cons (s : LineScan) (b : UInt8) (t : Bytes) :
    s.run (b :: t) = (s.step b).run t := rfl

@[simp] theorem run_append (s : LineScan) (t u : Bytes) : s.run (t ++ u) = (s.run t).run u :=
  List.foldl_append

/-- The count only shifts a scan; the CR flag alone steers it. -/
theorem run_add (n k : Nat) (cr : Bool) (t : Bytes) :
    (LineScan.mk (n + k) cr).run t =
      ⟨n + ((LineScan.mk k cr).run t).breaks, ((LineScan.mk k cr).run t).precedingCr⟩ := by
  induction t generalizing k cr with
  | nil => rfl
  | cons b t ih =>
    simp only [run_cons, step]
    split_ifs
    · exact ih (k + 1) true
    · exact ih k false
    · exact ih (k + 1) false
    · exact ih k false

/-- After a nonempty text the CR flag is that of its last byte. -/
theorem run_precedingCr_concat (s : LineScan) (t : Bytes) (b : UInt8) :
    (s.run (t ++ [b])).precedingCr = decide (b = CR) := by
  simp only [run_append, run_cons, run_nil, step]
  split_ifs <;> simp_all

end LineScan

/-- Line terminators of `t`, CR LF counted once. -/
def breaks (t : Bytes) : Nat := (LineScan.start.run t).breaks

/-- Whether `t` ends in CR. -/
def endsCr (t : Bytes) : Bool := (LineScan.start.run t).precedingCr

theorem endsCr_eq_getLast (t : Bytes) : endsCr t = decide (t.getLast? = some CR) := by
  rcases List.eq_nil_or_concat t with rfl | ⟨t, b, rfl⟩
  · rfl
  · rw [endsCr, List.concat_eq_append, LineScan.run_precedingCr_concat]
    simp

theorem start_run_eq (t : Bytes) : LineScan.start.run t = ⟨breaks t, endsCr t⟩ := rfl

/-- The terminators of a concatenation: one fewer when the seam cuts a CR LF. -/
theorem run_from (n : Nat) (cr : Bool) (t : Bytes) :
    (LineScan.mk n cr).run t =
      ⟨n + ((LineScan.mk 0 cr).run t).breaks, ((LineScan.mk 0 cr).run t).precedingCr⟩ := by
  simpa using LineScan.run_add n 0 cr t

/-! ## §2 Lines -/

/-- A terminator ends just before `p`. -/
def endsLine (t : Bytes) : Nat → Bool
  | 0 => false
  | q + 1 => t[q]? == some LF || (t[q]? == some CR && t[q + 1]? != some LF)

/-- The number of terminators that end at or before an offset. -/
def lineAt (t : Bytes) : Nat → Nat
  | 0 => 0
  | o + 1 => lineAt t o + if endsLine t (o + 1) then 1 else 0

/-- Line `n` starts at `p`: at the beginning, or right behind the `n`-th terminator. -/
def StartsAt (t : Bytes) (n p : Nat) : Prop :=
  n = 0 ∧ p = 0 ∨ endsLine t p = true ∧ lineAt t p = n

/-- The offset lies between a CR and its LF. -/
def insidePair (t : Bytes) (o : Nat) : Prop :=
  0 < o ∧ t[o - 1]? = some CR ∧ t[o]? = some LF

instance (t : Bytes) (o : Nat) : Decidable (insidePair t o) := by
  unfold insidePair
  infer_instance

theorem breaks_concat (t : Bytes) (b : UInt8) :
    breaks (t ++ [b]) =
      breaks t + if b = CR ∨ b = LF ∧ endsCr t = false then 1 else 0 := by
  rw [breaks, LineScan.run_append, start_run_eq, LineScan.run_cons, LineScan.run_nil,
    LineScan.step]
  by_cases hcr : b = CR
  · simp [hcr]
  · by_cases hlf : b = LF
    · cases hends : endsCr t <;> simp [hlf, cr_ne_lf.symm]
    · simp [hcr, hlf]

theorem endsCr_take {t : Bytes} {o : Nat} (h : o ≤ t.length) :
    endsCr (t.take o) = decide (0 < o ∧ t[o - 1]? = some CR) := by
  rw [endsCr_eq_getLast]
  cases o with
  | zero => simp
  | succ o =>
    rw [List.getLast?_eq_getElem?, List.length_take, Nat.min_eq_left h,
      List.getElem?_take_of_lt (by omega)]
    simp

/-- The terminators of a front of the text, where a cut CR LF counts for its CR. -/
theorem lineAt_add_seam {t : Bytes} {o : Nat} (h : o ≤ t.length) :
    lineAt t o + (if insidePair t o then 1 else 0) = breaks (t.take o) := by
  induction o with
  | zero => rfl
  | succ o ih =>
    have hlt : o < t.length := h
    have ih := ih (Nat.le_of_lt hlt)
    have hbyte : t[o]? = some t[o] := List.getElem?_eq_getElem hlt
    rw [List.take_add_one, hbyte, Option.toList_some, breaks_concat,
      endsCr_take (Nat.le_of_lt hlt), ← ih, lineAt, endsLine]
    simp only [insidePair, Nat.add_sub_cancel, hbyte, Option.some.injEq]
    -- The byte decides: a CR, an LF with or without a CR before it, or another one.
    by_cases hcr : t[o] = CR
    · by_cases hnext : t[o + 1]? = some LF
      · simp [hcr, hnext, cr_ne_lf]
      · simp [hcr, hnext, cr_ne_lf]
    · by_cases hlf : t[o] = LF
      · by_cases hprevious : 0 < o ∧ t[o - 1]? = some CR
        · simp [hlf, hprevious, cr_ne_lf.symm]
        · simp only [hlf, hprevious, cr_ne_lf.symm]
          simp
          exact fun hpos hbyte => hprevious ⟨hpos, hbyte⟩
      · simp [hcr, hlf]

theorem lineAt_length (t : Bytes) : lineAt t t.length = breaks t := by
  have h := lineAt_add_seam (Nat.le_refl t.length)
  rw [List.take_length, if_neg] at h
  · exact h
  · rintro ⟨-, -, hbyte⟩
    rw [List.getElem?_eq_none (Nat.le_refl _)] at hbyte
    cases hbyte

theorem lineAt_mono (t : Bytes) {a b : Nat} (h : a ≤ b) : lineAt t a ≤ lineAt t b := by
  induction h with
  | refl => exact Nat.le_refl _
  | step _ ih => exact Nat.le_trans ih (Nat.le_add_right _ _)

/-- A terminator between two offsets separates their lines. -/
theorem lineAt_lt {t : Bytes} {a b : Nat} (hlt : a < b) (hends : endsLine t b = true) :
    lineAt t a < lineAt t b := by
  cases b with
  | zero => exact absurd hlt (Nat.not_lt_zero a)
  | succ b =>
    rw [lineAt, if_pos hends]
    exact Nat.lt_succ_of_le (lineAt_mono t (Nat.le_of_lt_succ hlt))

theorem endsLine_le {t : Bytes} {p : Nat} (h : endsLine t p = true) : p ≤ t.length := by
  cases p with
  | zero => exact Nat.zero_le _
  | succ q =>
    by_contra hlong
    have hnone : t[q]? = none := List.getElem?_eq_none (by omega)
    rw [endsLine, hnone] at h
    cases h

theorem StartsAt.le {t : Bytes} {n p : Nat} (h : StartsAt t n p) : p ≤ t.length := by
  rcases h with ⟨-, rfl⟩ | ⟨hends, -⟩
  · exact Nat.zero_le _
  · exact endsLine_le hends

theorem StartsAt.lineAt_eq {t : Bytes} {n p : Nat} (h : StartsAt t n p) : lineAt t p = n := by
  rcases h with ⟨rfl, rfl⟩ | ⟨-, hline⟩
  · rfl
  · exact hline

/-- A line starts at or before an offset just if its number is at most the offset's line. -/
theorem StartsAt.le_iff {t : Bytes} {n p o : Nat} (h : StartsAt t n p) :
    p ≤ o ↔ n ≤ lineAt t o := by
  constructor
  · intro hle
    exact h.lineAt_eq ▸ lineAt_mono t hle
  · intro hle
    rcases h with ⟨-, rfl⟩ | ⟨hends, rfl⟩
    · exact Nat.zero_le _
    · by_contra hlt
      exact absurd (lineAt_lt (Nat.lt_of_not_le hlt) hends) (Nat.not_lt.mpr hle)

theorem StartsAt.unique {t : Bytes} {n p q : Nat} (h : StartsAt t n p) (h' : StartsAt t n q) :
    p = q :=
  Nat.le_antisymm (h.le_iff.mpr (Nat.le_of_eq h'.lineAt_eq.symm))
    (h'.le_iff.mpr (Nat.le_of_eq h.lineAt_eq.symm))

end BareLine.Lib
