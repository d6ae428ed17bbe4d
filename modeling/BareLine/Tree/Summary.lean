import BareLine.Lib.LineBreaks

/-!
# Line-ending summaries of a text

Each tree node keeps a `Summary` of the text below it.  `Summary.scan` reads the text;
`combine` joins the summaries of two neighbours, and `after` and `before` take one side
away again, so that a split scans only its shorter half.

- `Summary.scan_append`: `combine` is the summary of the concatenation.
- `Summary.after_scan`, `Summary.before_scan`: both subtractions invert it.
-/

namespace BareLine

open Lib

/-! ## §1 Definitions -/

/-- Line endings, size and edge bytes of a text; `unknown` when it was not read. -/
structure Summary where
  unknown : Bool
  bytes : Nat
  breaks : Nat
  cr : Nat
  lf : Nat
  crlf : Nat
  first : Option UInt8
  last : Option UInt8
  deriving DecidableEq, Repr

namespace Summary

/-- `Summary::default()` -/
def default : Summary := ⟨false, 0, 0, 0, 0, 0, none, none⟩

/-- The counters of the scan loop. -/
structure Counts where
  breaks : Nat
  cr : Nat
  lf : Nat
  crlf : Nat
  previous : Option UInt8
  deriving DecidableEq, Repr

def Counts.start : Counts := ⟨0, 0, 0, 0, none⟩

/-- Body of the loop over `text.bytes()`. -/
def Counts.step (s : Counts) (byte : UInt8) : Counts :=
  let counted :=
    if byte = CR then { s with cr := s.cr + 1 }
    else if byte = LF then
      -- the CR before this LF was counted as a lone one
      if s.previous = some CR then { s with cr := s.cr - 1, crlf := s.crlf + 1 }
      else { s with lf := s.lf + 1 }
    else s
  let breaks :=
    if byte = CR ∨ (byte = LF ∧ s.previous ≠ some CR) then s.breaks + 1 else s.breaks
  { counted with breaks := breaks, previous := some byte }

/-- `Summary::scan` -/
def scan (text : Bytes) : Summary :=
  let s := text.foldl Counts.step Counts.start
  ⟨false, text.length, s.breaks, s.cr, s.lf, s.crlf, text.head?, s.previous⟩

/-- One CR LF pair lies across the seam between the two texts. -/
def cross (last first : Option UInt8) : Nat :=
  if last = some CR ∧ first = some LF then 1 else 0

/-- `Summary::after` -/
def after (self left : Summary) (first : UInt8) : Summary :=
  let cross := cross left.last (some first)
  { unknown := false
    bytes := self.bytes - left.bytes
    breaks := self.breaks + cross - left.breaks
    cr := self.cr + cross - left.cr
    lf := self.lf + cross - left.lf
    crlf := self.crlf - left.crlf - cross
    first := some first
    last := self.last }

/-- `Summary::before` -/
def before (self right : Summary) (last : UInt8) : Summary :=
  let cross := cross (some last) right.first
  { unknown := false
    bytes := self.bytes - right.bytes
    breaks := self.breaks + cross - right.breaks
    cr := self.cr + cross - right.cr
    lf := self.lf + cross - right.lf
    crlf := self.crlf - right.crlf - cross
    first := self.first
    last := some last }

/-- `Summary::combine` -/
def combine (self rhs : Summary) : Summary :=
  if self.unknown || rhs.unknown then
    { default with bytes := self.bytes + rhs.bytes, unknown := true }
  else
    let cross := cross self.last rhs.first
    { unknown := false
      bytes := self.bytes + rhs.bytes
      breaks := self.breaks + rhs.breaks - cross
      cr := self.cr + rhs.cr - cross
      lf := self.lf + rhs.lf - cross
      crlf := self.crlf + rhs.crlf + cross
      first := self.first.or rhs.first
      last := rhs.last.or self.last }

/-! ## §2 The scan loop over a concatenation -/

/-- What the loop counted of `t`, read on its own. -/
private def counts (t : Bytes) : Counts := t.foldl Counts.step Counts.start

private theorem counts_concat (t : Bytes) (b : UInt8) :
    counts (t ++ [b]) = (counts t).step b := by
  simp [counts]

@[simp] theorem step_previous (s : Counts) (b : UInt8) : (s.step b).previous = some b := rfl

private theorem counts_previous (t : Bytes) : (counts t).previous = t.getLast? := by
  rcases List.eq_nil_or_concat t with rfl | ⟨t, b, rfl⟩
  · rfl
  · rw [List.concat_eq_append, counts_concat, step_previous]; simp

/-- A CR just read is still counted as a lone one. -/
private theorem one_le_cr (t : Bytes) (h : t.getLast? = some CR) : 1 ≤ (counts t).cr := by
  rcases List.eq_nil_or_concat t with rfl | ⟨t, b, rfl⟩
  · cases h
  · have hb : b = CR := by simpa using h
    rw [List.concat_eq_append, counts_concat]
    simp [Counts.step, hb]

/-- A text that starts with LF counts that LF as a line of its own. -/
private theorem one_le_lf (t : Bytes) (h : t.head? = some LF) :
    1 ≤ (counts t).lf ∧ 1 ≤ (counts t).breaks := by
  induction t using List.reverseRecOn with
  | nil => cases h
  | append_singleton t b ih =>
    rcases t with _ | ⟨a, t⟩
    · have hb : b = LF := by simpa using h
      subst hb
      decide
    · have hrec := ih (by simpa using h)
      rw [counts_concat]
      simp only [Counts.step]
      split_ifs <;> simp_all

/-- The loop over a concatenation: the counters add up, less one lone CR and one lone LF
(and one break) when the seam cuts a CR LF. -/
private theorem counts_append (t u : Bytes) :
    counts (t ++ u) =
      ⟨(counts t).breaks + (counts u).breaks - cross t.getLast? u.head?,
        (counts t).cr + (counts u).cr - cross t.getLast? u.head?,
        (counts t).lf + (counts u).lf - cross t.getLast? u.head?,
        (counts t).crlf + (counts u).crlf + cross t.getLast? u.head?,
        u.getLast?.or t.getLast?⟩ := by
  induction u using List.reverseRecOn with
  | nil =>
    have hprev := counts_previous t
    simp only [List.append_nil, List.head?_nil, cross, reduceCtorEq, and_false, if_false]
    simp only [counts, Counts.start, List.foldl_nil] at *
    simp [← hprev]
  | append_singleton u b ih =>
    rw [← List.append_assoc, counts_concat, ih, counts_concat]
    rcases List.eq_nil_or_concat u with rfl | ⟨u, a, rfl⟩
    · have hprev := counts_previous t
      have hcr := one_le_cr t
      simp only [counts, Counts.start, List.foldl_nil, Counts.step, cross] at *
      simp only [List.head?_nil, List.getLast?_nil, Option.none_or]
      by_cases hb : b = CR
      · simp [hb, cr_ne_lf]
      · by_cases hl : b = LF
        · subst hl
          by_cases ht : t.getLast? = some CR
          · simp [ht, cr_ne_lf.symm]
          · simp [ht, cr_ne_lf.symm]
        · simp [hb, hl]
    · have hcr := one_le_cr (u ++ [a])
      have hlf := one_le_lf (u ++ [a])
      have hprev := counts_previous (u ++ [a])
      rw [List.concat_eq_append] at *
      simp only [List.getLast?_append, List.getLast?_singleton, Option.some_or] at *
      have hhead : (u ++ [a] ++ [b]).head? = (u ++ [a]).head? := by cases u <;> simp
      rw [hhead]
      generalize hx : cross t.getLast? (u ++ [a]).head? = x
      have hx1 : x ≤ 1 := by rw [← hx, cross]; split_ifs <;> omega
      have hxl : x = 1 → t.getLast? = some CR ∧ (u ++ [a]).head? = some LF := by
        rw [← hx, cross]; split_ifs with h
        · exact fun _ => h
        · intro h0; cases h0
      have hl1 : x ≤ (counts t).cr ∧ x ≤ (counts (u ++ [a])).lf ∧
          x ≤ (counts (u ++ [a])).breaks := by
        rcases Nat.le_one_iff_eq_zero_or_eq_one.mp hx1 with h0 | h1
        · omega
        · have := hlf (hxl h1).2
          have := one_le_cr t (hxl h1).1
          omega
      simp only [Counts.step, hprev]
      by_cases hb : b = CR
      · simp only [hb, if_true, true_or, Counts.mk.injEq, and_true]
        omega
      · by_cases hl : b = LF
        · by_cases ha : a = CR
          · subst ha
            have := hcr rfl
            simp only [hl, cr_ne_lf.symm, if_false, if_true, ne_eq, not_true_eq_false,
              and_false, or_false, Counts.mk.injEq, and_true, true_and]
            omega
          · simp only [ha, hl, cr_ne_lf.symm, if_false, if_true, ne_eq, Option.some.injEq,
              not_false_eq_true, and_true, or_true, Counts.mk.injEq, true_and]
            omega
        · simp [hb, hl]

/-! ## §3 Combining and taking apart -/

@[simp] theorem scan_nil : scan [] = default := rfl

@[simp] theorem scan_bytes (t : Bytes) : (scan t).bytes = t.length := rfl

@[simp] theorem scan_unknown (t : Bytes) : (scan t).unknown = false := rfl

@[simp] theorem scan_first (t : Bytes) : (scan t).first = t.head? := rfl

@[simp] theorem scan_last (t : Bytes) : (scan t).last = t.getLast? := counts_previous t

private theorem scan_eq (t : Bytes) :
    scan t = ⟨false, t.length, (counts t).breaks, (counts t).cr, (counts t).lf,
      (counts t).crlf, t.head?, t.getLast?⟩ := by
  rw [← counts_previous t]; rfl

/-- `combine` is the summary of the concatenation. -/
theorem scan_append (t u : Bytes) : scan (t ++ u) = (scan t).combine (scan u) := by
  rw [scan_eq (t ++ u), counts_append]
  simp only [scan_eq t, scan_eq u, combine, Bool.or_self, Bool.false_eq_true, if_false,
    List.length_append, List.head?_append, List.getLast?_append]

private theorem cross_le (last first : Option UInt8) : cross last first ≤ 1 := by
  rw [cross]; split_ifs <;> omega

/-- The counters a seam takes away are there on both sides of it. -/
private theorem cross_le_counts (t u : Bytes) :
    cross t.getLast? u.head? ≤ (counts t).cr ∧ cross t.getLast? u.head? ≤ (counts u).lf ∧
      cross t.getLast? u.head? ≤ (counts u).breaks := by
  rw [cross]
  split_ifs with h
  · exact ⟨one_le_cr t h.1, one_le_lf u h.2⟩
  · exact ⟨Nat.zero_le _, Nat.zero_le _, Nat.zero_le _⟩

theorem cross_le_scan (t u : Bytes) :
    cross t.getLast? u.head? ≤ (scan t).cr ∧ cross t.getLast? u.head? ≤ (scan u).lf ∧
      cross t.getLast? u.head? ≤ (scan u).breaks := cross_le_counts t u

/-- `after` recovers the summary of what follows a scanned prefix. -/
theorem after_scan (t : Bytes) (b : UInt8) (u : Bytes) :
    (scan (t ++ b :: u)).after (scan t) b = scan (b :: u) := by
  have hc := cross_le_counts t (b :: u)
  rw [scan_append]
  simp only [scan_eq t, scan_eq (b :: u), combine, after, Bool.or_self, Bool.false_eq_true,
    if_false, List.head?_cons, Summary.mk.injEq, true_and, Nat.add_sub_cancel_left] at *
  refine ⟨?_, ?_, ?_, ?_, ?_⟩
  · omega
  · omega
  · omega
  · omega
  · cases hu : (b :: u).getLast? with
    | none => simp at hu
    | some c => rfl

/-- `before` recovers the summary of what precedes a scanned suffix. -/
theorem before_scan (t : Bytes) (b : UInt8) (u : Bytes) :
    (scan (t ++ [b] ++ u)).before (scan u) b = scan (t ++ [b]) := by
  have hc := cross_le_counts (t ++ [b]) u
  rw [scan_append]
  simp only [scan_eq (t ++ [b]), scan_eq u, combine, before, Bool.or_self, Bool.false_eq_true,
    if_false, List.getLast?_concat, Summary.mk.injEq, true_and, Nat.add_sub_cancel] at *
  refine ⟨?_, ?_, ?_, ?_, ?_⟩
  · omega
  · omega
  · omega
  · omega
  · cases t <;> simp

/-- The break counter of a scan is the line-break count of the text. -/
theorem scan_breaks (t : Bytes) : (scan t).breaks = Lib.breaks t := by
  suffices h : (counts t).breaks = Lib.breaks t ∧
      decide ((counts t).previous = some CR) = endsCr t from h.1
  induction t using List.reverseRecOn with
  | nil => exact ⟨rfl, rfl⟩
  | append_singleton t b ih =>
    rcases ih with ⟨hb, he⟩
    have hprev := counts_previous t
    have hrun : LineScan.start.run (t ++ [b]) = (LineScan.mk (Lib.breaks t) (endsCr t)).step b := by
      rw [LineScan.run_append, start_run_eq]; rfl
    rw [counts_concat]
    rw [Lib.breaks, endsCr, hrun]
    simp only [Counts.step, LineScan.step]
    rw [← he]
    by_cases h1 : b = CR
    · simp [h1, hb]
    · by_cases h2 : b = LF
      · by_cases h3 : (counts t).previous = some CR <;> simp [h2, h3, hb, cr_ne_lf.symm]
      · simp [h1, h2, hb]

/-- What a stored summary must say about its text: its size always, everything else
unless the text was never read. -/
def Describes (s : Summary) (t : Bytes) : Prop :=
  s.bytes = t.length ∧ (s.unknown = false → s = scan t)

theorem describes_scan (t : Bytes) : (scan t).Describes t := ⟨rfl, fun _ => rfl⟩

theorem Describes.combine {s r : Summary} {t u : Bytes} (hs : s.Describes t)
    (hr : r.Describes u) : (s.combine r).Describes (t ++ u) := by
  rcases hs with ⟨hsb, hs⟩
  rcases hr with ⟨hrb, hr⟩
  by_cases h : s.unknown || r.unknown
  · simp [Describes, Summary.combine, h, hsb, hrb]
  · have h' : s.unknown = false ∧ r.unknown = false := by simpa using h
    rw [hs h'.1, hr h'.2, ← scan_append]
    exact describes_scan _

end Summary

end BareLine
