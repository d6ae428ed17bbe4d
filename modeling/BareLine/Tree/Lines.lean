import BareLine.Tree.Text

/-!
# Lines of a resident tree

`line_start` descends to the `n`-th terminator by the break counts of the summaries, and
`line_at` combines the summaries left of an offset.  Both correct the counts at every seam
that may cut a CR LF.
-/

/-! ## §1 Checked summaries -/

namespace BareLine.Summary

open Lib Tree

/-- `Summary::combine` with its subtractions checked. -/
def combineChecked (self rhs : Summary) : Option Summary :=
  if self.unknown || rhs.unknown then some (self.combine rhs)
  else do
    let cross := cross self.last rhs.first
    let _ ← checkedSub (self.breaks + rhs.breaks) cross
    let _ ← checkedSub (self.cr + rhs.cr) cross
    let _ ← checkedSub (self.lf + rhs.lf) cross
    some (self.combine rhs)

/-- `Summary::before` with its subtractions checked. -/
def beforeChecked (self right : Summary) (last : UInt8) : Option Summary := do
  let cross := cross (some last) right.first
  let _ ← checkedSub self.bytes right.bytes
  let _ ← checkedSub (self.breaks + cross) right.breaks
  let _ ← checkedSub (self.cr + cross) right.cr
  let _ ← checkedSub (self.lf + cross) right.lf
  let crlf ← checkedSub self.crlf right.crlf
  let _ ← checkedSub crlf cross
  some (self.before right last)

end BareLine.Summary

namespace BareLine.Tree

open Lib

/-! ## §2 Definitions -/

/-- `Piece::prefix_summary`, checked. -/
def Piece.prefixChecked (p : Piece) (offset : Nat) : Option Summary :=
  if offset ≤ p.text.length / 2 then some (Summary.scan (p.text.take offset))
  else do
    let previous ← checkedSub offset 1
    p.summary.beforeChecked (Summary.scan (p.text.drop offset)) (p.text.getD previous 0)

/-- The loop of `find` over the bytes of a leaf. -/
def findLeaf : Bytes → Nat → Nat → Bool → Option Nat
  | [], _, _, _ => none
  | byte :: rest, i, ordinal, previousCr =>
    if byte = CR ∨ (byte = LF ∧ previousCr = false) then do
      let ordinal ← checkedSub ordinal 1
      if ordinal = 0 then some i else findLeaf rest (i + 1) ordinal (byte == CR)
    else findLeaf rest (i + 1) ordinal (byte == CR)

/-- `find`, in `tree::line_start` -/
def find : Node → Nat → Bool → Option Nat
  | .leaf piece, ordinal, precedingCr => findLeaf piece.text 0 ordinal precedingCr
  | .branch left right _ _, ordinal, precedingCr => do
    let count ← checkedSub left.summary.breaks
      (if precedingCr && left.summary.first == some LF then 1 else 0)
    if ordinal ≤ count then find left ordinal precedingCr
    else do
      let separator ← find right (ordinal - count) (left.summary.last == some CR)
      some (left.summary.bytes + separator)
  | _, _, _ => none

/-- `tree::line_start` -/
def lineStart (root : Root) (line : Nat) : Option (Option Nat) :=
  if line = 0 then some (some 0)
  else match root with
    | none => some none
    | some node =>
      if line > node.summary.breaks then some none
      else do
        let separator ← find node line false
        some (some (separator +
          if byteAt root separator = some CR ∧ byteAt root (separator + 1) = some LF then 2
          else 1))

/-- `prefix`, in `tree::line_at` -/
def linePrefix : Node → Nat → Option Summary
  | .leaf piece, offset =>
    if offset = piece.summary.bytes then some piece.summary else piece.prefixChecked offset
  | .branch left right _ summary, offset =>
    if offset = summary.bytes then some summary
    else if offset ≤ left.summary.bytes then linePrefix left offset
    else do
      let rest ← linePrefix right (offset - left.summary.bytes)
      left.summary.combineChecked rest
  | node, offset => if offset = node.summary.bytes then some node.summary else none

/-- `tree::line_at` -/
def lineAt (root : Root) (offset : Nat) : Option Nat := do
  let count ← root.elim (some 0) fun node => (linePrefix node offset).map Summary.breaks
  checkedSub count
    (if 0 < offset ∧ byteAt root (offset - 1) = some CR ∧ byteAt root offset = some LF then 1
      else 0)

/-- `Snapshot::line_range` -/
def lineRange (root : Root) (line : Nat) : Option (Except Error Range) := do
  match ← lineStart root line with
  | none => some (.error .outOfBounds)
  | some start =>
    let stop ← lineStart root (line + 1)
    some (.ok ⟨start, stop.getD (summary root).bytes⟩)

/-- `Snapshot::line_at` -/
def snapshotLineAt (root : Root) (offset : Nat) : Option (Except Error Nat) :=
  if offset > (summary root).bytes then some (.error .outOfBounds)
  else if ¬boundary root offset then some (.error .invalidBoundary)
  else (lineAt root offset).map .ok

/-- `Snapshot::line_count` -/
def lineCount (root : Root) : Nat := (summary root).breaks + 1

end BareLine.Tree

/-! ## §3 Seams -/

namespace BareLine.Summary

open Lib Tree

theorem combineChecked_scan (t u : Bytes) :
    (scan t).combineChecked (scan u) = some (scan (t ++ u)) := by
  obtain ⟨hcr, hlf, hbreaks⟩ := cross_le_scan t u
  have hcr := Nat.le_add_right_of_le (k := (scan u).cr) hcr
  have hlf := Nat.le_add_left_of_le (k := (scan t).lf) hlf
  have hbreaks := Nat.le_add_left_of_le (k := (scan t).breaks) hbreaks
  rw [scan_append]
  simp [combineChecked, checkedSub_eq hcr, checkedSub_eq hlf, checkedSub_eq hbreaks]

theorem beforeChecked_scan (t : Bytes) (b : UInt8) (u : Bytes) :
    (scan (t ++ [b] ++ u)).beforeChecked (scan u) b = some (scan (t ++ [b])) := by
  have hcross := cross_le_scan (t ++ [b]) u
  rw [List.getLast?_concat] at hcross
  have hbefore := before_scan t b u
  -- What `combine` took away at the seam is given back first.
  have hsum : (scan (t ++ [b] ++ u)).breaks + cross (some b) u.head? =
      (scan (t ++ [b])).breaks + (scan u).breaks ∧
      (scan (t ++ [b] ++ u)).cr + cross (some b) u.head? =
      (scan (t ++ [b])).cr + (scan u).cr ∧
      (scan (t ++ [b] ++ u)).lf + cross (some b) u.head? =
      (scan (t ++ [b])).lf + (scan u).lf ∧
      (scan (t ++ [b] ++ u)).crlf =
      (scan (t ++ [b])).crlf + (scan u).crlf + cross (some b) u.head? := by
    rw [scan_append]
    simp only [combine, scan_unknown, Bool.or_self, Bool.false_eq_true, if_false, scan_last,
      scan_first, List.getLast?_concat]
    refine ⟨?_, ?_, ?_, trivial⟩
    · exact Nat.sub_add_cancel (Nat.le_add_left_of_le hcross.2.2)
    · exact Nat.sub_add_cancel (Nat.le_add_right_of_le hcross.1)
    · exact Nat.sub_add_cancel (Nat.le_add_left_of_le hcross.2.1)
  obtain ⟨hbreaks, hcr, hlf, hcrlf⟩ := hsum
  have hbytes : (scan u).bytes ≤ (scan (t ++ [b] ++ u)).bytes := by
    simp only [scan_bytes, List.length_append]
    exact Nat.le_add_left _ _
  simp only [beforeChecked, scan_first, hbreaks, hcr, hlf, hcrlf, checkedSub_eq hbytes,
    checkedSub_eq (Nat.le_add_left _ _), Option.bind_eq_bind, Option.bind_some]
  rw [checkedSub_eq (by omega)]
  rw [Option.bind_some, checkedSub_eq (by omega), Option.bind_some, hbefore]

end BareLine.Summary

namespace BareLine.Tree

open Lib

theorem Piece.prefixChecked_eq {p : Piece} (h : p.Wf) {offset : Nat}
    (hle : offset ≤ p.text.length) :
    p.prefixChecked offset = some (Summary.scan (p.text.take offset)) := by
  unfold prefixChecked
  split_ifs with hhalf
  · rfl
  · have hpos : 1 ≤ offset := by omega
    have hfull : p.summary = Summary.scan (p.text.take offset ++ p.text.drop offset) := by
      rw [List.take_append_drop]
      exact h.summary_eq
    rw [checkedSub_eq hpos, Option.bind_eq_bind, Option.bind_some, hfull,
      take_eq_concat hpos hle]
    exact Summary.beforeChecked_scan _ _ _

/-- `prefix` is the summary of the text before the offset. -/
theorem linePrefix_eq {n : Node} (h : n.Wf .resident) {offset : Nat}
    (hle : offset ≤ n.text.length) :
    linePrefix n offset = some (Summary.scan (n.text.take offset)) := by
  have hbytes := h.bytes
  have hsummary := h.summary_eq
  induction n generalizing offset with
  | source src range => cases h.1
  | ownedSource src range original summary => cases h.1
  | leaf piece =>
    rw [linePrefix]
    split_ifs with hall
    · have hall : offset = (Node.leaf piece).text.length := hbytes ▸ hall
      rw [hall, List.take_length, ← hsummary]
      rfl
    · exact Piece.prefixChecked_eq h hle
  | branch left right height summary ihl ihr =>
    rw [linePrefix, h.1.bytes]
    split_ifs with hall hleft
    · have hall : offset = (Node.branch left right height summary).text.length := hbytes ▸ hall
      rw [hall, List.take_length, ← hsummary]
      rfl
    · rw [ihl h.1 hleft h.1.bytes h.1.summary_eq, Node.text, List.take_append_of_le_length hleft]
    · have hlength : offset ≤ left.text.length + right.text.length := by
        simpa [Node.text] using hle
      rw [ihr h.2.1 (by omega) h.2.1.bytes h.2.1.summary_eq, Option.bind_eq_bind,
        Option.bind_some, h.1.summary_eq, Summary.combineChecked_scan, Node.text,
        List.take_append, List.take_of_length_le (i := offset) (by omega)]

/-! ## §4 Searching -/

/-- Terminators of a text that follows a CR if the flag is set. -/
def breaksAfter (cr : Bool) (t : Bytes) : Nat := ((LineScan.mk 0 cr).run t).breaks

/-- The `k`-th terminator of such a text is first seen at `i`. -/
structure SeparatorAt (cr : Bool) (t : Bytes) (k i : Nat) : Prop where
  lt : i < t.length
  before : breaksAfter cr (t.take i) + 1 = k
  after : breaksAfter cr (t.take (i + 1)) = k

/-- An LF that completes a CR LF is the only break the flag takes away. -/
theorem breaksAfter_add (cr : Bool) (t : Bytes) :
    breaksAfter cr t + (if cr && t.head? == some LF then 1 else 0) = breaks t := by
  cases t with
  | nil => cases cr <;> rfl
  | cons b t =>
    cases cr with
    | false => rfl
    | true =>
      rw [breaksAfter, breaks, LineScan.start, LineScan.run_cons, LineScan.run_cons]
      by_cases hlf : b = LF
      · simp [LineScan.step, hlf, cr_ne_lf.symm, run_from 1 false t, Nat.add_comm]
      · simp [LineScan.step, hlf]

theorem breaksAfter_cons (cr : Bool) (b : UInt8) (t : Bytes) :
    breaksAfter cr (b :: t) =
      (if b = CR ∨ b = LF ∧ cr = false then 1 else 0) + breaksAfter (b == CR) t := by
  rw [breaksAfter, LineScan.run_cons, LineScan.step]
  by_cases hcr : b = CR
  · simp [hcr, run_from 1 true t, breaksAfter]
  · have hflag : (b == CR) = false := by simpa using hcr
    rw [hflag]
    by_cases hlf : b = LF
    · cases cr
      · simp [hlf, cr_ne_lf.symm, run_from 1 false t, breaksAfter]
      · simp [hlf, cr_ne_lf.symm, breaksAfter]
    · simp [hcr, hlf, breaksAfter]

theorem breaksAfter_append (cr : Bool) {t : Bytes} (u : Bytes) (hne : t ≠ []) :
    breaksAfter cr (t ++ u) = breaksAfter cr t + breaksAfter (t.getLast? == some CR) u := by
  obtain ⟨front, b, rfl⟩ := (List.eq_nil_or_concat t).resolve_left hne
  have hflag := LineScan.run_precedingCr_concat (LineScan.mk 0 cr) front b
  have hlast : ((front ++ [b]).getLast? == some CR) = decide (b = CR) := by
    rw [List.getLast?_concat]
    rfl
  rw [List.concat_eq_append, hlast, ← hflag, breaksAfter, LineScan.run_append]
  exact congrArg LineScan.breaks (run_from _ _ u)

/-- The loop over a leaf stops at the terminator it counts down to. -/
theorem findLeaf_spec {cr : Bool} {t : Bytes} {k : Nat} (i : Nat) (hk : 0 < k)
    (hle : k ≤ breaksAfter cr t) :
    ∃ j, findLeaf t i k cr = some (i + j) ∧ SeparatorAt cr t k j := by
  induction t generalizing cr k i with
  | nil => exact absurd hk (Nat.not_lt.mpr hle)
  | cons b t ih =>
    have hcons := fun u => breaksAfter_cons cr b u
    rw [hcons t] at hle
    rw [findLeaf]
    by_cases hends : b = CR ∨ b = LF ∧ cr = false
    · rw [if_pos hends, checkedSub_eq hk, Option.bind_eq_bind, Option.bind_some]
      simp only [if_pos hends] at hcons hle
      by_cases hlast : k - 1 = 0
      · have hone : k = 1 := by omega
        refine ⟨0, by rw [if_pos hlast]; rfl, Nat.zero_lt_succ _, hone.symm, ?_⟩
        rw [List.take_succ_cons, hcons]
        exact hone.symm
      · obtain ⟨j, hfind, hat⟩ := ih (i + 1) (Nat.pos_of_ne_zero hlast)
          (show k - 1 ≤ breaksAfter (b == CR) t by omega)
        refine ⟨j + 1, ?_, Nat.succ_lt_succ hat.lt, ?_, ?_⟩
        · rw [if_neg hlast, hfind, Nat.add_right_comm, Nat.add_assoc]
        · have := hat.before
          rw [List.take_succ_cons, hcons]
          omega
        · have := hat.after
          rw [List.take_succ_cons, hcons]
          omega
    · rw [if_neg hends]
      simp only [if_neg hends, Nat.zero_add] at hcons hle
      obtain ⟨j, hfind, hat⟩ := ih (i + 1) hk hle
      refine ⟨j + 1, ?_, Nat.succ_lt_succ hat.lt, ?_, ?_⟩
      · rw [hfind, Nat.add_right_comm, Nat.add_assoc]
      · rw [List.take_succ_cons, hcons]
        exact hat.before
      · rw [List.take_succ_cons, hcons]
        exact hat.after

/-- `find` meets the terminator it is asked for, in any tree over the text. -/
theorem find_spec {n : Node} (h : n.Wf .resident) {cr : Bool} {k : Nat} (hk : 0 < k)
    (hle : k ≤ breaksAfter cr n.text) :
    ∃ i, find n k cr = some i ∧ SeparatorAt cr n.text k i := by
  induction n generalizing cr k with
  | source src range => cases h.1
  | ownedSource src range original summary => cases h.1
  | leaf piece =>
    obtain ⟨j, hfind, hat⟩ := findLeaf_spec 0 hk hle
    rw [Nat.zero_add] at hfind
    exact ⟨j, hfind, hat⟩
  | branch left right height summary ihl ihr =>
    have hne : left.text ≠ [] := List.length_pos_iff.mp h.1.text_pos
    have hcount := breaksAfter_add cr left.text
    rw [Node.text, breaksAfter_append cr _ hne] at hle
    -- The corrected count of the left side is what a scan of it would find.
    have hcounted : checkedSub left.summary.breaks
        (if cr && left.summary.first == some LF then 1 else 0) =
          some (breaksAfter cr left.text) := by
      rw [h.1.summary_eq, Summary.scan_breaks, Summary.scan_first, ← hcount,
        checkedSub_eq (Nat.le_add_left _ _), Nat.add_sub_cancel]
    rw [find, hcounted, Option.bind_eq_bind, Option.bind_some]
    by_cases hleft : k ≤ breaksAfter cr left.text
    · obtain ⟨i, hfind, hat⟩ := ihl h.1 hk hleft
      refine ⟨i, by rw [if_pos hleft, hfind], ?_, ?_, ?_⟩
      · rw [Node.text, List.length_append]
        exact Nat.lt_add_right _ hat.lt
      · rw [Node.text, List.take_append_of_le_length (Nat.le_of_lt hat.lt)]
        exact hat.before
      · rw [Node.text, List.take_append_of_le_length hat.lt]
        exact hat.after
    · have hrest : k - breaksAfter cr left.text ≤
          breaksAfter (left.text.getLast? == some CR) right.text := by omega
      obtain ⟨i, hfind, hat⟩ := ihr h.2.1 (by omega) hrest
      refine ⟨left.text.length + i, ?_, ?_, ?_, ?_⟩
      · rw [if_neg hleft, h.1.bytes, h.1.summary_eq, Summary.scan_last, hfind]
        rfl
      · rw [Node.text, List.length_append]
        exact Nat.add_lt_add_left hat.lt _
      · have := hat.before
        rw [Node.text, List.take_length_add_append, breaksAfter_append cr _ hne]
        omega
      · have := hat.after
        rw [Node.text, Nat.add_assoc, List.take_length_add_append, breaksAfter_append cr _ hne]
        omega

/-! ## §5 Addressing -/

/-- A line starts one byte past its terminator, or two past the CR of a CR LF. -/
theorem SeparatorAt.startsAt {t : Bytes} {n i : Nat} (h : SeparatorAt false t n i) :
    StartsAt t n (i + if t[i]? = some CR ∧ t[i + 1]? = some LF then 2 else 1) := by
  have hlt := h.lt
  have hbyte : t[i]? = some t[i] := List.getElem?_eq_getElem hlt
  have hbefore : breaks (t.take i) + 1 = n := h.before
  have hafter : breaks (t.take (i + 1)) = n := h.after
  have hseam := lineAt_add_seam (t := t) (o := i + 1) h.lt
  rw [hafter] at hseam
  -- The count grew, so the byte ends a line or begins a CR LF.
  have hends : t[i] = CR ∨ t[i] = LF := by
    rw [List.take_add_one, hbyte, Option.toList_some, breaks_concat] at hafter
    by_contra hneither
    rw [if_neg (fun hor => hneither (hor.imp_right And.left))] at hafter
    omega
  by_cases hpair : t[i]? = some CR ∧ t[i + 1]? = some LF
  · have hinside : insidePair t (i + 1) := ⟨Nat.succ_pos i, hpair.1, hpair.2⟩
    have hline : endsLine t (i + 2) = true := by simp [endsLine, hpair.2]
    rw [if_pos hinside] at hseam
    rw [if_pos hpair]
    refine Or.inr ⟨hline, ?_⟩
    rw [Lib.lineAt, if_pos hline]
    exact hseam
  · have hinside : ¬insidePair t (i + 1) := fun hin => hpair hin.2
    have hline : endsLine t (i + 1) = true := by
      rw [hbyte] at hpair
      rcases hends with hcr | hlf
      · have hnext : t[i + 1]? ≠ some LF := fun hnext => hpair ⟨congrArg some hcr, hnext⟩
        simp [endsLine, hbyte, hcr, hnext]
      · simp [endsLine, hbyte, hlf]
    rw [if_neg hinside] at hseam
    rw [if_neg hpair]
    exact Or.inr ⟨hline, hseam⟩

/-- `line_start` finds every line the text has, and no other. -/
theorem lineStart_spec {root : Root} (h : RootWf .resident root) (n : Nat) :
    ∃ r, lineStart root n = some r ∧ (r.isSome ↔ n ≤ breaks (text root)) ∧
      ∀ p ∈ r, StartsAt (text root) n p := by
  unfold lineStart
  by_cases hzero : n = 0
  · refine ⟨some 0, if_pos hzero, by simp [hzero], ?_⟩
    rintro p ⟨⟩
    exact Or.inl ⟨hzero, rfl⟩
  rw [if_neg hzero]
  cases root with
  | none =>
    refine ⟨none, rfl, ?_, fun p hp => nomatch hp⟩
    exact iff_of_false (by simp) (Nat.not_le.mpr (Nat.pos_of_ne_zero hzero))
  | some node =>
    have hwf := rootWf_some.mp h
    have hbreaks : node.summary.breaks = breaks node.text := by
      rw [hwf.summary_eq, Summary.scan_breaks]
    simp only [hbreaks, text_some]
    by_cases hmany : n > breaks node.text
    · rw [if_pos hmany]
      refine ⟨none, rfl, ?_, fun p hp => nomatch hp⟩
      simpa using hmany
    · have hle : n ≤ breaksAfter false node.text := Nat.not_lt.mp hmany
      obtain ⟨i, hfind, hat⟩ := find_spec hwf (Nat.pos_of_ne_zero hzero) hle
      rw [if_neg hmany, hfind]
      refine ⟨_, rfl, by simpa using hmany, ?_⟩
      rintro p ⟨⟩
      rw [byteAt_eq h, byteAt_eq h]
      exact hat.startsAt

/-- `line_at` is the line an offset belongs to. -/
theorem lineAt_spec {root : Root} (h : RootWf .resident root) {offset : Nat}
    (hle : offset ≤ (text root).length) :
    lineAt root offset = some (Lib.lineAt (text root) offset) := by
  have hseam := lineAt_add_seam hle
  have hcount : (root.elim (some 0) fun node => (linePrefix node offset).map Summary.breaks) =
      some (breaks ((text root).take offset)) := by
    cases root with
    | none =>
      rw [text_none, List.take_nil]
      rfl
    | some node =>
      rw [Option.elim_some, linePrefix_eq (rootWf_some.mp h) hle, Option.map_some,
        Summary.scan_breaks, text_some]
  unfold lineAt
  rw [hcount, Option.bind_eq_bind, Option.bind_some, byteAt_eq h, byteAt_eq h, ← hseam]
  by_cases hinside : insidePair (text root) offset
  · have hpair := hinside
    rw [insidePair] at hpair
    rw [if_pos hinside, if_pos hpair, checkedSub_eq (Nat.le_add_left _ _), Nat.add_sub_cancel]
  · have hpair := hinside
    rw [insidePair] at hpair
    rw [if_neg hinside, if_neg hpair, checkedSub_eq (Nat.zero_le _), Nat.add_zero, Nat.sub_zero]

/-- Where the lines of a tree start, as far as the text has them. -/
theorem lineStart_eq {root : Root} (h : RootWf .resident root) {n : Nat}
    (hle : n ≤ breaks (text root)) :
    ∃ p, lineStart root n = some (some p) ∧ StartsAt (text root) n p := by
  obtain ⟨r, hstart, hsome, hat⟩ := lineStart_spec h n
  obtain ⟨p, rfl⟩ := Option.isSome_iff_exists.mp (hsome.mpr hle)
  exact ⟨p, hstart, hat p rfl⟩

theorem lineStart_none {root : Root} (h : RootWf .resident root) {n : Nat}
    (hgt : breaks (text root) < n) : lineStart root n = some none := by
  obtain ⟨r, hstart, hsome, -⟩ := lineStart_spec h n
  cases r with
  | none => exact hstart
  | some p => exact absurd (hsome.mp rfl) (Nat.not_le.mpr hgt)

/-- The offset is of the line: in its range, or at the end of the text on the last line. -/
def OnLine (t : Bytes) (r : Range) (n o : Nat) : Prop :=
  r.start ≤ o ∧ (o < r.stop ∨ o = t.length ∧ n = breaks t)

/-- The range of a line reaches from its start to the next one, or to the end of the text. -/
theorem lineRange_spec {root : Root} (h : RootWf .resident root) {n : Nat}
    (hle : n ≤ breaks (text root)) :
    ∃ r, lineRange root n = some (.ok r) ∧ StartsAt (text root) n r.start ∧
      (n < breaks (text root) → StartsAt (text root) (n + 1) r.stop) ∧
      (n = breaks (text root) → r.stop = (text root).length) := by
  obtain ⟨start, hstart, hat⟩ := lineStart_eq h hle
  rw [lineRange, hstart]
  by_cases hlast : n = breaks (text root)
  · have hstop := lineStart_none h (n := n + 1) (by omega)
    simp only [Option.bind_eq_bind, Option.bind_some, hstop, Option.getD_none, h.bytes]
    exact ⟨_, rfl, hat, fun hlt => absurd hlast (Nat.ne_of_lt hlt), fun _ => rfl⟩
  · obtain ⟨stop, hstop, hnext⟩ := lineStart_eq h (n := n + 1) (by omega)
    simp only [Option.bind_eq_bind, Option.bind_some, hstop, Option.getD_some]
    exact ⟨_, rfl, hat, fun _ => hnext, fun heq => absurd heq hlast⟩

theorem lineAt_le_breaks {t : Bytes} {o : Nat} (hle : o ≤ t.length) :
    Lib.lineAt t o ≤ breaks t := by
  rw [← lineAt_length]
  exact lineAt_mono t hle

/-- Lines that start at or before an offset. -/
def linesStarted (root : Root) (offset : Nat) : Nat :=
  ((List.range (lineCount root)).filter fun line =>
    match lineStart root line with
    | some (some start) => decide (start ≤ offset)
    | _ => false).length

theorem RootWf.lineCount_eq {root : Root} (h : RootWf .resident root) :
    lineCount root = breaks (text root) + 1 := by
  rw [lineCount, h.summary_eq, Summary.scan_breaks]

private theorem filter_range_length {p : Nat → Bool} {b n : Nat} (hle : n ≤ b)
    (hp : ∀ k ≤ b, p k = decide (k ≤ n)) :
    ((List.range (b + 1)).filter p).length = n + 1 := by
  have hsplit : b + 1 = (n + 1) + (b - n) := by omega
  have hall : (List.range (n + 1)).filter p = List.range (n + 1) := by
    rw [List.filter_eq_self]
    intro k hk
    have hk := List.mem_range.mp hk
    rw [hp k (by omega), decide_eq_true_eq]
    omega
  have hnone : ((List.range (b - n)).map (n + 1 + ·)).filter p = [] := by
    rw [List.filter_eq_nil_iff]
    intro k hk
    obtain ⟨j, hj, rfl⟩ := List.mem_map.mp hk
    have hj := List.mem_range.mp hj
    rw [hp _ (by omega), decide_eq_true_eq]
    omega
  rw [hsplit, List.range_add, List.filter_append, hall, hnone, List.append_nil, List.length_range]

/-- The lines that start at or before an offset are its own and those before it. -/
theorem linesStarted_eq {root : Root} (h : RootWf .resident root) {o : Nat}
    (hle : o ≤ (text root).length) :
    linesStarted root o = Lib.lineAt (text root) o + 1 := by
  rw [linesStarted, h.lineCount_eq]
  refine filter_range_length (lineAt_le_breaks hle) fun k hk => ?_
  obtain ⟨p, hstart, hat⟩ := lineStart_eq h hk
  simp only [hstart]
  exact decide_eq_decide.mpr hat.le_iff

/-- The ranges separate the offsets by their lines. -/
theorem onLine_iff {root : Root} (h : RootWf .resident root) {n o : Nat} {r : Range}
    (hle : o ≤ (text root).length) (hn : n ≤ breaks (text root))
    (hr : lineRange root n = some (.ok r)) :
    OnLine (text root) r n o ↔ Lib.lineAt (text root) o = n := by
  obtain ⟨r', hr', hstart, hnext, hlast⟩ := lineRange_spec h hn
  obtain rfl : r' = r := by
    rw [hr'] at hr
    simpa using hr
  have htop := lineAt_le_breaks hle
  rw [OnLine, hstart.le_iff]
  by_cases hend : n = breaks (text root)
  · rw [hlast hend]
    omega
  · have hstop := (hnext (by omega)).le_iff (o := o)
    omega

theorem snapshotLineAt_eq {root : Root} (h : RootWf .resident root) {o : Nat}
    (hb : boundary root o = true) (hle : o ≤ (text root).length) :
    snapshotLineAt root o = some (.ok (Lib.lineAt (text root) o)) := by
  rw [snapshotLineAt, h.bytes, if_neg (Nat.not_lt.mpr hle), if_neg (by simpa using hb),
    lineAt_spec h hle]
  rfl

/-- Line addressing in a resident tree, whatever its shape: each line is found where the text
has it, each boundary offset is on the last line that starts at or before it, the ranges tile
the text, and no subtraction underflows. -/
theorem resident_lines {root : Root} (h : RootWf .resident root) :
    (∀ n, ∃ r, lineStart root n = some r ∧ (r.isSome ↔ n ≤ breaks (text root)) ∧
      ∀ p ∈ r, StartsAt (text root) n p) ∧
    (∀ o ≤ (text root).length, boundary root o = true →
      ∃ n, snapshotLineAt root o = some (.ok n) ∧ linesStarted root o = n + 1 ∧
        (∀ k p, StartsAt (text root) k p → (p ≤ o ↔ k ≤ n)) ∧
        ∀ k r, lineRange root k = some (.ok r) → (OnLine (text root) r k o ↔ n = k)) ∧
    (∀ n, n < lineCount root → ∃ r, lineRange root n = some (.ok r) ∧ r.start ≤ r.stop ∧
      (n = 0 → r.start = 0) ∧ (n + 1 = lineCount root → r.stop = (text root).length) ∧
      ∀ r', lineRange root (n + 1) = some (.ok r') → r'.start = r.stop) ∧
    (∀ n, lineCount root ≤ n → lineRange root n = some (.error .outOfBounds)) ∧
    (∀ other, RootWf .resident other → ((summary root).combineChecked (summary other)) =
      some (Summary.scan (text root ++ text other))) := by
  have hcount := h.lineCount_eq
  refine ⟨lineStart_spec h, fun o hle hb => ?_, fun n hn => ?_, fun n hn => ?_,
    fun other hother => ?_⟩
  · refine ⟨_, snapshotLineAt_eq h hb hle, linesStarted_eq h hle, fun k p hp => hp.le_iff,
      fun k r hr => ?_⟩
    by_cases hk : k ≤ breaks (text root)
    · exact onLine_iff h hle hk hr
    · rw [lineRange, lineStart_none h (Nat.lt_of_not_le hk)] at hr
      cases hr
  · obtain ⟨r, hr, hstart, hnext, hlast⟩ := lineRange_spec h (n := n) (by omega)
    refine ⟨r, hr, ?_, fun hzero => ?_, fun hend => hlast (by omega), fun r' hr' => ?_⟩
    · by_cases hend : n = breaks (text root)
      · rw [hlast hend]
        exact hstart.le
      · have hstop := hnext (by omega)
        rw [hstart.le_iff, hstop.lineAt_eq]
        exact Nat.le_succ n
    · have hfirst : StartsAt (text root) 0 0 := Or.inl ⟨rfl, rfl⟩
      exact (hzero ▸ hstart).unique hfirst
    · by_cases hend : n = breaks (text root)
      · rw [lineRange, lineStart_none h (by omega)] at hr'
        cases hr'
      · obtain ⟨s, hs, hat, -⟩ := lineRange_spec h (n := n + 1) (by omega)
        obtain rfl : s = r' := by
          rw [hs] at hr'
          simpa using hr'
        exact hat.unique (hnext (by omega))
  · rw [lineRange, lineStart_none h (by omega)]
    rfl
  · rw [h.summary_eq, hother.summary_eq]
    exact Summary.combineChecked_scan _ _

/-- A CR LF cut by the seam of two leaves. -/
def seamRoot : Root :=
  some (branch (.leaf (.new ⟨0, [97, 13], none, true⟩ ⟨0, 2⟩))
    (.leaf (.new ⟨1, [10, 98], none, true⟩ ⟨0, 2⟩)))

/-- The second line of such a tree starts behind the LF. -/
theorem resident_lines_seam : StartsAt [97, 13, 10, 98] 1 3 := by
  have hwf : RootWf .resident seamRoot := by
    refine rootWf_some.mpr (branch_wf ?_ ?_)
    · exact ⟨by decide, by decide, rfl⟩
    · exact ⟨by decide, by decide, rfl⟩
  obtain ⟨r, hstart, -, hat⟩ := (resident_lines hwf).1 1
  have heval : lineStart seamRoot 1 = some (some 3) := by decide
  obtain rfl : r = some 3 := Option.some.inj (hstart.symm.trans heval)
  exact hat 3 rfl

/-- Lines are numbered from zero: one line starts at the offset `0` of line `0`. -/
theorem line_at_start_of_empty :
    ¬∀ root, RootWf .resident root → ∀ o n, snapshotLineAt root o = some (.ok n) →
      n = linesStarted root o := by
  intro hall
  have h := hall none (rootWf_none _) 0 0 (by decide)
  exact absurd h (by decide)

end BareLine.Tree
