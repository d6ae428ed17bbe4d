import BareLine.Search.Stream

/-!
# The whole-subject loop, turn by turn

`ScansTo` says what the loop of `scan` emits from an offset on.  Its rules follow the
engine's answer at that offset, so that a stream's turn can be compared with a turn of the
loop, or with none where the stream only moves on.
-/

namespace BareLine.Search

open Lib
open String (utf8Len)

variable (engine : Engine) (isWord : Nat → Nat → Option Bool) (text : Text) (stop : Nat)

/-! ## §1 The loop as a relation -/

/-- The loop emits `out` from `start` on. -/
def ScansTo (start : Nat) (afterEmpty : Bool) (out : List Captures) : Prop :=
  ∃ fuel status, scanWhole engine isWord text stop fuel start afterEmpty = some (out, status)

variable {engine isWord text stop}

/-- More fuel gives the same result. -/
theorem scanWhole_mono {fuel more start : Nat} {afterEmpty : Bool}
    {result : List Captures × Except Completeness Unit} (hle : fuel ≤ more)
    (h : scanWhole engine isWord text stop fuel start afterEmpty = some result) :
    scanWhole engine isWord text stop more start afterEmpty = some result := by
  induction fuel generalizing more start afterEmpty result with
  | zero => exact nomatch h
  | succ fuel ih =>
    obtain ⟨more, rfl⟩ : ∃ k, more = k + 1 := ⟨more - 1, by omega⟩
    have hle : fuel ≤ more := Nat.le_of_succ_le_succ hle
    unfold scanWhole at h ⊢
    split at h
    · rename_i hpast
      rwa [if_pos hpast]
    · rename_i hpast
      rw [if_neg hpast]
      split at h
      · exact h
      · split at h
        · rename_i hfirst
          rwa [if_pos hfirst]
        · rename_i hfirst
          rw [if_neg hfirst]
          split at h
          · exact h
          · exact ih hle h
      · split at h
        · exact h
        · split at h
          · rename_i hstop
            rwa [if_pos hstop]
          · rename_i hstop
            rw [if_neg hstop]
            dsimp only at h ⊢
            split at h
            · exact h
            · split at h
              · exact h
              · exact ih hle h
            · obtain ⟨rest, hrest, rfl⟩ := Option.map_eq_some_iff.mp h
              exact Option.map_eq_some_iff.mpr ⟨rest, ih hle hrest, rfl⟩

/-- A run has at least one turn. -/
theorem scansTo_iff {start : Nat} {afterEmpty : Bool} {out : List Captures} :
    ScansTo engine isWord text stop start afterEmpty out ↔ ∃ fuel status,
      scanWhole engine isWord text stop (fuel + 1) start afterEmpty = some (out, status) := by
  constructor
  · rintro ⟨fuel, status, h⟩
    exact ⟨fuel, status, scanWhole_mono (Nat.le_succ fuel) h⟩
  · rintro ⟨fuel, status, h⟩
    exact ⟨fuel + 1, status, h⟩

/-! ## §2 One rule for each answer -/

variable {start : Nat} {afterEmpty : Bool} {out : List Captures}

theorem ends_iff {result : Except Completeness Unit} :
    (∃ (_ : Nat) (status : Except Completeness Unit),
      some (([], result) : List Captures × _) = some (out, status)) ↔ out = [] := by
  constructor
  · rintro ⟨-, status, h⟩
    exact (Prod.mk.inj (Option.some.inj h)).1.symm
  · rintro rfl
    exact ⟨0, result, rfl⟩

/-- Past the selection nothing is emitted. -/
theorem scansTo_past (h : stop < start) :
    ScansTo engine isWord text stop start afterEmpty out ↔ out = [] := by
  rw [scansTo_iff]
  simp only [scanWhole, if_pos h]
  exact ends_iff

variable (hstart : isScalarBoundary text start = true)
include hstart

/-- Without a match a first attempt ends the loop. -/
theorem scansTo_noMatch (hfind : engine.find text start (nextOptions false) = none) :
    ScansTo engine isWord text stop start false out ↔ out = [] := by
  by_cases hpast : stop < start
  · exact scansTo_past hpast
  · rw [scansTo_iff]
    simp only [scanWhole, if_neg hpast, Engine.run, hstart, hfind, Bool.not_true,
      Bool.false_eq_true, if_false, Bool.not_false, if_true]
    exact ends_iff

/-- After an empty match the loop moves on by one scalar or CRLF. -/
theorem scansTo_advance (hle : start ≤ stop)
    (hfind : engine.find text start (nextOptions true) = none) :
    ScansTo engine isWord text stop start true out ↔
      match engine.advance text start with
      | none => out = []
      | some advanced => ScansTo engine isWord text stop advanced false out := by
  rw [scansTo_iff]
  simp only [scanWhole, if_neg (Nat.not_lt.mpr hle), Engine.run, hstart, hfind, Bool.not_true,
    Bool.false_eq_true, if_false]
  cases engine.advance text start with
  | none => exact ends_iff
  | some advanced => rfl

/-- A match that is not accepted ends the loop. -/
theorem scansTo_invalid {captures : Captures}
    (hfind : engine.find text start (nextOptions afterEmpty) = some captures)
    (hinvalid : Engine.validCaptures text captures = false ∨ captures.range = none) :
    ScansTo engine isWord text stop start afterEmpty out ↔ out = [] := by
  by_cases hpast : stop < start
  · exact scansTo_past hpast
  · rw [scansTo_iff]
    cases hvalid : Engine.validCaptures text captures with
    | false =>
      simp only [scanWhole, if_neg hpast, Engine.run, hstart, hfind, hvalid, Bool.not_true,
        Bool.false_eq_true, if_false]
      exact ends_iff
    | true =>
      have hrange := hinvalid.resolve_left (by rw [hvalid]; exact Bool.noConfusion)
      simp only [scanWhole, if_neg hpast, Engine.run, hstart, hfind, hvalid, hrange,
        Bool.not_true, Bool.false_eq_true, if_false, if_true]
      exact ends_iff

/-- A match inside the selection is emitted, and the loop resumes at its end; one past the
selection ends it. -/
theorem scansTo_match {captures : Captures} {range : Range} (hle : start ≤ stop)
    (hplain : engine.wholeWord = false)
    (hfind : engine.find text start (nextOptions afterEmpty) = some captures)
    (hvalid : Engine.validCaptures text captures = true)
    (hrange : captures.range = some range) :
    ScansTo engine isWord text stop start afterEmpty out ↔
      if stop < range.stop then out = []
      else ∃ rest, out = captures :: rest ∧
        ScansTo engine isWord text stop range.stop range.isEmpty rest := by
  rw [scansTo_iff]
  simp only [scanWhole, if_neg (Nat.not_lt.mpr hle), Engine.run, hstart, hfind, hvalid, hrange,
    hplain, Bool.not_true, Bool.false_eq_true, if_false, if_true]
  by_cases hstop : stop < range.stop
  · simp only [if_pos hstop]
    exact ends_iff
  · simp only [if_neg hstop]
    constructor
    · rintro ⟨fuel, status, h⟩
      obtain ⟨rest, hrest, heq⟩ := Option.map_eq_some_iff.mp h
      exact ⟨rest.1, (Prod.mk.inj heq).1.symm, fuel, rest.2, hrest⟩
    · rintro ⟨rest, rfl, fuel, status, hrest⟩
      exact ⟨fuel, status, Option.map_eq_some_iff.mpr ⟨(rest, status), hrest, rfl⟩⟩

/-! ## §3 Offsets with one answer -/

section Offsets

omit hstart

variable (hstreams : engine.Streams) (hplain : engine.wholeWord = false)
include hstreams hplain

/-- Two offsets at which the engine gives one answer give one list. -/
theorem scansTo_congr {offset : Nat} (hstart : isScalarBoundary text start = true)
    (hoffset : isScalarBoundary text offset = true) (hle : start ≤ offset)
    (hfind : engine.find text start (nextOptions afterEmpty) =
      engine.find text offset (nextOptions afterEmpty))
    (hsome : afterEmpty = true → engine.find text offset (nextOptions afterEmpty) ≠ none) :
    ScansTo engine isWord text stop start afterEmpty out ↔
      ScansTo engine isWord text stop offset afterEmpty out := by
  cases hanswer : engine.find text offset (nextOptions afterEmpty) with
  | none =>
    cases afterEmpty with
    | true => exact absurd hanswer (hsome rfl)
    | false => rw [scansTo_noMatch hstart (hfind.trans hanswer), scansTo_noMatch hoffset hanswer]
  | some captures =>
    have hfind := hfind.trans hanswer
    by_cases hinvalid : Engine.validCaptures text captures = false ∨ captures.range = none
    · rw [scansTo_invalid hstart hfind hinvalid, scansTo_invalid hoffset hanswer hinvalid]
    · obtain ⟨hvalid, hrange⟩ := not_or.mp hinvalid
      have hvalid := Bool.eq_true_of_not_eq_false hvalid
      obtain ⟨range, hrange⟩ := Option.ne_none_iff_exists'.mp hrange
      have hstop := (Engine.le_of_find hstreams hoffset hanswer hrange).2
      -- Past the selection one side has stopped; the other finds a match that ends there.
      by_cases hpast : stop < offset
      · rw [scansTo_past hpast]
        by_cases hpast' : stop < start
        · exact scansTo_past hpast'
        · rw [scansTo_match hstart (Nat.not_lt.mp hpast') hplain hfind hvalid hrange,
            if_pos (Nat.lt_of_lt_of_le hpast hstop)]
      · have hle' := Nat.not_lt.mp hpast
        rw [scansTo_match hstart (Nat.le_trans hle hle') hplain hfind hvalid hrange,
          scansTo_match hoffset hle' hplain hanswer hvalid hrange]

/-- The loop may start after a stretch without matches. -/
theorem scansTo_skip {offset : Nat} (hstart : isScalarBoundary text start = true)
    (hanchored : afterEmpty = true → offset = start)
    (hno : engine.NoMatchBefore text start offset (nextOptions afterEmpty)) :
    ScansTo engine isWord text stop start afterEmpty out ↔
      ScansTo engine isWord text stop offset afterEmpty out := by
  obtain rfl | ⟨hle, hoffset, hfind⟩ := hno
  · rfl
  · cases afterEmpty with
    | true => rw [hanchored rfl]
    | false =>
      exact scansTo_congr hstreams hplain hstart hoffset hle hfind fun h => nomatch h

end Offsets

/-- `advance` goes forward, to a boundary. -/
theorem advance_spec {advanced : Nat} (h : engine.advance text start = some advanced) :
    start < advanced ∧ isScalarBoundary text advanced = true := by
  obtain ⟨before, rest, rfl, rfl⟩ := isScalarBoundary_iff.mp hstart
  rw [Engine.advance, getFrom_append] at h
  dsimp only at h
  split at h
  · rename_i hcrlf
    obtain ⟨tail, rfl⟩ := List.isPrefixOf_iff_prefix.mp (Bool.and_eq_true_iff.mp hcrlf).2
    cases h
    refine ⟨Nat.lt_add_of_pos_right (by decide), isScalarBoundary_iff.mpr
      ⟨before ++ ['\r', '\n'], tail, by simp, ?_⟩⟩
    rw [String.utf8Len_append]
    rfl
  · cases rest with
    | nil => exact nomatch h
    | cons c rest =>
      cases h
      refine ⟨Nat.lt_add_of_pos_right c.utf8Size_pos, isScalarBoundary_iff.mpr
        ⟨before ++ [c], rest, by simp, ?_⟩⟩
      rw [String.utf8Len_append, String.utf8Len_cons, String.utf8Len_nil, Nat.zero_add]

/-- The loop ends, whatever the text and the pattern. -/
theorem scansTo_total (hstreams : engine.Streams) (hplain : engine.wholeWord = false) :
    ∃ out, ScansTo engine isWord text stop start afterEmpty out := by
  -- Every turn goes forward, or finds the empty match that the next turn may not find.
  induction h : 2 * (utf8Len text - start) + (if afterEmpty then 0 else 1) using
    Nat.strong_induction_on generalizing start afterEmpty with
  | _ n ih =>
    subst h
    by_cases hpast : stop < start
    · exact ⟨[], (scansTo_past hpast).mpr rfl⟩
    have hle := Nat.not_lt.mp hpast
    cases hfind : engine.find text start (nextOptions afterEmpty) with
    | none =>
      cases afterEmpty with
      | false => exact ⟨[], (scansTo_noMatch hstart hfind).mpr rfl⟩
      | true =>
        cases hadvance : engine.advance text start with
        | none =>
          refine ⟨[], (scansTo_advance hstart hle hfind).mpr ?_⟩
          rw [hadvance]
        | some advanced =>
          obtain ⟨hlt, hboundary⟩ := advance_spec hstart hadvance
          have hlen := le_of_isScalarBoundary hboundary
          obtain ⟨out, hout⟩ : ∃ out, ScansTo engine isWord text stop advanced false out :=
            ih _ (by simp only [if_true, Bool.false_eq_true, if_false]; omega) hboundary rfl
          refine ⟨out, (scansTo_advance hstart hle hfind).mpr ?_⟩
          rw [hadvance]
          exact hout
    | some captures =>
      by_cases hinvalid : Engine.validCaptures text captures = false ∨ captures.range = none
      · exact ⟨[], (scansTo_invalid hstart hfind hinvalid).mpr rfl⟩
      · obtain ⟨hvalid, hrange⟩ := not_or.mp hinvalid
        have hvalid := Bool.eq_true_of_not_eq_false hvalid
        obtain ⟨range, hrange⟩ := Option.ne_none_iff_exists'.mp hrange
        by_cases hstop : stop < range.stop
        · refine ⟨[], (scansTo_match hstart hle hplain hfind hvalid hrange).mpr ?_⟩
          rw [if_pos hstop]
        · obtain ⟨hordered, -, hboundary⟩ := Engine.range_of_validCaptures hvalid hrange
          have hlen := le_of_isScalarBoundary hboundary
          obtain ⟨hge, -⟩ := Engine.le_of_find hstreams hstart hfind hrange
          have hprogress : range.stop = start → range.isEmpty = true ∧ afterEmpty = false := by
            intro heq
            refine ⟨Range.isEmpty_iff.mpr (heq ▸ hge), ?_⟩
            cases afterEmpty with
            | false => rfl
            | true =>
              refine absurd hrange ?_
              have : range = ⟨start, start⟩ := by
                cases range
                dsimp only at heq hge hordered
                congr 1
                omega
              rw [this]
              exact hstreams.notEmpty text start _ captures rfl hfind
          obtain ⟨rest, hrest⟩ : ∃ rest, ScansTo engine isWord text stop range.stop
              range.isEmpty rest := ih _ (by
            by_cases heq : range.stop = start
            · obtain ⟨hempty, rfl⟩ := hprogress heq
              rw [hempty, heq]
              simp
            · cases range.isEmpty <;> cases afterEmpty <;>
                simp only [if_true, Bool.false_eq_true, if_false] <;> omega)
            hboundary rfl
          refine ⟨captures :: rest, (scansTo_match hstart hle hplain hfind hvalid hrange).mpr ?_⟩
          rw [if_neg hstop]
          exact ⟨rest, rfl, hrest⟩

end BareLine.Search
