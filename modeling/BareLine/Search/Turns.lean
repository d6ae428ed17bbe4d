import BareLine.Search.Whole

/-!
# What one turn of a stream does

A stream follows a text: it retains the part of it from `base` to `next`.  A turn fails,
ends with nothing left to find, moves on without an emission, or emits the match that the
whole-subject loop finds at the same position.
-/

namespace BareLine.Search

open Lib
open String (utf8Len)

/-! ## §1 Invariant and weight -/

/-- The reader returns what the text has from an offset on. -/
def ReadsFrom (text : Text) (read : Nat → Nat → Except Completeness Text) : Prop :=
  ∀ offset size part, read offset size = .ok part →
    ∃ before after, text = before ++ (part ++ after) ∧ utf8Len before = offset

namespace Stream

variable (job : StreamJob) (text : Text)

/-- The stream retains the text between two parts of it. -/
structure Follows (s : Stream) (before after : Text) : Prop where
  text_eq : text = before ++ (s.text ++ after)
  base_eq : s.base = utf8Len before
  next_eq : s.next = s.base + utf8Len s.text
  boundary : isScalarBoundary s.text s.start = true
  head : s.loading = true → s.start = 0
  /-- An attempt after an empty match has a scalar in front of it. -/
  ahead : s.loading = false → s.afterEmpty = true → s.next ≠ utf8Len text →
    s.start < utf8Len s.text

/-- How much is left to do: windows to read, then scalars to pass. -/
def weight (s : Stream) : Nat :=
  (utf8Len text - s.next) * (2 * utf8Len text + 3) +
    if s.loading then if s.next = utf8Len text then 2 * utf8Len text + 3 else 0
    else 2 * (utf8Len s.text - s.start) + (if s.afterEmpty then 0 else 1) + 1

/-- The turn waits for the empty match that it found at a temporary edge, and the engine does
not find that match again from the edge: the attempt began in the text that is dropped. -/
def Loses (s : Stream) : Prop :=
  s.loading = false ∧ s.eof job = false ∧ s.position ≤ job.selection.stop ∧
    ∃ captures range,
      job.engine.partialMatch (job.interrupt s.turns) s.text s.start
        (nextOptions s.afterEmpty) false = .ok (.matched captures) ∧
      captures.range = some range ∧ range.isEmpty = true ∧ range.stop = utf8Len s.text ∧
      s.base + range.stop ≤ job.selection.stop ∧
      job.engine.find text (s.base + range.stop) (nextOptions s.afterEmpty) ≠
        some (captures.shift s.base)

/-- What the whole-subject loop emits from the stream's position on. -/
def Remaining (isWord : Nat → Nat → Option Bool) (s : Stream) (out : List Captures) : Prop :=
  ScansTo job.engine isWord text job.selection.stop s.position s.afterEmpty out

/-! ## §2 What a turn may lead to -/

/-- The four ends of a turn. -/
inductive Turn (isWord : Nat → Nat → Option Bool) (s : Stream) : Outcome → Prop
  | failed (limit : Completeness) : Turn isWord s (.finished (.error limit) s.emitted)
  | ended (hnothing : ∀ out, s.Remaining job text isWord out → out = []) :
    Turn isWord s (.finished (.ok ()) s.emitted)
  | moved {s' : Stream} (hfollows : ∃ before after, s'.Follows text before after)
    (hweight : s'.weight text < s.weight text) (hemitted : s'.emitted = s.emitted)
    (horder : s.position < s'.position ∨
      s'.position = s.position ∧ s'.afterEmpty = s.afterEmpty)
    (hkeeps : ¬ s.Loses job text → ∀ out,
      s.Remaining job text isWord out → s'.Remaining job text isWord out) :
    Turn isWord s (.next s')
  | emitted {s' : Stream} {captures : Captures} {range : Range}
    (hfollows : ∃ before after, s'.Follows text before after)
    (hweight : s'.weight text < s.weight text)
    (hemitted : s'.emitted = s.emitted ++ [captures])
    (hposition : s.position ≤ job.selection.stop)
    (hboundary : isScalarBoundary text s.position = true)
    (hfind : job.engine.find text s.position (nextOptions s.afterEmpty) = some captures)
    (hvalid : Engine.validCaptures text captures = true)
    (hrange : captures.range = some range) (hresume : s'.position = range.stop)
    (hempty : s'.afterEmpty = range.isEmpty) : Turn isWord s (.next s')

variable {job text}

/-- A retained text is a part of the whole. -/
theorem Follows.next_le {s : Stream} {before after : Text} (h : s.Follows text before after) :
    s.next + utf8Len after = utf8Len text := by
  rw [h.text_eq, h.next_eq, h.base_eq, String.utf8Len_append, String.utf8Len_append]
  omega

/-- At the end of the text nothing follows. -/
theorem Follows.after_eq_nil {s : Stream} {before after : Text}
    (h : s.Follows text before after) (hnext : s.next = utf8Len text) : after = [] := by
  have := h.next_le
  exact String.utf8Len_eq_zero.mp (by omega)

/-- The position is a boundary of the whole text. -/
theorem Follows.position_boundary {s : Stream} {before after : Text}
    (h : s.Follows text before after) : isScalarBoundary text s.position = true := by
  rw [h.text_eq, position, h.base_eq]
  exact isScalarBoundary_within before after h.boundary

/-- Inside a window the weight stays below that of one more window. -/
theorem Follows.inner_lt {s : Stream} {before after : Text} (h : s.Follows text before after) :
    2 * (utf8Len s.text - s.start) + (if s.afterEmpty then 0 else 1) + 1 <
      2 * utf8Len text + 3 := by
  have := h.next_le
  have := h.next_eq
  split <;> omega

/-! ## §3 Loading a window -/

section Turns

variable (isWord : Nat → Nat → Option Bool) (hlength : job.length = utf8Len text)
variable {s : Stream} {before after : Text} (hfollows : s.Follows text before after)
include hlength hfollows

/-- A window that was read joins the retained text. -/
theorem Follows.load_turn (hread : ReadsFrom text job.read) (hloading : s.loading = true) :
    Turn job text isWord s (s.load job) := by
  have hstart := hfollows.head hloading
  have hnext := hfollows.next_le
  unfold load
  split
  · exact .failed _
  split
  · rename_i hlt
    split
    · exact .failed _
    · rename_i part hpart
      split
      · exact .failed _
      split
      · exact .failed _
      · rename_i hsize _
        obtain ⟨hne, -⟩ := not_or.mp hsize
        -- The reader's part is what follows the retained text.
        obtain ⟨before', after', htext, hlen⟩ := hread _ _ _ hpart
        have hcut := splitAtByte_eq_some.mpr ⟨htext, hlen⟩
        have hcut' : splitAtByte text s.next = some (before ++ s.text, after) := by
          refine splitAtByte_eq_some.mpr ⟨?_, ?_⟩
          · rw [List.append_assoc]
            exact hfollows.text_eq
          · rw [String.utf8Len_append, hfollows.next_eq, hfollows.base_eq]
        obtain ⟨rfl, rfl⟩ := Prod.mk.inj (Option.some.inj (hcut.symm.trans hcut'))
        have hpos : 0 < utf8Len part :=
          Nat.pos_of_ne_zero fun h => hne (String.utf8Len_eq_zero.mp h)
        rw [String.utf8Len_append] at hnext
        have hfollows' : Follows text { s with
            text := s.text ++ part, next := s.next + utf8Len part, loading := false,
            turns := s.turns + 1 } before after' := by
          refine ⟨?_, hfollows.base_eq, ?_, ?_, (fun h => nomatch h), fun _ _ _ => ?_⟩
          · rw [htext]
            simp only [List.append_assoc]
          · simp only [String.utf8Len_append]
            rw [hfollows.next_eq]
            omega
          · simp only [hstart, isScalarBoundary_zero]
          · simp only [hstart, String.utf8Len_append]
            omega
        refine .moved ⟨_, _, hfollows'⟩ ?_ rfl (.inr ⟨rfl, rfl⟩) fun _ out h => h
        have hinner := hfollows'.inner_lt
        have hmul : (utf8Len text - (s.next + utf8Len part) + 1) * (2 * utf8Len text + 3) ≤
            (utf8Len text - s.next) * (2 * utf8Len text + 3) :=
          Nat.mul_le_mul_right _ (by omega)
        simp only [weight, hloading, if_true, Bool.false_eq_true, if_false] at hinner ⊢
        rw [Nat.add_mul, Nat.one_mul] at hmul
        omega
  · rename_i hge
    have heq : s.next = utf8Len text := by omega
    have hfollows' : Follows text { s with loading := false, turns := s.turns + 1 }
        before after :=
      ⟨hfollows.text_eq, hfollows.base_eq, hfollows.next_eq, hfollows.boundary,
        (fun h => nomatch h), fun _ _ h => absurd heq h⟩
    refine .moved ⟨_, _, hfollows'⟩ ?_ rfl (.inr ⟨rfl, rfl⟩) fun _ out h => h
    have hinner := hfollows'.inner_lt
    simp only [weight, hloading, heq, if_true, Bool.false_eq_true, if_false] at hinner ⊢
    omega

/-! ## §4 Retaining a suffix and emitting a match -/

omit hfollows in
theorem eof_iff : s.eof job = true ↔ s.next = utf8Len text := by
  rw [eof, beq_iff_eq, hlength]

omit hfollows in
theorem not_eof_iff : s.eof job = false ↔ s.next ≠ utf8Len text := by
  rw [eof, beq_eq_false_iff_ne, hlength]

/-- The text before an offset is dropped, unless the text has ended. -/
theorem Follows.retain_turn (hloading : s.loading = false) {offset : Nat}
    (hoffset : isScalarBoundary s.text offset = true) (hle : s.start ≤ offset)
    (hended : s.eof job = true → ∀ out, s.Remaining job text isWord out → out = [])
    (hkeeps : s.eof job = false → ¬ s.Loses job text → ∀ out,
      s.Remaining job text isWord out →
        ScansTo job.engine isWord text job.selection.stop (s.base + offset) s.afterEmpty out) :
    Turn job text isWord s (s.retain job offset) := by
  unfold retain
  cases heof : s.eof job with
  | true => exact .ended (hended heof)
  | false =>
    have hnext := (not_eof_iff hlength).mp heof
    obtain ⟨dropped, kept, hcut, hlen⟩ := isScalarBoundary_iff.mp hoffset
    refine .moved ⟨before ++ dropped, after, ?_, ?_, ?_, isScalarBoundary_zero _,
      fun _ => rfl, (fun h => nomatch h)⟩ ?_ rfl ?_ fun hloses out h => ?_
    · simp only [hcut, ← hlen, dropBytes_append, List.append_assoc]
      rw [hfollows.text_eq, hcut, List.append_assoc]
    · simp only [String.utf8Len_append, hlen, hfollows.base_eq]
    · simp only [hcut, ← hlen, dropBytes_append]
      rw [hfollows.next_eq, hcut, String.utf8Len_append, Nat.add_assoc]
    · simp only [weight, hloading, if_true, if_neg hnext, Bool.false_eq_true, if_false]
      omega
    · rcases Nat.lt_or_eq_of_le hle with hlt | heq
      · exact .inl (Nat.add_lt_add_left hlt _)
      · exact .inr ⟨congrArg (s.base + ·) heq.symm, rfl⟩
    · exact hkeeps heof hloses out h

section Streaming

variable (hstreams : job.engine.Streams) (hplain : job.engine.wholeWord = false)
variable (hloading : s.loading = false) (hposition : s.position ≤ job.selection.stop)
include hstreams hloading hposition

/-- A match that does not wait is the one the whole-subject loop finds. -/
theorem Follows.emit_turn {captures : Captures} {range : Range}
    (hfind : job.engine.find (s.text ++ after) s.start (nextOptions s.afterEmpty) =
      some captures)
    (hvalid : Engine.validCaptures s.text captures = true)
    (hrange : captures.range = some range)
    (hwait : ¬ (range.isEmpty ∧ range.stop = utf8Len s.text ∧ s.eof job = false)) :
    Turn job text isWord s (s.emit job captures range) := by
  obtain ⟨hordered, -, hstop⟩ := Engine.range_of_validCaptures hvalid hrange
  have hstopLe := le_of_isScalarBoundary hstop
  have hstart := isScalarBoundary_append after hfollows.boundary
  have hge := (Engine.le_of_find hstreams hstart hfind hrange).1
  unfold emit
  dsimp only
  split
  · exact .failed _
  · refine .emitted ⟨before, after, hfollows.text_eq, hfollows.base_eq, hfollows.next_eq, hstop,
        (fun h => absurd (h.symm.trans hloading) Bool.noConfusion), fun _ hempty hnext => ?_⟩
      ?_ rfl hposition hfollows.position_boundary ?_ ?_ ?_ (Nat.add_comm ..)
      (isEmpty_shiftRange ..).symm
    · have hne : range.stop ≠ utf8Len s.text := fun heq =>
        hwait ⟨hempty, heq, (not_eof_iff hlength).mpr hnext⟩
      exact Nat.lt_of_le_of_ne hstopLe hne
    · have hprogress : range.stop = s.start → range.isEmpty = true ∧ s.afterEmpty = false := by
        intro heq
        have hrange' : range = ⟨s.start, s.start⟩ := by
          cases range
          dsimp only at heq hordered hge
          congr 1
          omega
        refine ⟨by rw [hrange']; exact Range.isEmpty_iff.mpr (Nat.le_refl _), ?_⟩
        cases hae : s.afterEmpty with
        | false => rfl
        | true =>
          rw [hae] at hfind
          exact absurd (hrange.trans (congrArg some hrange'))
            (hstreams.notEmpty _ _ _ _ rfl hfind)
      simp only [weight, hloading, Bool.false_eq_true, if_false]
      by_cases heq : range.stop = s.start
      · obtain ⟨hempty, hae⟩ := hprogress heq
        simp only [hempty, hae, heq, if_true, Bool.false_eq_true, if_false]
        omega
      · have : s.start < range.stop := by omega
        cases range.isEmpty <;> cases s.afterEmpty <;>
          simp only [if_true, Bool.false_eq_true, if_false] <;> omega
    · rw [hfollows.text_eq, show s.position = s.base + s.start from rfl, hfollows.base_eq,
        Engine.find_tail hstreams before _ hstart, hfind]
      rfl
    · rw [hfollows.text_eq, hfollows.base_eq]
      exact Engine.validCaptures_within before after hvalid
    · rw [Captures.range_shift, hrange]
      rfl

end Streaming

/-! ## §5 The turn of the inner loop -/

omit hlength hfollows in
/-- Inside the whole text the iteration advances as inside the retained part, unless a CR
ends that part. -/
theorem advance_within (e : Engine) {part : Text} {start : Nat} (before after : Text)
    (hstart : isScalarBoundary part start = true)
    (hrest : start < utf8Len part ∨ after = [])
    (hcr : start + 1 = utf8Len part → part.getLast? = some '\r' → after = []) :
    e.advance (before ++ (part ++ after)) (utf8Len before + start) =
      (e.advance part start).map (utf8Len before + ·) := by
  obtain ⟨passed, rest, rfl, rfl⟩ := isScalarBoundary_iff.mp hstart
  have hfrom : getFrom (before ++ (passed ++ rest ++ after)) (utf8Len before + utf8Len passed) =
      some (rest ++ after) := by
    rw [List.append_assoc, ← List.append_assoc, ← String.utf8Len_append, getFrom_append]
  rw [Engine.advance, Engine.advance, hfrom, getFrom_append]
  dsimp only
  -- The two starts of CRLF agree: only a CR that ends the part could join an LF after it.
  have hcrlf : ['\r', '\n'].isPrefixOf (rest ++ after) = ['\r', '\n'].isPrefixOf rest := by
    rcases rest with _ | ⟨c, _ | ⟨d, rest⟩⟩
    · rw [hrest.resolve_left (by simp)]
      rfl
    · by_cases hc : c = '\r'
      · subst hc
        rw [hcr (by rw [String.utf8Len_append]; rfl) (by simp)]
        rfl
      · have hne : ('\r' == c) = false := beq_eq_false_iff_ne.mpr (Ne.symm hc)
        simp only [List.cons_append, List.isPrefixOf, hne, Bool.false_and]
    · rfl
  rw [hcrlf]
  split
  · rw [Option.map_some, Nat.add_assoc]
  · cases rest with
    | nil =>
      rw [hrest.resolve_left (by simp)]
      rfl
    | cons c rest => simp only [List.cons_append, List.head?_cons, Option.map_some, Nat.add_assoc]

section Streaming

variable (hstreams : job.engine.Streams)
variable (hloading : s.loading = false) (hposition : s.position ≤ job.selection.stop)
include hstreams hloading hposition

/-- No match after an empty match: the iteration advances, or waits at a CR. -/
theorem Follows.advance_turn {interrupt : Option Completeness} (hempty : s.afterEmpty = true)
    (hanswer : job.engine.partialMatch interrupt s.text s.start (nextOptions s.afterEmpty)
      (s.eof job) = .ok .noMatch) :
    Turn job text isWord s
      (if s.eof job = false ∧ s.start + 1 = utf8Len s.text ∧ s.text.getLast? = some '\r' then
        s.retain job s.start
      else match job.engine.advance s.text s.start with
        | some advanced =>
          .next { s with afterEmpty := false, start := advanced, turns := s.turns + 1 }
        | none => { s with afterEmpty := false }.retain job (utf8Len s.text)) := by
  have hmore : s.eof job = true → after = [] := fun h =>
    hfollows.after_eq_nil ((eof_iff hlength).mp h)
  obtain ⟨hstart, hend, hno⟩ := Engine.noMatchBefore_of_noMatch hstreams after hmore hanswer
  have hstart' := isScalarBoundary_append after hstart
  split
  · rename_i hcr
    exact hfollows.retain_turn isWord hlength hloading hstart (Nat.le_refl _)
      (fun h => absurd (h.symm.trans hcr.1) Bool.noConfusion) fun _ _ out h => h
  · rename_i hcr
    have hahead : s.eof job = false → s.start < utf8Len s.text := fun h =>
      hfollows.ahead hloading hempty ((not_eof_iff hlength).mp h)
    -- An anchored call found nothing, so there is nothing in any extension of the subject.
    have hnone : job.engine.find (s.text ++ after) s.start (nextOptions true) = none := by
      cases heof : s.eof job with
      | true => exact hempty ▸ hend heof
      | false =>
        have hlt := hahead heof
        obtain heq | ⟨-, -, hfind⟩ := hno heof
        · refine absurd ⟨heof, ?_⟩ hcr
          unfold Engine.edge at heq
          split at heq
          · rename_i hlast
            exact ⟨by omega, hlast.2⟩
          · omega
        · rwa [hempty] at hfind
    have hfind : job.engine.find text s.position (nextOptions true) = none := by
      rw [hfollows.text_eq, show s.position = s.base + s.start from rfl, hfollows.base_eq,
        Engine.find_tail hstreams before _ hstart', hnone]
      rfl
    have hadvance : job.engine.advance text s.position =
        (job.engine.advance s.text s.start).map (s.base + ·) := by
      rw [show s.position = s.base + s.start from rfl, hfollows.base_eq]
      conv_lhs => rw [hfollows.text_eq]
      refine advance_within job.engine before after hstart ?_ fun hlast hr => ?_
      · cases heof : s.eof job with
        | true => exact .inr (hmore heof)
        | false => exact .inl (hahead heof)
      · exact hmore (Bool.eq_true_of_not_eq_false fun h => hcr ⟨h, hlast, hr⟩)
    have hremaining : ∀ out, s.Remaining job text isWord out ↔ ScansTo job.engine isWord text
        job.selection.stop s.position true out := fun out => by rw [Remaining, hempty]
    split
    · rename_i advanced hadvanced
      obtain ⟨hlt, hboundary⟩ := advance_spec hstart hadvanced
      have hle := le_of_isScalarBoundary hboundary
      refine .moved ⟨before, after, hfollows.text_eq, hfollows.base_eq, hfollows.next_eq,
        hboundary, (fun h => absurd (h.symm.trans hloading) Bool.noConfusion),
        fun _ h => (by cases h)⟩ ?_ rfl (.inl (Nat.add_lt_add_left hlt _)) fun _ out hout => ?_
      · simp only [weight, hloading, hempty, if_true, Bool.false_eq_true, if_false]
        omega
      · have hout := (scansTo_advance hfollows.position_boundary hposition hfind).mp
          ((hremaining out).mp hout)
        rw [hadvance, hadvanced] at hout
        exact hout
    · rename_i hadvanced
      have heof : s.eof job = true := by
        refine Bool.eq_true_of_not_eq_false fun h => ?_
        have hlt := hahead h
        obtain ⟨passed, rest, hcut, hlen⟩ := isScalarBoundary_iff.mp hstart
        rw [Engine.advance, hcut, ← hlen, getFrom_append] at hadvanced
        cases rest with
        | nil =>
          rw [hcut, String.utf8Len_append, hlen, String.utf8Len_nil] at hlt
          omega
        | cons c rest =>
          dsimp only at hadvanced
          split at hadvanced <;> cases hadvanced
      rw [show retain job { s with afterEmpty := false } _ = .finished (.ok ()) s.emitted from
        if_pos heof]
      refine .ended fun out hout => ?_
      have hout := (scansTo_advance hfollows.position_boundary hposition hfind).mp
        ((hremaining out).mp hout)
      rw [hadvance, hadvanced] at hout
      exact hout

variable (hplain : job.engine.wholeWord = false)
include hplain

/-- An empty match at a temporary edge waits there.  Nothing is lost when the engine finds
the match again from the edge, or when the edge lies past the selection. -/
theorem Follows.wait_turn {captures : Captures} {range : Range}
    (hanswer : job.engine.partialMatch (job.interrupt s.turns) s.text s.start
      (nextOptions s.afterEmpty) (s.eof job) = .ok (.matched captures))
    (hrange : captures.range = some range)
    (hwait : range.isEmpty ∧ range.stop = utf8Len s.text ∧ s.eof job = false) :
    Turn job text isWord s (s.retain job range.start) := by
  obtain ⟨hempty, hstop, heof⟩ := hwait
  have hmore : s.eof job = true → after = [] := fun h =>
    hfollows.after_eq_nil ((eof_iff hlength).mp h)
  obtain ⟨hstart, hvalid, hfind⟩ := Engine.find_of_matched hstreams after hmore hanswer
  have hstart' := isScalarBoundary_append after hstart
  obtain ⟨hordered, hboundary, -⟩ := Engine.range_of_validCaptures hvalid hrange
  have hge := (Engine.le_of_find hstreams hstart' hfind hrange).1
  have heq : range.start = range.stop :=
    Nat.le_antisymm hordered (Range.isEmpty_iff.mp hempty)
  refine hfollows.retain_turn isWord hlength hloading hboundary hge
    (fun h => absurd (h.symm.trans heof) Bool.noConfusion) fun _ hloses out hout => ?_
  have hfindT : job.engine.find text s.position (nextOptions s.afterEmpty) =
      some (captures.shift s.base) := by
    rw [hfollows.text_eq, show s.position = s.base + s.start from rfl, hfollows.base_eq,
      Engine.find_tail hstreams before _ hstart', hfind]
    rfl
  have hedge : isScalarBoundary text (s.base + range.start) = true := by
    rw [hfollows.text_eq, hfollows.base_eq]
    exact isScalarBoundary_within before after hboundary
  -- Past the selection no loop emits; in it the match is found again at its edge, or lost here.
  by_cases hpast : job.selection.stop < s.base + range.start
  · have hvalidT : Engine.validCaptures text (captures.shift s.base) = true := by
      rw [hfollows.text_eq, hfollows.base_eq]
      exact Engine.validCaptures_within before after hvalid
    have hrangeT : (captures.shift s.base).range = some (shiftRange s.base range) := by
      rw [Captures.range_shift, hrange]
      rfl
    have hstopT : job.selection.stop < (shiftRange s.base range).stop := by
      show job.selection.stop < range.stop + s.base
      omega
    have hout := (scansTo_match hfollows.position_boundary hposition hplain hfindT hvalidT
      hrangeT).mp hout
    rw [if_pos hstopT] at hout
    exact (scansTo_past hpast).mpr hout
  · have hagain : job.engine.find text (s.base + range.start) (nextOptions s.afterEmpty) =
        some (captures.shift s.base) := by
      refine Classical.byContradiction fun hne => hloses ⟨hloading, heof, hposition, captures,
        range, ?_, hrange, hempty, hstop, ?_, ?_⟩
      · rwa [heof] at hanswer
      · rw [← heq]
        exact Nat.not_lt.mp hpast
      · rwa [← heq]
    refine (scansTo_congr hstreams hplain hfollows.position_boundary hedge
      (Nat.add_le_add_left hge _) (hfindT.trans hagain.symm) fun _ h => ?_).mp hout
    rw [hagain] at h
    exact nomatch h

omit hposition in
/-- A stretch without matches is dropped. -/
theorem Follows.skip_turn {offset : Nat} (hoffset : isScalarBoundary s.text offset = true)
    (hle : s.start ≤ offset) (hanchored : s.afterEmpty = true → offset = s.start)
    (hended : s.eof job = true → ∀ out, s.Remaining job text isWord out → out = [])
    (hno : s.eof job = false → job.engine.NoMatchBefore (s.text ++ after) s.start offset
      (nextOptions s.afterEmpty)) :
    Turn job text isWord s (s.retain job offset) := by
  refine hfollows.retain_turn isWord hlength hloading hoffset hle hended
    fun heof _ out hout => ?_
  have hstart := isScalarBoundary_append after hfollows.boundary
  refine (scansTo_skip hstreams hplain hfollows.position_boundary (fun h => ?_) ?_).mp hout
  · rw [hanchored h]
    rfl
  · rw [hfollows.text_eq, show s.position = s.base + s.start from rfl, hfollows.base_eq]
    exact Engine.noMatchBefore_tail hstreams before hstart (hno heof)

omit hposition in
/-- One turn of the inner loop is one of the four. -/
theorem Follows.attempt_turn : Turn job text isWord s (s.attempt job) := by
  have hmore : s.eof job = true → after = [] := fun h =>
    hfollows.after_eq_nil ((eof_iff hlength).mp h)
  unfold attempt
  split
  · rename_i hpast
    exact .ended fun out hout => (scansTo_past hpast).mp hout
  rename_i hpast
  have hposition : s.position ≤ job.selection.stop := Nat.not_lt.mp hpast
  cases hanswer : job.engine.partialMatch (job.interrupt s.turns) s.text s.start
      (nextOptions s.afterEmpty) (s.eof job) with
  | error limit => exact .failed limit
  | ok answer =>
    cases answer with
    | noMatch =>
      dsimp only
      split
      · rename_i hempty
        exact hfollows.advance_turn isWord hlength hstreams hloading hposition hempty hanswer
      rename_i hempty
      have hempty : s.afterEmpty = false := Bool.eq_false_of_not_eq_true hempty
      obtain ⟨hstart, hend, hno⟩ := Engine.noMatchBefore_of_noMatch hstreams after hmore hanswer
      have hended : s.eof job = true → ∀ out, s.Remaining job text isWord out → out = [] := by
        intro heof out hout
        have hnone := hend heof
        have hfind : job.engine.find text s.position (nextOptions false) = none := by
          rw [hfollows.text_eq, show s.position = s.base + s.start from rfl, hfollows.base_eq,
            Engine.find_tail hstreams before _ (isScalarBoundary_append after hstart),
            ← hempty, hnone]
          rfl
        rw [Remaining, hempty] at hout
        exact (scansTo_noMatch hfollows.position_boundary hfind).mp hout
      have hfirst : s.afterEmpty = true → ∀ {offset : Nat}, offset = s.start := fun h =>
        absurd (h.symm.trans hempty) Bool.noConfusion
      have hlen := le_of_isScalarBoundary hstart
      split
      · rename_i hcr
        have hedge : Engine.edge s.text s.start = utf8Len s.text - 1 := if_pos hcr.2
        refine hfollows.skip_turn isWord hlength hstreams hloading hplain ?_ ?_
          (fun h => hfirst h) hended fun heof => ?_
        · rw [← hedge]
          exact Engine.edge_boundary ..
        · have := hcr.2.1
          omega
        · rw [← hedge]
          exact hno heof
      · rename_i hcr
        refine hfollows.skip_turn isWord hlength hstreams hloading hplain
          (isScalarBoundary_length _) hlen (fun h => hfirst h) hended fun heof => ?_
        have hedge : Engine.edge s.text s.start = utf8Len s.text :=
          if_neg fun h => hcr ⟨heof, h⟩
        rw [← hedge]
        exact hno heof
    | partialAt offset =>
      obtain ⟨-, hoffset, hle, hanchored, heof, hno⟩ :=
        Engine.noMatchBefore_of_partialAt hstreams after hanswer
      exact hfollows.skip_turn isWord hlength hstreams hloading hplain hoffset hle
        hanchored (fun h => absurd (h.symm.trans heof) Bool.noConfusion) fun _ => hno
    | matched captures =>
      dsimp only
      split
      · exact .failed _
      · rename_i range hrange
        split
        · rename_i hwait
          exact hfollows.wait_turn isWord hlength hstreams hloading hposition hplain hanswer
            hrange hwait
        · rename_i hwait
          obtain ⟨-, hvalid, hfind⟩ := Engine.find_of_matched hstreams after hmore hanswer
          exact hfollows.emit_turn isWord hlength hstreams hloading hposition hfind hvalid
            hrange hwait

end Streaming

/-- Every turn of a stream that follows a text is one of the four. -/
theorem Follows.step_turn (hread : ReadsFrom text job.read) (hstreams : job.engine.Streams)
    (hplain : job.engine.wholeWord = false) : Turn job text isWord s (s.step job) := by
  unfold step
  split
  · rename_i hloading
    exact hfollows.load_turn isWord hlength hread hloading
  · rename_i hloading
    exact hfollows.attempt_turn isWord hlength hstreams (Bool.eq_false_of_not_eq_true hloading)
      hplain

end Turns

end Stream

end BareLine.Search
