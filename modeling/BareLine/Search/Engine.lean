import BareLine.Search.Types

/-!
# The regex engine and its streaming contract

`Engine` is a compiled PCRE2 pattern as the search uses it.  Two parameters stand for the
library: `find` is `pcre2_match`, and `findPartial` the same call with `PCRE2_PARTIAL_HARD`.
Everything around them (which patterns stream, which answers are accepted, where an
iteration resumes) is the search crate's own code.
-/

namespace BareLine.Search

open Lib
open String (utf8Len)

/-! ## §1 Captures and calls -/

/-- `Captures`: group 0 is the match itself. -/
abbrev Captures := List (Option Range)

/-- `captures[0]` -/
def Captures.range (captures : Captures) : Option Range := captures.head?.join

/-- A range moved by an offset. -/
def shiftRange (offset : Nat) (range : Range) : Range :=
  ⟨range.start + offset, range.stop + offset⟩

/-- Every capture moved by an offset. -/
def Captures.shift (offset : Nat) (captures : Captures) : Captures :=
  captures.map (Option.map (shiftRange offset))

/-- The two option bits that the search sets for one call. -/
structure MatchOptions where
  notEmptyAtStart : Bool
  anchored : Bool
  deriving DecidableEq, Repr

/-- `next_options` -/
def nextOptions (afterEmpty : Bool) : MatchOptions := ⟨afterEmpty, afterEmpty⟩

/-- `PartialMatch` -/
inductive PartialMatch where
  | matched (captures : Captures)
  | partialAt (offset : Nat)
  | noMatch
  deriving DecidableEq, Repr

/-- A compiled pattern: what the library says about it and how it answers. -/
structure Engine where
  /-- The pattern bytes that callout items point into. -/
  pattern : Bytes
  wholeWord : Bool
  crlfNewline : Bool
  /-- `PCRE2_INFO_MAXLOOKBEHIND`, when the call succeeds. -/
  maxLookbehind : Option Nat
  /-- The pattern positions that `pcre2_callout_enumerate` visits, when it succeeds. -/
  calloutItems : Option (List Nat)
  find : Text → Nat → MatchOptions → Option Captures
  findPartial : Text → Nat → MatchOptions → PartialMatch

/-! ## §2 The search crate's side -/

/-- `b"^"`, `b"$"`, `b"\\G"`, `b"\\X"` and `b"(*"`. -/
def hazards : List Bytes := [[94], [36], [92, 71], [92, 88], [40, 42]]

/-- `stream_hazard` -/
def streamHazard (pattern : Bytes) (item : Nat) : Bool :=
  hazards.any fun hazard => hazard.isPrefixOf (pattern.drop item)

namespace Engine

variable (e : Engine)

/-- `Engine::streamable` -/
def streamable : Bool :=
  !e.wholeWord && e.maxLookbehind == some 0 &&
    match e.calloutItems with
    | none => false
    | some items => items.all fun item => !streamHazard e.pattern item

/-- The checks of every reported capture. -/
def validCaptures (text : Text) (captures : Captures) : Bool :=
  captures.all fun
    | none => true
    | some range => decide (range.start ≤ range.stop) && isScalarBoundary text range.start &&
      isScalarBoundary text range.stop

/-- `Engine::partial`; `interrupt` is a limit or a cancellation that fails the call. -/
def partialMatch (interrupt : Option Completeness) (text : Text) (start : Nat)
    (options : MatchOptions) (eof : Bool) : Except Completeness PartialMatch :=
  if !isScalarBoundary text start then .error .unsupportedStreaming
  else match interrupt with
    | some limit => .error limit
    | none =>
      let answer :=
        if eof then
          match e.find text start options with
          | some captures => PartialMatch.matched captures
          | none => .noMatch
        else e.findPartial text start options
      match answer with
      | .noMatch => .ok .noMatch
      | .partialAt offset =>
        if !isScalarBoundary text offset then .error .unsupportedStreaming
        else .ok (.partialAt offset)
      | .matched captures =>
        if validCaptures text captures then .ok (.matched captures)
        else .error .unsupportedStreaming

/-- `Engine::run`, for a call that no limit stops. -/
def run (text : Text) (start : Nat) (options : MatchOptions) :
    Except Completeness (Option Captures) :=
  if !isScalarBoundary text start then .error .unsupportedStreaming
  else match e.find text start options with
    | none => .ok none
    | some captures =>
      if validCaptures text captures then .ok (some captures)
      else .error .unsupportedStreaming

/-- `Engine::advance` -/
def advance (text : Text) (start : Nat) : Option Nat :=
  match getFrom text start with
  | none => none
  | some rest =>
    if e.crlfNewline && ['\r', '\n'].isPrefixOf rest then some (start + 2)
    else rest.head?.map fun c => start + c.utf8Size

/-! ## §3 What the library promises -/

/-- No match starts from `start` up to `offset`: a search from `start` gives what a search
from `offset` gives, and an anchored one gives nothing. -/
def NoMatchBefore (text : Text) (start offset : Nat) (options : MatchOptions) : Prop :=
  offset = start ∨
    start ≤ offset ∧ isScalarBoundary text offset = true ∧
      if options.anchored then e.find text start options = none
      else e.find text start options = e.find text offset options

/-- The end of a temporary subject, or its last CR, which may begin a CRLF. -/
def edge (text : Text) (start : Nat) : Nat :=
  if start < utf8Len text ∧ text.getLast? = some '\r' then utf8Len text - 1 else utf8Len text

/-- The documented behaviour of match calls for a pattern that streams. -/
structure Streams : Prop where
  /-- The answer depends only on the text from the start offset on. -/
  suffix : ∀ (before rest : Text) (options : MatchOptions),
    e.find (before ++ rest) (utf8Len before) options =
      (e.find rest 0 options).map (Captures.shift (utf8Len before))
  /-- `PCRE2_NOTEMPTY_ATSTART` -/
  notEmpty : ∀ (text : Text) (start : Nat) (options : MatchOptions) (captures : Captures),
    options.notEmptyAtStart = true → e.find text start options = some captures →
      captures.range ≠ some ⟨start, start⟩
  /-- A hard-partial call returns a match only if it is the match of every extension. -/
  matched : ∀ (text more : Text) (start : Nat) (options : MatchOptions) (captures : Captures),
    isScalarBoundary text start = true →
      e.findPartial text start options = .matched captures →
        e.find (text ++ more) start options = some captures
  /-- It returns an offset only if no match of an extension starts earlier. -/
  partialAt : ∀ (text more : Text) (start offset : Nat) (options : MatchOptions),
    isScalarBoundary text start = true → isScalarBoundary text offset = true →
      e.findPartial text start options = .partialAt offset →
        start ≤ offset ∧ (options.anchored = true → offset = start) ∧
          e.NoMatchBefore (text ++ more) start offset options
  /-- It returns no match only if none of an extension starts inside the subject, except at
  a CR that ends it. -/
  noMatch : ∀ (text more : Text) (start : Nat) (options : MatchOptions),
    isScalarBoundary text start = true → e.findPartial text start options = .noMatch →
      e.NoMatchBefore (text ++ more) start (edge text start) options

/-- Each match starts where it was tried, as without `\K`: at the start offset of an anchored
call, and otherwise where a call from its own start finds it again. -/
def StartsWhereTried : Prop :=
  ∀ (text : Text) (start : Nat) (options : MatchOptions) (captures : Captures) (range : Range),
    e.find text start options = some captures → captures.range = some range →
      if options.anchored then range.start = start
      else e.find text range.start options = some captures

/-! ## §4 Answers inside a longer text -/

end Engine

@[simp] theorem Captures.shift_shift (a b : Nat) (captures : Captures) :
    (captures.shift a).shift b = captures.shift (b + a) := by
  rw [Captures.shift, Captures.shift, List.map_map]
  refine List.map_congr_left fun capture _ => ?_
  cases capture with
  | none => rfl
  | some range => simp only [Function.comp, Option.map_some, shiftRange, Nat.add_comm b a,
      Nat.add_assoc]

@[simp] theorem Captures.range_shift (a : Nat) (captures : Captures) :
    (captures.shift a).range = captures.range.map (shiftRange a) := by
  cases captures with
  | nil => rfl
  | cons capture captures => cases capture <;> rfl

@[simp] theorem isEmpty_shiftRange (a : Nat) (range : Range) :
    (shiftRange a range).isEmpty = range.isEmpty := by
  simp only [Range.isEmpty, shiftRange, Nat.add_le_add_iff_right]

/-- A boundary of a text's tail, seen from its start. -/
theorem isScalarBoundary_add {before text : Text} {n : Nat}
    (h : isScalarBoundary text n = true) :
    isScalarBoundary (before ++ text) (utf8Len before + n) = true := by
  have := isScalarBoundary_within before [] h
  rwa [List.append_nil] at this

theorem isScalarBoundary_append {text : Text} (after : Text) {n : Nat}
    (h : isScalarBoundary text n = true) : isScalarBoundary (text ++ after) n = true := by
  have := isScalarBoundary_within [] after h
  rwa [List.nil_append, String.utf8Len_nil, Nat.zero_add] at this

namespace Engine

/-- Accepted captures are accepted in a longer text. -/
theorem validCaptures_within {text : Text} {captures : Captures} (before after : Text)
    (h : validCaptures text captures = true) :
    validCaptures (before ++ (text ++ after)) (captures.shift (utf8Len before)) = true := by
  rw [validCaptures, List.all_eq_true] at h ⊢
  intro capture hmem
  obtain ⟨original, horiginal, rfl⟩ := List.mem_map.mp hmem
  have horiginal := h _ horiginal
  cases original with
  | none => rfl
  | some range =>
    simp only [Bool.and_eq_true, decide_eq_true_eq] at horiginal
    obtain ⟨⟨hle, hstart⟩, hstop⟩ := horiginal
    have hstart := isScalarBoundary_within before after hstart
    have hstop := isScalarBoundary_within before after hstop
    simp only [Option.map_some, shiftRange, Nat.add_comm _ (utf8Len before), hstart, hstop,
      Nat.add_le_add_left hle, decide_true, Bool.and_self]

/-- The match of accepted captures lies in the text, between boundaries. -/
theorem range_of_validCaptures {text : Text} {captures : Captures} {range : Range}
    (h : validCaptures text captures = true) (hrange : captures.range = some range) :
    range.start ≤ range.stop ∧ isScalarBoundary text range.start = true ∧
      isScalarBoundary text range.stop = true := by
  cases captures with
  | nil => exact nomatch hrange
  | cons capture captures =>
    obtain rfl : capture = some range := hrange
    rw [validCaptures, List.all_cons] at h
    simp only [Bool.and_eq_true, decide_eq_true_eq] at h
    exact ⟨h.1.1.1, h.1.1.2, h.1.2⟩

section Promises

variable {e : Engine} (hstreams : e.Streams)
include hstreams

/-- An answer inside a longer text is the answer on its tail, moved. -/
theorem find_tail (before : Text) {text : Text} {start : Nat} (options : MatchOptions)
    (h : isScalarBoundary text start = true) :
    e.find (before ++ text) (utf8Len before + start) options =
      (e.find text start options).map (Captures.shift (utf8Len before)) := by
  obtain ⟨a, b, rfl, rfl⟩ := isScalarBoundary_iff.mp h
  rw [hstreams.suffix a b options, Option.map_map, ← List.append_assoc,
    ← String.utf8Len_append, hstreams.suffix (before ++ a) b options]
  refine congrArg (Option.map · (e.find b 0 options)) (funext fun captures => ?_)
  rw [Function.comp, Captures.shift_shift, String.utf8Len_append]

/-- A match lies at or after the start offset. -/
theorem le_of_find {text : Text} {start : Nat} {options : MatchOptions} {captures : Captures}
    {range : Range} (h : isScalarBoundary text start = true)
    (hfind : e.find text start options = some captures) (hrange : captures.range = some range) :
    start ≤ range.start ∧ start ≤ range.stop := by
  obtain ⟨a, b, rfl, rfl⟩ := isScalarBoundary_iff.mp h
  rw [hstreams.suffix] at hfind
  obtain ⟨original, -, rfl⟩ := Option.map_eq_some_iff.mp hfind
  rw [Captures.range_shift] at hrange
  obtain ⟨r, -, rfl⟩ := Option.map_eq_some_iff.mp hrange
  exact ⟨Nat.le_add_left .., Nat.le_add_left ..⟩

/-- A stretch without a match inside a longer text. -/
theorem noMatchBefore_tail (before : Text) {text : Text} {start offset : Nat}
    {options : MatchOptions} (h : isScalarBoundary text start = true)
    (hno : e.NoMatchBefore text start offset options) :
    e.NoMatchBefore (before ++ text) (utf8Len before + start) (utf8Len before + offset)
      options := by
  refine hno.imp (fun heq => by rw [heq]) fun ⟨hle, hoffset, hfind⟩ =>
    ⟨Nat.add_le_add_left hle _, isScalarBoundary_add hoffset, ?_⟩
  rw [find_tail hstreams before options h, find_tail hstreams before options hoffset]
  split at hfind
  · rename_i hanchored
    rw [if_pos hanchored, hfind]
    rfl
  · rename_i hanchored
    rw [if_neg hanchored, hfind]

end Promises

/-! ## §5 Accepted calls -/

theorem edge_boundary (text : Text) (start : Nat) :
    isScalarBoundary text (edge text start) = true := by
  rw [edge]
  split
  · rename_i h
    obtain ⟨front, rfl⟩ := List.getLast?_eq_some_iff.mp h.2
    refine isScalarBoundary_iff.mpr ⟨front, ['\r'], rfl, ?_⟩
    rw [String.utf8Len_append]
    rfl
  · exact isScalarBoundary_length text

theorem le_edge {text : Text} {start : Nat} (h : isScalarBoundary text start = true) :
    start ≤ edge text start := by
  have := le_of_isScalarBoundary h
  rw [edge]
  split <;> omega

/-- An accepted call started at a boundary and was not interrupted. -/
theorem partialMatch_ok {e : Engine} {interrupt : Option Completeness} {text : Text}
    {start : Nat} {options : MatchOptions} {eof : Bool} {answer : PartialMatch}
    (h : e.partialMatch interrupt text start options eof = .ok answer) :
    isScalarBoundary text start = true ∧
      match answer with
      | .noMatch =>
        if eof then e.find text start options = none
        else e.findPartial text start options = .noMatch
      | .partialAt offset =>
        eof = false ∧ isScalarBoundary text offset = true ∧
          e.findPartial text start options = .partialAt offset
      | .matched captures =>
        validCaptures text captures = true ∧
          if eof then e.find text start options = some captures
          else e.findPartial text start options = .matched captures := by
  unfold partialMatch at h
  split at h
  · exact nomatch h
  · rename_i hstart
    refine ⟨by simpa using hstart, ?_⟩
    cases interrupt with
    | some limit => exact nomatch h
    | none =>
      dsimp only at h
      cases eof with
      | true =>
        simp only [if_true] at h ⊢
        cases hfind : e.find text start options with
        | none =>
          rw [hfind] at h
          cases h
          rfl
        | some captures =>
          rw [hfind] at h
          dsimp only at h
          split at h
          · rename_i hvalid
            cases h
            exact ⟨hvalid, rfl⟩
          · exact nomatch h
      | false =>
        simp only [Bool.false_eq_true, if_false] at h ⊢
        cases hfind : e.findPartial text start options with
        | noMatch =>
          rw [hfind] at h
          cases h
          rfl
        | partialAt offset =>
          rw [hfind] at h
          dsimp only at h
          split at h
          · exact nomatch h
          · rename_i hoffset
            cases h
            exact ⟨trivial, by simpa using hoffset, rfl⟩
        | matched captures =>
          rw [hfind] at h
          dsimp only at h
          split at h
          · rename_i hvalid
            cases h
            exact ⟨hvalid, rfl⟩
          · exact nomatch h

section Extensions

variable {e : Engine} (hstreams : e.Streams)
include hstreams

variable {interrupt : Option Completeness} {text : Text} {start : Nat} {options : MatchOptions}
  {eof : Bool} (more : Text)

/-- An accepted match is the match of the whole text. -/
theorem find_of_matched {captures : Captures} (hmore : eof = true → more = [])
    (h : e.partialMatch interrupt text start options eof = .ok (.matched captures)) :
    isScalarBoundary text start = true ∧ validCaptures text captures = true ∧
      e.find (text ++ more) start options = some captures := by
  obtain ⟨hstart, hvalid, hanswer⟩ := partialMatch_ok h
  refine ⟨hstart, hvalid, ?_⟩
  cases eof with
  | true => rwa [hmore rfl, List.append_nil]
  | false => exact hstreams.matched text more start options captures hstart hanswer

/-- After an accepted offset nothing was missed. -/
theorem noMatchBefore_of_partialAt {offset : Nat}
    (h : e.partialMatch interrupt text start options eof = .ok (.partialAt offset)) :
    isScalarBoundary text start = true ∧ isScalarBoundary text offset = true ∧
      start ≤ offset ∧ (options.anchored = true → offset = start) ∧ eof = false ∧
        e.NoMatchBefore (text ++ more) start offset options := by
  obtain ⟨hstart, heof, hoffset, hanswer⟩ := partialMatch_ok h
  obtain ⟨hle, hanchored, hno⟩ :=
    hstreams.partialAt text more start offset options hstart hoffset hanswer
  exact ⟨hstart, hoffset, hle, hanchored, heof, hno⟩

/-- After a call without a match nothing was missed before the subject's edge. -/
theorem noMatchBefore_of_noMatch (hmore : eof = true → more = [])
    (h : e.partialMatch interrupt text start options eof = .ok .noMatch) :
    isScalarBoundary text start = true ∧
      (eof = true → e.find (text ++ more) start options = none) ∧
        (eof = false → e.NoMatchBefore (text ++ more) start (edge text start) options) := by
  obtain ⟨hstart, hanswer⟩ := partialMatch_ok h
  refine ⟨hstart, fun heof => ?_, fun heof => ?_⟩
  · subst heof
    rwa [hmore rfl, List.append_nil]
  · subst heof
    exact hstreams.noMatch text more start options hstart hanswer

end Extensions

end Engine

end BareLine.Search
