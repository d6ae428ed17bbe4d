import BareLine.Search.Engine

/-!
# Streaming a regex and scanning a whole subject

`scan_stream` reads a text in windows and keeps only what the next attempt needs; the loop
of `scan` runs the engine on the whole text.  The stream is a machine whose step is one
turn of the outer loop's head (`load`) or one turn of the inner loop (`attempt`); the reader,
the limits, the cancellation flag and the caller's sink are parameters of a run.
-/

namespace BareLine.Search

open Lib
open String (utf8Len)

/-- `STREAM_WINDOW` -/
def streamWindow : Nat := 256 * 1024

/-- `PARTIAL_CONTEXT` -/
def partialContext : Nat := 8 * 1024 * 1024

/-! ## §1 The stream -/

/-- The locals of `scan_stream`, what it emitted and how many turns it took. -/
structure Stream where
  text : Text
  base : Nat
  next : Nat
  start : Nat
  afterEmpty : Bool
  /-- At the head of the outer loop. -/
  loading : Bool
  emitted : List Captures
  turns : Nat

/-- What surrounds a run: the compiled pattern, the text's length, the selection, and the
answers of everything the loop calls. -/
structure StreamJob where
  engine : Engine
  length : Nat
  selection : Range
  read : Nat → Nat → Except Completeness Text
  /-- `job.is_cancelled()` at a turn of the outer loop. -/
  cancelled : Nat → Bool
  /-- A limit or a cancellation that fails the engine call of a turn. -/
  interrupt : Nat → Option Completeness
  /-- The sink's refusal of one more match after those it has. -/
  refuse : List Captures → Captures → Option Completeness

/-- What a turn leads to. -/
inductive Outcome where
  | next (s : Stream)
  | finished (status : Except Completeness Unit) (emitted : List Captures)

namespace Stream

variable (job : StreamJob)

/-- The position of the next attempt in the whole text. -/
def position (s : Stream) : Nat := s.base + s.start

/-- `next == length` -/
def eof (s : Stream) : Bool := s.next == job.length

/-- The head of the outer loop: one more window joins the retained text. -/
def load (s : Stream) : Outcome :=
  if job.cancelled s.turns then .finished (.error .cancelled) s.emitted
  else if s.next < job.length then
    match job.read s.next (min streamWindow (job.length - s.next)) with
    | .error limit => .finished (.error limit) s.emitted
    | .ok part =>
      if part = [] ∨ utf8Len part > job.length - s.next then
        .finished (.error .unsupported) s.emitted
      else if utf8Len s.text + utf8Len part > partialContext then
        .finished (.error .unsupportedStreaming) s.emitted
      else
        .next { s with
          text := s.text ++ part, next := s.next + utf8Len part, loading := false,
          turns := s.turns + 1 }
  else .next { s with loading := false, turns := s.turns + 1 }

/-- `break retain`: the end of the text finishes; else the text before it is dropped. -/
def retain (s : Stream) (offset : Nat) : Outcome :=
  if s.eof job then .finished (.ok ()) s.emitted
  else
    .next { s with
      text := dropBytes s.text offset, base := s.base + offset, start := 0, loading := true,
      turns := s.turns + 1 }

/-- A match that does not wait goes to the sink, and the iteration resumes at its end. -/
def emit (s : Stream) (captures : Captures) (range : Range) : Outcome :=
  let shifted := captures.shift s.base
  match job.refuse s.emitted shifted with
  | some limit => .finished (.error limit) s.emitted
  | none =>
    .next { s with
      emitted := s.emitted ++ [shifted], start := range.stop, afterEmpty := range.isEmpty,
      turns := s.turns + 1 }

/-- One turn of the inner loop. -/
def attempt (s : Stream) : Outcome :=
  if s.base + s.start > job.selection.stop then .finished (.ok ()) s.emitted
  else
    match job.engine.partialMatch (job.interrupt s.turns) s.text s.start
        (nextOptions s.afterEmpty) (s.eof job) with
    | .error limit => .finished (.error limit) s.emitted
    | .ok .noMatch =>
      if s.afterEmpty then
        -- A CR at a temporary edge may begin a CRLF.
        if s.eof job = false ∧ s.start + 1 = utf8Len s.text ∧ s.text.getLast? = some '\r' then
          s.retain job s.start
        else match job.engine.advance s.text s.start with
          | some advanced =>
            .next { s with afterEmpty := false, start := advanced, turns := s.turns + 1 }
          | none => { s with afterEmpty := false }.retain job (utf8Len s.text)
      else if s.eof job = false ∧ s.start < utf8Len s.text ∧ s.text.getLast? = some '\r' then
        s.retain job (utf8Len s.text - 1)
      else s.retain job (utf8Len s.text)
    | .ok (.partialAt offset) => s.retain job offset
    | .ok (.matched captures) =>
      match captures.range with
      | none => .finished (.error .unsupportedStreaming) s.emitted
      | some range =>
        -- An empty match at a temporary edge must wait for the next scalar.
        if range.isEmpty ∧ range.stop = utf8Len s.text ∧ s.eof job = false then
          s.retain job range.start
        else s.emit job captures range

def step (s : Stream) : Outcome := if s.loading then s.load job else s.attempt job

/-- The loop, for as many turns as the fuel allows. -/
def run : Nat → Stream → Option (Except Completeness Unit × List Captures)
  | 0, _ => none
  | fuel + 1, s =>
    match s.step job with
    | .finished status emitted => some (status, emitted)
    | .next s' => run fuel s'

/-- The loop's first state. -/
def initial (selection : Range) : Stream :=
  ⟨[], selection.start, selection.start, 0, false, true, [], 0⟩

end Stream

/-! ## §2 `scan_stream` -/

/-- `scan_stream`; `compiled` is the answer of `Engine::new`. -/
def scanStream (compiled : Except Completeness Engine) (length : Nat) (query : SearchQuery)
    (read : Nat → Nat → Except Completeness Text) (cancelled : Nat → Bool)
    (interrupt : Nat → Option Completeness)
    (refuse : List Captures → Captures → Option Completeness) (fuel : Nat) :
    Option (Except Completeness Unit × List Captures) :=
  if utf8Len query.pattern > MAX_PATTERN_BYTES then some (.error .invalidQuery, [])
  else match compiled with
    | .error limit => some (.error limit, [])
    | .ok engine =>
      if !engine.streamable then some (.error .unsupportedStreaming, [])
      else
        let selection := query.selection.getD ⟨0, length⟩
        if selection.start > selection.stop ∨ selection.stop > length then
          some (.error .invalidQuery, [])
        else
          Stream.run ⟨engine, length, selection, read, cancelled, interrupt, refuse⟩ fuel
            (Stream.initial selection)

/-! ## §3 The whole subject -/

section Whole

variable (engine : Engine) (isWord : Nat → Nat → Option Bool) (text : Text) (stop : Nat)

/-- The loop of `scan` from an offset: the matches it emits, and how it ends.  `isWord` is
`word::boundaries`, and no limit, cancellation or result budget stops it. -/
def scanWhole : Nat → Nat → Bool → Option (List Captures × Except Completeness Unit)
  | 0, _, _ => none
  | fuel + 1, start, afterEmpty =>
    if start > stop then some ([], .ok ())
    else match engine.run text start (nextOptions afterEmpty) with
      | .error limit => some ([], .error limit)
      | .ok none =>
        if !afterEmpty then some ([], .ok ())
        else match engine.advance text start with
          | none => some ([], .ok ())
          | some advanced => scanWhole fuel advanced false
      | .ok (some captures) =>
        match captures.range with
        | none => some ([], .error .unsupportedStreaming)
        | some range =>
          if range.stop > stop then some ([], .ok ())
          else
            let accepted := if engine.wholeWord then isWord range.start range.stop else some true
            match accepted with
            | none => some ([], .error .unsupported)
            | some false =>
              match (getFrom text range.start).bind List.head? with
              | none => some ([], .ok ())
              | some c => scanWhole fuel (range.start + c.utf8Size) false
            | some true =>
              (scanWhole fuel range.stop range.isEmpty).map fun rest =>
                (captures :: rest.1, rest.2)

end Whole

end BareLine.Search
