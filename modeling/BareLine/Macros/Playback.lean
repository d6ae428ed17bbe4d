import BareLine.Macros.Definition
import BareLine.Lib.Scalars

/-!
# Playing a macro

A playback starts one action at a time: a command, or one scalar of a typed text.  An executor
performs it, now or after some polls; where the executor fails, the playback stops at that action
and may be resumed there.
-/

namespace BareLine.Macros

open Lib
open String (utf8Len)

/-! ## §1 The executor -/

/-- `Progress` -/
structure Progress where
  document : Nat
  position : Nat
  revision : Nat
  eof : Bool
  deriving DecidableEq, Repr

/-- `MacroExecutor`, over a state of its own. -/
structure MacroExecutor (σ κ : Type) where
  context : σ → κ
  progress : σ → Progress
  pollExecution : σ → Except String Bool × σ
  execute : Text → Arguments → σ → Except String Unit × σ

/-! ## §2 The playback -/

/-- `Repeat` -/
inductive Repeat where
  | once
  | times (count : Nat)
  | untilEof
  deriving DecidableEq, Repr

/-- The playback is complete behind some iterations. -/
def Repeat.completes (mode : Repeat) (iteration : Nat) (progress : Progress) : Bool :=
  match mode with
  | .once => true
  | .times count => decide (count ≤ iteration)
  | .untilEof => progress.eof

/-- `Location` -/
structure Location where
  iteration : Nat
  event : Nat
  textByte : Nat
  deriving DecidableEq, Repr

/-- `PlaybackState`, with durations in milliseconds. -/
inductive PlaybackState where
  | running
  | waiting (ms : Nat)
  | complete
  | cancelled
  | failed (location : Location) (reason : String)
  deriving DecidableEq, Repr

/-- `Running` or `Waiting` -/
def PlaybackState.active : PlaybackState → Bool
  | .running | .waiting _ => true
  | _ => false

/-- The text byte behind the scalar that is typed, the length of its text and its interval. -/
structure NextText where
  next : Nat
  length : Nat
  intervalMs : Nat
  deriving DecidableEq, Repr

/-- `Playback`.  Instants are milliseconds; `iteration` stays at most `maxIterations`, so it needs
no more than the 32 bits it has. -/
structure Playback where
  definition : Macro
  mode : Repeat
  maxIterations : Nat
  location : Location
  state : PlaybackState
  iterationStart : Option Progress
  due : Option Nat
  pending : Option (Option NextText)
  deriving DecidableEq, Repr

namespace Playback

variable {σ κ : Type}

/-- `Playback::new` -/
def new (definition : Macro) (mode : Repeat) (maxIterations : Nat) (registry : CommandRegistry κ) :
    Except String Playback := do
  definition.validate registry
  if maxIterations = 0 ∨ mode = .times 0 then .error "Iteration limit must be positive"
  else
    match mode with
    | .times count =>
      if maxIterations < count then .error "Repeat count exceeds safeguard"
      else .ok ⟨definition, mode, maxIterations, ⟨0, 0, 0⟩, .running, none, none, none⟩
    | _ => .ok ⟨definition, mode, maxIterations, ⟨0, 0, 0⟩, .running, none, none, none⟩

/-- `Playback::cancel` -/
def cancel (p : Playback) : Playback :=
  if p.state.active then { p with state := .cancelled, due := none } else p

/-- The playback stopped at an action. -/
def isFailed (p : Playback) : Bool :=
  match p.state with
  | .failed .. => true
  | _ => false

/-- `Playback::resume` -/
def resume (p : Playback) : Bool × Playback :=
  if p.isFailed ∧ p.location.event < p.definition.events.length then
    (true, { p with state := .running, due := none })
  else (false, p)

/-- `Playback::fail` -/
def fail (p : Playback) (reason : String) : Playback :=
  { p with state := .failed p.location reason }

/-- The end of an iteration. -/
def finishIteration (p : Playback) (progress : Progress) : Playback :=
  let p := { p with location := { p.location with iteration := p.location.iteration + 1 } }
  if p.mode.completes p.location.iteration progress then { p with state := .complete }
  else if p.maxIterations ≤ p.location.iteration then
    p.fail "Maximum macro iteration safeguard reached"
  else if p.mode = .untilEof ∧ p.iterationStart = some progress then
    p.fail "Until-EOF macro made no progress"
  else
    { p with location := { p.location with event := 0 }, iterationStart := some progress }

/-- The end of an event. -/
def finishEvent (p : Playback) (progress : Progress) : Playback :=
  let p := { p with
    state := .running
    location := { p.location with textByte := 0, event := p.location.event + 1 } }
  if p.location.event = p.definition.events.length then p.finishIteration progress else p

/-- `Playback::finish_step` -/
def finishStep (p : Playback) (now : Nat) (nextText : Option NextText) (progress : Progress) :
    Playback :=
  match nextText with
  | none => p.finishEvent progress
  | some t =>
    if t.next < t.length then
      { p with
        location := { p.location with textByte := t.next }
        due := some (now + t.intervalMs)
        state := .waiting t.intervalMs }
    else p.finishEvent progress

/-! ## §3 A tick -/

end Playback

/-- What an event does at a byte of its text: the arguments of the command, and what is left of the
text.  A byte inside a scalar or behind the text is none. -/
def MacroEvent.step (event : MacroEvent) (textByte : Nat) :
    Option (Arguments × Option NextText) :=
  match event with
  | .command _ arguments => some (arguments, none)
  | .typeText _ text intervalMs =>
    (getFrom text textByte).map fun rest =>
      match rest with
      | c :: _ => (.single ['t', 'e', 'x', 't'] [c],
          some ⟨textByte + c.utf8Size, utf8Len text, intervalMs⟩)
      | [] => (.single ['t', 'e', 'x', 't'] [], none)

namespace Playback

variable {σ κ : Type}

/-- The executor's answer to a poll, for an action whose end is awaited: the playback is pending
until the answer comes. -/
def settle (p : Playback) (now : Nat) (executor : MacroExecutor σ κ) (nextText : Option NextText)
    (s : σ) : Playback × σ :=
  match executor.pollExecution s with
  | (.ok false, s) => ({ p with pending := some nextText, state := .waiting 1 }, s)
  | (.error reason, s) => ({ p with pending := none }.fail reason, s)
  | (.ok true, s) =>
    ({ p with pending := none }.finishStep now nextText (executor.progress s), s)

/-- The part of `tick` that starts an action; none where it would index out of bounds. -/
def start (p : Playback) (now : Nat) (registry : CommandRegistry κ) (executor : MacroExecutor σ κ)
    (s : σ) : Option (Playback × σ) :=
  match p.definition.events[p.location.event]? with
  | none => none
  | some event =>
    match registry.lookup event.commandId with
    | none => some (p.fail "Command no longer registered", s)
    | some command =>
      match registry.dispatchIn command (executor.context s) with
      | .error reason => some (p.fail ("Command unavailable: " ++ reason), s)
      | .ok () =>
        (event.step p.location.textByte).map fun (arguments, nextText) =>
          match executor.execute command arguments s with
          | (.error reason, s) => (p.fail reason, s)
          | (.ok (), s) => p.settle now executor nextText s

/-- `Playback::tick`; none where it would index out of bounds. -/
def tick (p : Playback) (now : Nat) (registry : CommandRegistry κ) (executor : MacroExecutor σ κ)
    (s : σ) : Option (Playback × σ) :=
  if !p.state.active then some (p, s)
  else
    match p.pending with
    | some nextText => some (p.settle now executor nextText s)
    | none =>
      match p.due.filter (now < ·) with
      | some due => some ({ p with state := .waiting (due - now) }, s)
      | none =>
        let p := { p with state := .running, due := none }
        match p.iterationStart with
        | some _ => p.start now registry executor s
        | none =>
          let progress := executor.progress s
          if p.mode = .untilEof ∧ progress.eof = true then some ({ p with state := .complete }, s)
          else { p with iterationStart := some progress }.start now registry executor s

end Playback

end BareLine.Macros
