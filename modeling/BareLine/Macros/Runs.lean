import BareLine.Macros.Actions

/-!
# Runs of a playback

A run is any sequence of calls of a playback, each tick with an executor in any state.  Its log
says when a tick came, which actions were started and what the executor answered; from the log it
is read off which actions are done.
-/

namespace BareLine.Macros

open String (utf8Len)

variable {σ κ : Type}

/-! ## §1 The log -/

/-- What happens in a run: a tick, with the progress the executor shows; the start of an action,
and whether the executor took it; and the answer to a poll, with the progress behind it. -/
inductive Entry where
  | ticked (now : Nat) (progress : Progress)
  | started (action : Action) (taken : Bool)
  | polled (answer : Option Bool) (progress : Progress)
  deriving DecidableEq, Repr

/-- The entry starts an action. -/
def Entry.starts : Entry → Bool
  | .started .. => true
  | _ => false

/-- An executor that writes down what it is asked and what it answers. -/
def MacroExecutor.logged (executor : MacroExecutor σ κ) : MacroExecutor (σ × List Entry) κ where
  context s := executor.context s.1
  progress s := executor.progress s.1
  pollExecution s :=
    let (answer, s') := executor.pollExecution s.1
    (answer, s', s.2 ++ [.polled answer.toOption (executor.progress s')])
  execute command arguments s :=
    let (result, s') := executor.execute command arguments s.1
    (result, s', s.2 ++ [.started ⟨command, arguments⟩ result.isOk])

/-! ## §2 Runs -/

/-- A call of a playback. -/
inductive Call (σ κ : Type) where
  | tick (now : Nat) (registry : CommandRegistry κ) (executor : MacroExecutor σ κ) (s : σ)
  | resume
  | cancel

namespace Playback

/-- What a call makes of the playback, and what happens in it. -/
def call (p : Playback) : Call σ κ → Option (Playback × List Entry)
  | .tick now registry executor s =>
    (p.tick now registry executor.logged (s, [.ticked now (executor.progress s)])).map
      fun (p, _, log) => (p, log)
  | .resume => some (p.resume.2, [])
  | .cancel => some (p.cancel, [])

/-- What a sequence of calls makes of it. -/
def run (p : Playback) : List (Call σ κ) → Option (Playback × List Entry)
  | [] => some (p, [])
  | call :: calls => do
    let (p, log) ← p.call call
    let (p, rest) ← p.run calls
    pure (p, log ++ rest)

end Playback

/-! ## §3 What the log says -/

/-- The ticks so far, the actions that are done, each with the time and the progress, and the
action whose end is awaited. -/
structure Account where
  ticks : List (Nat × Progress)
  done : List (Action × Nat × Progress)
  inflight : Option Action
  deriving DecidableEq, Repr

namespace Account

/-- Before anything happened. -/
def fresh : Account := ⟨[], [], none⟩

/-- The time of the last tick. -/
def clock (a : Account) : Nat := (a.ticks.getLast?.map Prod.fst).getD 0

/-- An entry of the log.  An action is done once a poll after its start says so; an error means
that it was not performed. -/
def enter (a : Account) : Entry → Account
  | .ticked now progress => { a with ticks := a.ticks ++ [(now, progress)] }
  | .started action taken => { a with inflight := if taken then some action else none }
  | .polled (some true) progress =>
    { a with
      done := a.done ++ a.inflight.toList.map fun action => (action, a.clock, progress)
      inflight := none }
  | .polled (some false) _ => a
  | .polled none _ => { a with inflight := none }

/-- The entries of a log. -/
def enterAll (a : Account) (log : List Entry) : Account := log.foldl enter a

theorem enterAll_append (a : Account) (log rest : List Entry) :
    a.enterAll (log ++ rest) = (a.enterAll log).enterAll rest := List.foldl_append ..

/-- The actions that are done, in order. -/
def actions (a : Account) : List Action := a.done.map Prod.fst

/-- When the next action is due: behind the last one that is done, and its pause. -/
def due (m : Macro) (a : Account) : Option Nat :=
  a.done.getLast?.bind fun last =>
    (m.actions[(a.done.length - 1) % m.actions.length]?).bind fun paced =>
      paced.pause.map (last.2.1 + ·)

/-- The progress at the end of an iteration, counted from one; at the first tick for none. -/
def boundary (m : Macro) (a : Account) (iteration : Nat) : Option Progress :=
  if iteration = 0 then a.ticks.head?.map Prod.snd
  else (a.done[iteration * m.actions.length - 1]?).map fun last => last.2.2

end Account

/-! ## §4 What a tick does -/

/-- What comes of the answer to a poll. -/
inductive Settles (p : Playback) (now : Nat) (nextText : Option NextText) :
    Playback → Entry → Prop where
  | waits (progress : Progress) :
      Settles p now nextText { p with pending := some nextText, state := .waiting 1 }
        (.polled (some false) progress)
  | fails (reason : String) (progress : Progress) :
      Settles p now nextText ({ p with pending := none }.fail reason) (.polled none progress)
  | finishes (progress : Progress) :
      Settles p now nextText ({ p with pending := none }.finishStep now nextText progress)
        (.polled (some true) progress)

theorem Playback.settle_spec (p : Playback) (now : Nat) (executor : MacroExecutor σ κ)
    (nextText : Option NextText) (s : σ) (log : List Entry) :
    ∃ p' s' entry, p.settle now executor.logged nextText (s, log) = (p', s', log ++ [entry]) ∧
      Settles p now nextText p' entry := by
  cases hpoll : executor.pollExecution s with
  | mk answer s' =>
    have hlogged : executor.logged.pollExecution (s, log) =
        (answer, s', log ++ [.polled answer.toOption (executor.progress s')]) := by
      simp only [MacroExecutor.logged, hpoll]
    rw [settle, hlogged]
    match answer with
    | .ok false => exact ⟨_, _, _, rfl, .waits _⟩
    | .ok true => exact ⟨_, _, _, rfl, .finishes _⟩
    | .error reason => exact ⟨_, _, _, rfl, .fails reason _⟩

/-- What comes of an action that is due: it cannot be started, the executor does not take it, or it
does. -/
inductive Starts (p : Playback) (now : Nat) (action : Action) (nextText : Option NextText) :
    Playback → List Entry → Prop where
  | refused (reason : String) : Starts p now action nextText (p.fail reason) []
  | rejected (reason : String) :
      Starts p now action nextText (p.fail reason) [.started action false]
  | taken {p' : Playback} {entry : Entry} (settles : Settles p now nextText p' entry) :
      Starts p now action nextText p' [.started action true, entry]

theorem Playback.start_spec {p : Playback} {event : MacroEvent} {arguments : Arguments}
    {nextText : Option NextText} (now : Nat) (registry : CommandRegistry κ)
    (executor : MacroExecutor σ κ) (s : σ) (log : List Entry)
    (hevent : p.definition.events[p.location.event]? = some event)
    (hstep : event.step p.location.textByte = some (arguments, nextText)) :
    ∃ p' s' entries, p.start now registry executor.logged (s, log) = some (p', s', log ++ entries) ∧
      Starts p now ⟨event.commandId, arguments⟩ nextText p' entries := by
  rw [start, hevent]
  dsimp only
  cases hlookup : registry.lookup event.commandId with
  | none => exact ⟨_, _, [], by rw [List.append_nil], .refused _⟩
  | some command =>
    obtain rfl := CommandRegistry.eq_of_lookup hlookup
    dsimp only
    cases hdispatch : registry.dispatchIn event.commandId (executor.logged.context (s, log)) with
    | error reason => exact ⟨_, _, [], by rw [List.append_nil], .refused _⟩
    | ok _ =>
      rw [hstep]
      cases hexecute : executor.execute event.commandId arguments s with
      | mk result s' =>
        have hlogged : executor.logged.execute event.commandId arguments (s, log) =
            (result, s', log ++ [.started ⟨event.commandId, arguments⟩ result.isOk]) := by
          simp only [MacroExecutor.logged, hexecute]
        dsimp only [Option.map_some]
        rw [hlogged]
        cases result with
        | error reason => exact ⟨_, _, _, rfl, .rejected reason⟩
        | ok _ =>
          obtain ⟨p', s'', entry, hsettle, hsettles⟩ := p.settle_spec now executor nextText s'
            (log ++ [.started ⟨event.commandId, arguments⟩ true])
          refine ⟨p', s'', _, congrArg some (hsettle.trans ?_), .taken hsettles⟩
          rw [List.append_assoc]
          rfl

section Tick

variable {p : Playback} {now : Nat} {registry : CommandRegistry κ} {executor : MacroExecutor σ κ}
  {s : σ}

theorem Playback.tick_inactive (h : p.state.active = false) :
    p.tick now registry executor s = some (p, s) := by
  rw [tick, h]
  rfl

theorem Playback.tick_pending (h : p.state.active = true) {nextText : Option NextText}
    (hpending : p.pending = some nextText) :
    p.tick now registry executor s = some (p.settle now executor nextText s) := by
  rw [tick, h, hpending]
  rfl

theorem Playback.tick_early (h : p.state.active = true) (hpending : p.pending = none) {t : Nat}
    (hdue : p.due = some t) (hlt : now < t) :
    p.tick now registry executor s = some ({ p with state := .waiting (t - now) }, s) := by
  have hfilter : p.due.filter (now < ·) = some t := by
    rw [hdue, Option.filter_some, if_pos (decide_eq_true hlt)]
  rw [tick, h, hpending, hfilter]
  rfl

/-- The playback of an action that may start, with the start of its iteration noted. -/
def Playback.noted (p : Playback) (progress : Progress) : Playback :=
  { p with
    state := .running
    due := none
    iterationStart := some (p.iterationStart.getD progress) }

theorem Playback.tick_due (h : p.state.active = true) (hpending : p.pending = none)
    (hdue : ∀ t, p.due = some t → t ≤ now) : p.tick now registry executor s =
      if p.iterationStart = none ∧ p.mode = .untilEof ∧ (executor.progress s).eof = true then
        some ({ p with state := .complete, due := none }, s)
      else (p.noted (executor.progress s)).start now registry executor s := by
  have hfilter : p.due.filter (now < ·) = none := by
    rw [Option.filter_eq_none_iff]
    exact fun t ht => by simpa using hdue t ht
  obtain ⟨m, mode, max, location, state, start, due, pending⟩ := p
  dsimp only at h hpending hfilter
  subst hpending
  rw [tick]
  dsimp only
  rw [h, hfilter]
  cases start with
  | none =>
    simp only [true_and]
    rfl
  | some start =>
    rw [if_neg fun hand : some start = none ∧ _ => nomatch hand.1]
    rfl

end Tick

end BareLine.Macros
