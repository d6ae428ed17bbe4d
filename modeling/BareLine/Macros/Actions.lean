import BareLine.Macros.Playback

/-!
# The actions of a macro

What a macro stands for: one action for each command and for each scalar of a typed text, in
order.  A location of a playback names one of them.
-/

namespace BareLine.Macros

open Lib
open String (utf8Len)

/-! ## §1 Actions -/

/-- A command with its arguments. -/
structure Action where
  command : Text
  arguments : Arguments
  deriving DecidableEq, Repr

/-- An action, and the pause behind it before the next one is due. -/
structure Paced where
  action : Action
  pause : Option Nat
  deriving DecidableEq, Repr

/-- One scalar that is typed. -/
def typing (id : Text) (c : Char) : Action := ⟨id, .single ['t', 'e', 'x', 't'] [c]⟩

/-- The scalars of a text, with a pause between them. -/
def typed (id : Text) (intervalMs : Nat) : Text → List Paced
  | [] => []
  | c :: rest =>
    ⟨typing id c, if rest.isEmpty then none else some intervalMs⟩ :: typed id intervalMs rest

/-- The actions of an event. -/
def MacroEvent.actions : MacroEvent → List Paced
  | .command id arguments => [⟨⟨id, arguments⟩, none⟩]
  | .typeText id text intervalMs => typed id intervalMs text

/-- The actions of a macro, once. -/
def Macro.actions (m : Macro) : List Paced := m.events.flatMap MacroEvent.actions

/-! ## §2 What a location names -/

/-- The actions from a location on, in one iteration: those of the event it is in, from a place
between two scalars of its text on, and of the events behind that. -/
inductive Names (m : Macro) : Location → List Paced → Prop where
  | command {iteration : Nat} {before after : List MacroEvent} {id : Text} {arguments : Arguments}
      (events : m.events = before ++ .command id arguments :: after) :
      Names m ⟨iteration, before.length, 0⟩
        (⟨⟨id, arguments⟩, none⟩ :: after.flatMap MacroEvent.actions)
  | text {iteration : Nat} {before after : List MacroEvent} {id a rest : Text} {c : Char}
      {intervalMs : Nat}
      (events : m.events = before ++ .typeText id (a ++ c :: rest) intervalMs :: after) :
      Names m ⟨iteration, before.length, utf8Len a⟩
        (typed id intervalMs (c :: rest) ++ after.flatMap MacroEvent.actions)

namespace Names

variable {m : Macro} {location : Location} {rest : List Paced}

/-- The start of an event names its actions and those behind it. -/
theorem event (htyped : ∀ event ∈ m.events, event.checkTyping = .ok ()) {iteration : Nat}
    {before after : List MacroEvent} (events : m.events = before ++ after) (more : after ≠ []) :
    Names m ⟨iteration, before.length, 0⟩ (after.flatMap MacroEvent.actions) := by
  obtain ⟨event, after, rfl⟩ := List.exists_cons_of_ne_nil more
  cases event with
  | command id arguments => exact .command events
  | typeText id text intervalMs =>
    have hmem : .typeText id text intervalMs ∈ m.events := by
      rw [events]
      exact List.mem_append_right _ (List.mem_cons_self ..)
    obtain ⟨c, tail, rfl⟩ :=
      List.exists_cons_of_ne_nil (MacroEvent.checkTyping_iff.mp (htyped _ hmem)).1
    exact .text (a := []) events

/-- The first event names the actions of the macro. -/
theorem start (htyped : ∀ event ∈ m.events, event.checkTyping = .ok ()) (h : m.events ≠ [])
    (iteration : Nat) : Names m ⟨iteration, 0, 0⟩ m.actions :=
  @Names.event m htyped iteration [] m.events rfl h

/-- What is left of an iteration where an event ends. -/
theorem next (htyped : ∀ event ∈ m.events, event.checkTyping = .ok ()) {iteration : Nat}
    {before after : List MacroEvent} {event : MacroEvent}
    (events : m.events = before ++ event :: after) :
    before.length + 1 = m.events.length ∧ after.flatMap MacroEvent.actions = [] ∨
      before.length + 1 < m.events.length ∧
        Names m ⟨iteration, before.length + 1, 0⟩ (after.flatMap MacroEvent.actions) := by
  have hlength : m.events.length = before.length + 1 + after.length := by
    rw [events, List.length_append, List.length_cons]
    omega
  cases after with
  | nil => exact .inl ⟨hlength.symm, rfl⟩
  | cons event' after =>
    rw [List.append_cons] at events
    have hnext := @Names.event m htyped iteration _ _ events (List.cons_ne_nil _ _)
    rw [List.length_append, List.length_singleton] at hnext
    refine .inr ⟨?_, hnext⟩
    rw [hlength, List.length_cons]
    omega

end Names

/-! ## §3 The step from one action to the next -/

/-- Where a playback stands once an action is done, if `rest` is what is left of the iteration. -/
structure Behind (m : Macro) (location : Location) (paced : Paced) (nextText : Option NextText)
    (rest : List Paced) : Prop where
  /-- Behind a scalar that is not the last, the text goes on after the pause. -/
  inText : ∀ t, nextText = some t → t.next < t.length → paced.pause = some t.intervalMs ∧
    Names m { location with textByte := t.next } rest
  /-- Behind the last action of an event the next event follows, or none. -/
  atEnd : (∀ t, nextText = some t → t.length ≤ t.next) → paced.pause = none ∧
    (location.event + 1 = m.events.length ∧ rest = [] ∨ location.event + 1 < m.events.length ∧
      Names m { location with textByte := 0, event := location.event + 1 } rest)

/-- The event behind some others. -/
theorem getElem?_behind {m : Macro} {before after : List MacroEvent} {event : MacroEvent}
    (events : m.events = before ++ event :: after) : m.events[before.length]? = some event := by
  rw [events, List.getElem?_append_right (Nat.le_refl _), Nat.sub_self]
  rfl

/-- The step of the event at a location is the action that the location names. -/
theorem Names.step {m : Macro} {location : Location} {rest : List Paced}
    (h : Names m location rest) (htyped : ∀ event ∈ m.events, event.checkTyping = .ok ()) :
    ∃ event arguments nextText paced tail, m.events[location.event]? = some event ∧
      event.step location.textByte = some (arguments, nextText) ∧ rest = paced :: tail ∧
      paced.action = ⟨event.commandId, arguments⟩ ∧ Behind m location paced nextText tail := by
  cases h with
  | @command iteration before after id arguments events =>
    refine ⟨.command id arguments, arguments, none, _, _, ?_, rfl, rfl, rfl, nofun, fun _ => ?_⟩
    · exact getElem?_behind events
    · exact ⟨rfl, Names.next htyped events⟩
  | @text iteration before after id a rest c intervalMs events =>
    have hlength : utf8Len (a ++ c :: rest) = utf8Len a + c.utf8Size + utf8Len rest := by
      rw [String.utf8Len_append, String.utf8Len_cons]
      omega
    refine ⟨.typeText id (a ++ c :: rest) intervalMs, .single ['t', 'e', 'x', 't'] [c],
      some ⟨utf8Len a + c.utf8Size, utf8Len (a ++ c :: rest), intervalMs⟩, _, _,
      getElem?_behind events, ?_, rfl, rfl, ?_, fun hend => ?_⟩
    · rw [MacroEvent.step, getFrom_append]
      rfl
    · -- the text goes on just if a scalar is left
      rintro _ ⟨⟩ hlt
      cases rest with
      | nil => exact absurd hlt (by rw [hlength]; exact Nat.lt_irrefl _)
      | cons d rest =>
        rw [List.append_cons a] at events
        have hnext := @Names.text m iteration _ _ _ _ _ _ _ events
        rw [String.utf8Len_append, String.utf8Len_cons, String.utf8Len_nil, Nat.zero_add] at hnext
        exact ⟨rfl, hnext⟩
    · have hle := hend _ rfl
      dsimp only at hle
      rw [hlength] at hle
      obtain rfl : rest = [] := String.utf8Len_eq_zero.mp (by omega)
      exact ⟨rfl, Names.next htyped events⟩

end BareLine.Macros
