import BareLine.Macros.Shell

/-!
# Macros

A macro is a list of commands and of typed texts.  Its limits are checked against a registry of
commands before it is played or written.
-/

namespace BareLine.Macros

open Power (isWhitespace)
open String (utf8Len)

/-! ## §1 Arguments -/

/-- `BTreeMap<String, String>`: keys in order. -/
structure Arguments where
  pairs : List (Text × Text)
  sorted : pairs.Pairwise fun a b => a.1 < b.1
  deriving DecidableEq, Repr

namespace Arguments

/-- `BTreeMap::new` -/
def empty : Arguments := ⟨[], .nil⟩

/-- `BTreeMap::from` of one pair. -/
def single (key value : Text) : Arguments := ⟨[(key, value)], List.pairwise_singleton _ _⟩

end Arguments

/-! ## §2 Macros -/

/-- `MacroEvent` -/
inductive MacroEvent where
  | command (id : Text) (arguments : Arguments)
  | typeText (id text : Text) (intervalMs : Nat)
  deriving DecidableEq, Repr

/-- `MacroEvent::command_id` -/
def MacroEvent.commandId : MacroEvent → Text
  | .command id _ | .typeText id _ _ => id

/-- `Macro` -/
structure Macro where
  name : Text
  events : List MacroEvent
  deriving DecidableEq, Repr

/-- `CommandRegistry`, as far as macros use it: the ids that are registered, and what `dispatch_in`
says of a command in a context. -/
structure CommandRegistry (κ : Type) where
  entries : List Text
  dispatchIn : Text → κ → Except String Unit

/-- `CommandRegistry::lookup` -/
def CommandRegistry.lookup {κ : Type} (registry : CommandRegistry κ) (id : Text) : Option Text :=
  registry.entries.find? (· == id)

theorem CommandRegistry.eq_of_lookup {κ : Type} {registry : CommandRegistry κ} {id command : Text}
    (h : registry.lookup id = some command) : command = id := by
  have hfound := List.find?_some h
  rwa [beq_iff_eq] at hfound

/-! ## §3 Validation -/

/-- `MAX_EVENTS` -/
def MAX_EVENTS : Nat := 10000

/-- `MAX_FILE_BYTES` -/
def MAX_FILE_BYTES : Nat := 4 * 1024 * 1024

/-- A name that `validate` and `rename` refuse. -/
def badName (name : Text) : Bool :=
  name.all isWhitespace || decide (4096 < utf8Len name) || name.any isControl

/-- The bytes of an event that `validate` counts. -/
def MacroEvent.bytes : MacroEvent → Nat
  | .command id arguments =>
    utf8Len id + (arguments.pairs.map fun pair => utf8Len pair.1 + utf8Len pair.2).sum
  | .typeText id text _ => utf8Len id + utf8Len text

/-- What `serialized_bound` allows for an event. -/
def MacroEvent.serializedBound : MacroEvent → Nat
  | .command id arguments => saturatingAdd (saturatingMul (utf8Len id) 6)
      (arguments.pairs.map fun pair =>
        saturatingAdd (saturatingMul (saturatingAdd (utf8Len pair.1) (utf8Len pair.2)) 6) 16).sum
  | .typeText id text _ => saturatingMul (saturatingAdd (utf8Len id) (utf8Len text)) 6

/-- `Macro::serialized_bound` -/
def Macro.serializedBound (m : Macro) (name : Text) : Nat :=
  m.events.foldl (fun total event => saturatingAdd (saturatingAdd total 128) event.serializedBound)
    (saturatingAdd 128 (saturatingMul (utf8Len name) 6))

/-- The checks of typed text. -/
def MacroEvent.checkTyping : MacroEvent → Except String Unit
  | .command .. => .ok ()
  | .typeText _ text intervalMs =>
    if text.isEmpty then .error "Typing action requires nonempty text"
    else if 60000 < intervalMs then .error "Typing interval exceeds 60 seconds"
    else .ok ()

/-- The checks of one event, with the bytes counted so far. -/
def checkEvent {κ : Type} (registry : CommandRegistry κ) (bytes : Nat) (event : MacroEvent) :
    Except String Nat :=
  if (registry.lookup event.commandId).isNone then
    .error ("Unknown command: " ++ String.ofList event.commandId)
  else do
    event.checkTyping
    if MAX_FILE_BYTES < bytes + event.bytes then .error "Macro exceeds 4 MiB"
    else .ok (bytes + event.bytes)

/-- `Macro::validate` -/
def Macro.validate {κ : Type} (m : Macro) (registry : CommandRegistry κ) : Except String Unit :=
  if badName m.name then .error "Macro name is empty"
  else if m.events.isEmpty || decide (MAX_EVENTS < m.events.length) then
    .error "Macro requires 1–10000 events"
  else do
    let _ ← m.events.foldlM (checkEvent registry) (utf8Len m.name)
    if MAX_FILE_BYTES < m.serializedBound m.name then
      .error "Macro exceeds the serialized TOML size limit"
    else .ok ()

/-- An event that is played: its command is known, and typed text is neither empty nor slow. -/
structure MacroEvent.Playable {κ : Type} (registry : CommandRegistry κ) (event : MacroEvent) :
    Prop where
  known : (registry.lookup event.commandId).isSome = true
  typed : event.checkTyping = .ok ()

theorem MacroEvent.checkTyping_iff {id text : Text} {intervalMs : Nat} :
    (MacroEvent.typeText id text intervalMs).checkTyping = .ok () ↔
      text ≠ [] ∧ intervalMs ≤ 60000 := by
  rw [checkTyping]
  split_ifs with hempty hslow
  · simp [List.isEmpty_iff.mp hempty]
  · simp [Nat.not_le_of_lt hslow]
  · simp only [true_iff]
    exact ⟨fun hnil => hempty (List.isEmpty_iff.mpr hnil), Nat.le_of_not_lt hslow⟩

theorem checkEvent_eq_ok {κ : Type} {registry : CommandRegistry κ} {bytes after : Nat}
    {event : MacroEvent} : checkEvent registry bytes event = .ok after ↔
      event.Playable registry ∧ after = bytes + event.bytes ∧ after ≤ MAX_FILE_BYTES := by
  rw [checkEvent, ← Option.not_isSome]
  constructor
  · intro h
    by_cases hknown : (!(registry.lookup event.commandId).isSome) = true
    · rw [if_pos hknown] at h
      exact nomatch h
    rw [if_neg hknown] at h
    obtain ⟨_, htyped, h⟩ := bind_ok.mp h
    split_ifs at h with hlarge
    obtain rfl := Except.ok.inj h
    have hsome : (registry.lookup event.commandId).isSome = true :=
      Bool.eq_true_of_not_eq_false fun hnone => hknown (by rw [hnone]; rfl)
    exact ⟨⟨hsome, htyped⟩, rfl, Nat.le_of_not_lt hlarge⟩
  · rintro ⟨⟨hknown, htyped⟩, rfl, hfits⟩
    rw [hknown, htyped, if_neg (by decide)]
    exact if_neg (Nat.not_lt_of_le hfits)

/-- What the loop over the events accepts. -/
theorem checkEvents_eq_ok {κ : Type} {registry : CommandRegistry κ} {events : List MacroEvent}
    {bytes after : Nat} : events.foldlM (checkEvent registry) bytes = .ok after →
      (∀ event ∈ events, event.Playable registry) := by
  induction events generalizing bytes with
  | nil => exact fun _ => nofun
  | cons event events ih =>
    intro h
    rw [List.foldlM_cons] at h
    obtain ⟨next, hevent, hrest⟩ := bind_ok.mp h
    exact List.forall_mem_cons.mpr ⟨(checkEvent_eq_ok.mp hevent).1, ih hrest⟩

/-- What a macro that validates is made of. -/
theorem Macro.validate_spec {κ : Type} {registry : CommandRegistry κ} {m : Macro}
    (h : m.validate registry = .ok ()) : m.events ≠ [] ∧ m.events.length ≤ MAX_EVENTS ∧
      badName m.name = false ∧ (∀ event ∈ m.events, event.Playable registry) ∧
      m.serializedBound m.name ≤ MAX_FILE_BYTES := by
  rw [validate] at h
  by_cases hname : badName m.name = true
  · rw [if_pos hname] at h
    exact nomatch h
  rw [if_neg hname] at h
  by_cases hevents : (m.events.isEmpty || decide (MAX_EVENTS < m.events.length)) = true
  · rw [if_pos hevents] at h
    exact nomatch h
  rw [if_neg hevents] at h
  obtain ⟨_, hchecked, h⟩ := bind_ok.mp h
  split_ifs at h with hlarge
  rw [Bool.or_eq_true, not_or, List.isEmpty_iff, decide_eq_true_iff, Nat.not_lt] at hevents
  exact ⟨hevents.1, hevents.2, by simpa using hname, checkEvents_eq_ok hchecked,
    Nat.le_of_not_lt hlarge⟩

end BareLine.Macros
