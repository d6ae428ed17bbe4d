import BareLine.Macros.Definition

/-!
# Recording macros

The recorder keeps the events that were executed, within a budget that leaves room for a name and
for the file.
-/

namespace BareLine.Macros

open String (utf8Len)

/-! ## §1 The recorder -/

/-- `Recorder` -/
structure Recorder where
  recording : Bool
  events : List MacroEvent
  bytes : Nat
  deriving DecidableEq, Repr

/-- The bytes that `Recorder::push` counts for an event. -/
def MacroEvent.recordedBytes (event : MacroEvent) : Nat :=
  saturatingAdd (match event with
    | .command id arguments => saturatingMul (utf8Len id) 6 +
        (arguments.pairs.map fun pair =>
          saturatingAdd (saturatingMul (utf8Len pair.1 + utf8Len pair.2) 6) 16).sum
    | .typeText id text _ => saturatingMul (utf8Len id + utf8Len text) 6) 128

namespace Recorder

/-- `Recorder::default` -/
def default : Recorder := ⟨false, [], 0⟩

/-- `Recorder::start` -/
def start (_ : Recorder) : Recorder := ⟨true, [], 0⟩

/-- `Recorder::cancel` -/
def cancel (_ : Recorder) : Recorder := ⟨false, [], 0⟩

/-- `Recorder::abort` -/
def abort (s : Recorder) (reason : String) : String × Recorder :=
  ("Macro recording stopped and discarded: " ++ reason, s.cancel)

variable {κ : Type} (registry : CommandRegistry κ)

/-- `Recorder::push` -/
def push (s : Recorder) (event : MacroEvent) : Except String Recorder :=
  if (registry.lookup event.commandId).isNone then .error "Unknown recorded command"
  else if MAX_EVENTS ≤ s.events.length ∨ MAX_FILE_BYTES <
      saturatingAdd (saturatingAdd s.bytes event.recordedBytes) (128 + 4096 * 6) then
    .error "Macro recording limit reached"
  else .ok { s with bytes := s.bytes + event.recordedBytes, events := s.events ++ [event] }

/-- `Recorder::executed` -/
def executed (s : Recorder) (event : MacroEvent) (recordable : Bool) :
    Except String Bool × Recorder :=
  if !s.recording || !recordable then (.ok false, s)
  else
    match s.push registry event with
    | .ok s' => (.ok true, s')
    | .error reason => (.error (s.abort reason).1, (s.abort reason).2)

/-- `Recorder::stop` -/
def stop (s : Recorder) (name : Text) : Except String Macro × Recorder :=
  match (⟨name, s.events⟩ : Macro).validate registry with
  | .ok () => (.ok ⟨name, s.events⟩, ⟨false, [], 0⟩)
  | .error reason => (.error reason, s)

/-! ## §2 Runs -/

/-- What an owner of a recorder asks of it. -/
inductive Op where
  | start
  | cancel
  | abort (reason : String)
  | executed (event : MacroEvent) (recordable : Bool)
  | stop (name : Text)

/-- The recorder after an operation. -/
def step (s : Recorder) : Op → Recorder
  | .start => s.start
  | .cancel => s.cancel
  | .abort reason => (s.abort reason).2
  | .executed event recordable => (s.executed registry event recordable).2
  | .stop name => (s.stop registry name).2

/-- The events of this recording that the recorder has accepted, after an operation. -/
def acceptedBy (s : Recorder) (accepted : List MacroEvent) : Op → List MacroEvent
  | .start | .cancel | .abort _ => []
  | .executed event recordable =>
    match (s.executed registry event recordable).1 with
    | .ok true => accepted ++ [event]
    | .ok false => accepted
    | .error _ => []
  | .stop name =>
    match (s.stop registry name).1 with
    | .ok _ => []
    | .error _ => accepted

/-- The recorder and the accepted events after a run. -/
def run (ops : List Op) : Recorder × List MacroEvent :=
  ops.foldl (fun r op => (r.1.step registry op, r.1.acceptedBy registry r.2 op)) (default, [])

theorem run_append (ops : List Op) (op : Op) : run registry (ops ++ [op]) =
    ((run registry ops).1.step registry op,
      (run registry ops).1.acceptedBy registry (run registry ops).2 op) := by
  rw [run, List.foldl_append]
  rfl

/-! ## §3 Recordings -/

/-- The recorder holds the accepted events, which are known and leave room for a name. -/
structure Holds (s : Recorder) (accepted : List MacroEvent) : Prop where
  events : s.events = accepted
  bytes : s.bytes = (accepted.map MacroEvent.recordedBytes).sum
  known : ∀ event ∈ accepted, (registry.lookup event.commandId).isSome = true
  count : accepted.length ≤ MAX_EVENTS
  room : s.bytes + (128 + 4096 * 6) ≤ MAX_FILE_BYTES

theorem holds_nothing (recording : Bool) : Holds registry ⟨recording, [], 0⟩ [] :=
  ⟨rfl, rfl, nofun, Nat.zero_le _, by simp [MAX_FILE_BYTES]⟩

variable {registry}

theorem push_eq_ok {s s' : Recorder} {event : MacroEvent} (h : s.push registry event = .ok s') :
    (registry.lookup event.commandId).isSome = true ∧ s.events.length < MAX_EVENTS ∧
      s.bytes + event.recordedBytes + (128 + 4096 * 6) ≤ MAX_FILE_BYTES ∧
      s' = { s with bytes := s.bytes + event.recordedBytes, events := s.events ++ [event] } := by
  rw [push] at h
  split_ifs at h with hknown hfull
  obtain rfl := Except.ok.inj h
  rw [not_or, Nat.not_le, Nat.not_lt] at hfull
  refine ⟨by rwa [← Option.not_isSome, Bool.not_eq_true', Bool.not_eq_false] at hknown, hfull.1, ?_,
    rfl⟩
  have hroom := hfull.2
  simp only [saturatingAdd, usizeMax, MAX_FILE_BYTES] at hroom ⊢
  omega

theorem Holds.executed {s : Recorder} {accepted : List MacroEvent} (h : Holds registry s accepted)
    (event : MacroEvent) (recordable : Bool) :
    Holds registry (s.step registry (.executed event recordable))
      (s.acceptedBy registry accepted (.executed event recordable)) := by
  rw [step, acceptedBy, Recorder.executed]
  split_ifs
  · exact h
  · cases hpush : s.push registry event with
    | error reason => exact holds_nothing registry false
    | ok s' =>
      obtain ⟨hknown, hcount, hroom, rfl⟩ := push_eq_ok hpush
      have hevents := h.events
      refine ⟨by rw [hevents], ?_, ?_, ?_, hroom⟩
      · rw [List.map_append, List.sum_append, List.map_singleton, List.sum_singleton, ← h.bytes]
      · intro e he
        obtain he | he := List.mem_append.mp he
        · exact h.known e he
        · rwa [List.mem_singleton.mp he]
      · rw [← hevents, List.length_append]
        exact hcount

/-- An operation keeps what the recorder holds. -/
theorem Holds.step {s : Recorder} {accepted : List MacroEvent} (h : Holds registry s accepted)
    (op : Op) : Holds registry (s.step registry op) (s.acceptedBy registry accepted op) := by
  cases op with
  | start => exact holds_nothing registry true
  | cancel => exact holds_nothing registry false
  | abort reason => exact holds_nothing registry false
  | executed event recordable => exact h.executed event recordable
  | stop name =>
    rw [Recorder.step, acceptedBy, Recorder.stop]
    cases (⟨name, s.events⟩ : Macro).validate registry with
    | ok _ => exact holds_nothing registry false
    | error reason => exact h

theorem run_holds (ops : List Op) :
    Holds registry (run registry ops).1 (run registry ops).2 := by
  induction ops using List.reverseRecOn with
  | nil => exact holds_nothing registry false
  | append_singleton ops op ih =>
    rw [run_append]
    exact ih.step op

end Recorder

/-! ## §4 Stopping -/

/-- Typed text that can be played: it is not empty, and its interval is at most a minute. -/
def MacroEvent.Typable : MacroEvent → Prop
  | .command .. => True
  | .typeText _ text intervalMs => text ≠ [] ∧ intervalMs ≤ 60000

theorem MacroEvent.checkTyping_eq_ok {event : MacroEvent} :
    event.checkTyping = .ok () ↔ event.Typable := by
  cases event with
  | command id arguments => exact iff_of_true rfl trivial
  | typeText id text intervalMs => exact MacroEvent.checkTyping_iff

/-- Events that were recorded within the limit are counted no higher by the checks of a macro. -/
theorem MacroEvent.counted_le {event : MacroEvent} (h : event.recordedBytes ≤ MAX_FILE_BYTES) :
    event.bytes ≤ event.recordedBytes ∧
      event.serializedBound + 128 ≤ event.recordedBytes := by
  cases event with
  | command id arguments =>
    have hbytes : ∀ x : Nat, saturatingAdd (saturatingMul x 6) 16 ≤ MAX_FILE_BYTES →
        x ≤ saturatingAdd (saturatingMul x 6) 16 := by
      intro x hx
      simp only [saturatingAdd, saturatingMul, usizeMax, MAX_FILE_BYTES] at hx ⊢
      omega
    have hbound : ∀ x y : Nat, saturatingAdd (saturatingMul (saturatingAdd x y) 6) 16 ≤
        saturatingAdd (saturatingMul (x + y) 6) 16 := by
      intro x y
      simp only [saturatingAdd, saturatingMul, usizeMax]
      omega
    simp only [recordedBytes, MacroEvent.bytes, serializedBound] at h ⊢
    set recorded := (arguments.pairs.map fun pair =>
      saturatingAdd (saturatingMul (utf8Len pair.1 + utf8Len pair.2) 6) 16).sum with hrecorded
    have hle : recorded ≤ MAX_FILE_BYTES := by
      simp only [saturatingAdd, saturatingMul, usizeMax, MAX_FILE_BYTES] at h ⊢
      omega
    have hpairs : (arguments.pairs.map fun pair => utf8Len pair.1 + utf8Len pair.2).sum ≤
        recorded := by
      refine List.sum_le_sum fun pair hpair => hbytes _ (Nat.le_trans ?_ hle)
      exact List.single_le_sum (fun _ _ => Nat.zero_le _) _ (List.mem_map_of_mem hpair)
    have hserialized : (arguments.pairs.map fun pair =>
        saturatingAdd (saturatingMul (saturatingAdd (utf8Len pair.1) (utf8Len pair.2)) 6) 16).sum ≤
        recorded := List.sum_le_sum fun pair _ => hbound _ _
    simp only [saturatingAdd, saturatingMul, usizeMax, MAX_FILE_BYTES] at h hserialized ⊢
    omega
  | typeText id text intervalMs =>
    simp only [recordedBytes, MacroEvent.bytes, serializedBound, saturatingAdd, saturatingMul,
      usizeMax, MAX_FILE_BYTES] at h ⊢
    omega

/-- The loop over the events accepts those that can be played and fit. -/
theorem checkEvents_ok {κ : Type} {registry : CommandRegistry κ} {events : List MacroEvent}
    {bytes : Nat} (h : ∀ event ∈ events, event.Playable registry)
    (hfits : bytes + (events.map MacroEvent.bytes).sum ≤ MAX_FILE_BYTES) :
    events.foldlM (checkEvent registry) bytes =
      .ok (bytes + (events.map MacroEvent.bytes).sum) := by
  induction events generalizing bytes with
  | nil => rfl
  | cons event events ih =>
    obtain ⟨hevent, hevents⟩ := List.forall_mem_cons.mp h
    rw [List.map_cons, List.sum_cons, ← Nat.add_assoc] at hfits ⊢
    rw [List.foldlM_cons, checkEvent_eq_ok.mpr ⟨hevent, rfl, Nat.le_of_add_right_le hfits⟩]
    exact ih hevents hfits

theorem serializedBound_le (events : List MacroEvent) (total : Nat) :
    events.foldl (fun total event =>
      saturatingAdd (saturatingAdd total 128) event.serializedBound) total ≤
      total + (events.map fun event => event.serializedBound + 128).sum := by
  induction events generalizing total with
  | nil => exact Nat.le_refl _
  | cons event events ih =>
    refine Nat.le_trans (ih _) ?_
    rw [List.map_cons, List.sum_cons]
    simp only [saturatingAdd]
    omega

namespace Recorder

variable {κ : Type} {registry : CommandRegistry κ}

theorem Holds.sums_le {s : Recorder} {accepted : List MacroEvent} (h : Holds registry s accepted) :
    (accepted.map MacroEvent.bytes).sum ≤ s.bytes ∧
      (accepted.map fun event => event.serializedBound + 128).sum ≤ s.bytes := by
  have hevent : ∀ event ∈ accepted, event.recordedBytes ≤ MAX_FILE_BYTES := by
    intro event hmem
    refine Nat.le_trans ?_ (Nat.le_of_add_right_le h.room)
    rw [h.bytes]
    exact List.single_le_sum (fun _ _ => Nat.zero_le _) _ (List.mem_map_of_mem hmem)
  rw [h.bytes]
  exact ⟨List.sum_le_sum fun event hmem => (MacroEvent.counted_le (hevent event hmem)).1,
    List.sum_le_sum fun event hmem => (MacroEvent.counted_le (hevent event hmem)).2⟩

/-- A recording validates if and only if what was typed can be played. -/
theorem Holds.validate_iff {s : Recorder} {accepted : List MacroEvent}
    (h : Holds registry s accepted) (hne : accepted ≠ []) {name : Text}
    (hname : badName name = false) :
    (⟨name, accepted⟩ : Macro).validate registry = .ok () ↔
      ∀ event ∈ accepted, event.Typable := by
  constructor
  · intro hvalid event hevent
    obtain ⟨-, -, -, hplayable, -⟩ := Macro.validate_spec hvalid
    exact MacroEvent.checkTyping_eq_ok.mp (hplayable event hevent).typed
  · intro htypable
    have hshort : utf8Len name ≤ 4096 := by
      rw [badName, Bool.or_eq_false_iff, Bool.or_eq_false_iff, decide_eq_false_iff_not] at hname
      exact Nat.le_of_not_lt hname.1.2
    obtain ⟨hbytes, hbound⟩ := h.sums_le
    have hroom := h.room
    have hplayable : ∀ event ∈ accepted, event.Playable registry := fun event hevent =>
      ⟨h.known event hevent, MacroEvent.checkTyping_eq_ok.mpr (htypable event hevent)⟩
    have hserialized : (⟨name, accepted⟩ : Macro).serializedBound name ≤ MAX_FILE_BYTES := by
      refine Nat.le_trans (serializedBound_le _ _) ?_
      simp only [saturatingAdd, saturatingMul]
      omega
    have hfits : utf8Len name + (accepted.map MacroEvent.bytes).sum ≤ MAX_FILE_BYTES := by omega
    have hcount : ¬(accepted.isEmpty || decide (MAX_EVENTS < accepted.length)) = true := by
      rw [Bool.or_eq_true, not_or, List.isEmpty_iff, decide_eq_true_iff, Nat.not_lt]
      exact ⟨hne, h.count⟩
    rw [Macro.validate, if_neg (by rw [hname]; decide), if_neg hcount,
      checkEvents_ok hplayable hfits]
    exact if_neg (Nat.not_lt_of_le hserialized)

/-- A recording stops with its events if and only if what was typed can be played. -/
theorem stop_iff (ops : List Op) {name : Text} (hname : badName name = false)
    (hne : (run registry ops).2 ≠ []) :
    ((run registry ops).1.stop registry name).1 = .ok ⟨name, (run registry ops).2⟩ ↔
      ∀ event ∈ (run registry ops).2, event.Typable := by
  have hholds := @run_holds _ registry ops
  rw [← hholds.validate_iff hne hname, stop, hholds.events]
  cases (⟨name, (run registry ops).2⟩ : Macro).validate registry with
  | ok _ => exact iff_of_true rfl rfl
  | error reason => exact iff_of_false nofun nofun

end Recorder

end BareLine.Macros
