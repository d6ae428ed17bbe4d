import BareLine.Macros.Runs

/-!
# Where a playback stands

Between two calls a playback is going on, in front of some actions of its iteration and behind
those that are done, or it is over.  The end of an action leads from one such place to the next.
-/

namespace BareLine.Macros

variable {σ κ : Type} {p : Playback} {a : Account}

/-! ## §1 Where a playback stands -/

/-- What one iteration performs. -/
def Macro.performed (m : Macro) : List Action := m.actions.map Paced.action

/-- What some iterations perform. -/
def Macro.iterations (m : Macro) (count : Nat) : List Action :=
  (List.replicate count m.performed).flatten

/-- The mode lets an iteration start, counted from zero. -/
def Repeat.allows (mode : Repeat) (maxIterations iteration : Nat) : Prop :=
  iteration < maxIterations ∧
    match mode with
    | .once => iteration = 0
    | .times count => iteration < count ∧ count ≤ maxIterations
    | .untilEof => True

/-- The mode is done with after some iterations. -/
def Repeat.isDone (mode : Repeat) (progress : Option Progress) (iteration : Nat) : Prop :=
  match mode with
  | .once => iteration = 1
  | .times count => iteration = count
  | .untilEof => progress.map Progress.eof = some true

/-- The playback stands in front of some actions of its iteration, behind others that are done. -/
structure Position (p : Playback) (a : Account) (before rest : List Paced) : Prop where
  named : Names p.definition p.location rest
  split : p.definition.actions = before ++ rest
  done : a.actions =
    p.definition.iterations p.location.iteration ++ before.map Paced.action
  allowed : p.mode.allows p.maxIterations p.location.iteration
  /-- Each iteration so far changed something. -/
  moved : p.mode = .untilEof → ∀ i < p.location.iteration,
    a.boundary p.definition i ≠ a.boundary p.definition (i + 1)

/-- The action whose end is awaited is the next one. -/
def Awaits (p : Playback) (a : Account) (rest : List Paced) : Prop :=
  match p.pending with
  | none => a.inflight = none
  | some nextText => ∃ paced tail, rest = paced :: tail ∧ a.inflight = some paced.action ∧
      Behind p.definition p.location paced nextText tail ∧ p.due = none

/-- The playback may go on. -/
structure Going (p : Playback) (a : Account) (before rest : List Paced) : Prop
    extends Position p a before rest where
  awaits : Awaits p a rest
  began : p.state.active = true ∨ p.isFailed = true →
    p.iterationStart = a.boundary p.definition p.location.iteration
  due : p.state ≠ .cancelled → ∀ t, a.due p.definition = some t →
    p.due = some t ∨ ∃ tick ∈ a.ticks, t ≤ tick.1
  failed : p.isFailed = true → p.pending = none ∧ p.due = none
  complete : p.state = .complete → p.mode = .untilEof ∧ p.location.iteration = 0 ∧ before = [] ∧
    p.pending = none ∧ (a.boundary p.definition 0).map Progress.eof = some true
  untouched : a.ticks = [] →
    a.done = [] ∧ p.isFailed = false ∧ p.due = none ∧ p.pending = none

/-- The playback is over. -/
structure Ended (p : Playback) (a : Account) : Prop where
  event : p.location.event = p.definition.events.length
  done : a.actions = p.definition.iterations p.location.iteration
  allowed : ∃ last, p.location.iteration = last + 1 ∧ p.mode.allows p.maxIterations last
  moved : p.mode = .untilEof → ∀ i, i + 1 < p.location.iteration →
    a.boundary p.definition i ≠ a.boundary p.definition (i + 1)
  idle : p.pending = none ∧ a.inflight = none
  state : p.state = .complete ∧ p.mode.isDone (a.boundary p.definition p.location.iteration)
      p.location.iteration ∨
    p.isFailed = true ∧ p.mode = .untilEof ∧ (p.location.iteration = p.maxIterations ∨
      a.boundary p.definition (p.location.iteration - 1) =
        a.boundary p.definition p.location.iteration)
  ticked : a.ticks ≠ []

/-- Where a playback stands in a run. -/
def Stands (p : Playback) (a : Account) : Prop :=
  (∃ before rest, Going p a before rest) ∨ Ended p a

/-! ## §2 The end of an action -/

theorem Macro.iterations_succ (m : Macro) (count : Nat) :
    m.iterations (count + 1) = m.iterations count ++ m.performed := by
  rw [iterations, List.replicate_succ', List.flatten_append, List.flatten_singleton]
  rfl

theorem Macro.length_iterations (m : Macro) (count : Nat) :
    (m.iterations count).length = count * m.actions.length := by
  rw [iterations, List.length_flatten, List.map_replicate, List.sum_replicate_nat, performed,
    List.length_map]

namespace Position

variable {before rest tail : List Paced} {paced : Paced}

theorem length_done (h : Position p a before rest) :
    a.done.length = p.location.iteration * p.definition.actions.length + before.length := by
  have hdone := congrArg List.length h.done
  rw [Account.actions, List.length_map, List.length_append, List.length_map,
    Macro.length_iterations] at hdone
  exact hdone

/-- The account once the next action is done. -/
def finished (a : Account) (action : Action) (now : Nat) (progress : Progress) : Account :=
  { a with done := a.done ++ [(action, now, progress)], inflight := none }

/-- Iterations that are over end where they did. -/
theorem boundary_finished (h : Position p a before rest) (action : Action) (now : Nat)
    (progress : Progress) {i : Nat} (hi : i ≤ p.location.iteration)
    (hpos : 0 < p.definition.actions.length) :
    (finished a action now progress).boundary p.definition i = a.boundary p.definition i := by
  rw [Account.boundary, Account.boundary]
  split_ifs with hzero
  · rfl
  have hle := Nat.mul_le_mul_right p.definition.actions.length hi
  have hone := Nat.mul_le_mul_right p.definition.actions.length (Nat.one_le_iff_ne_zero.mpr hzero)
  rw [Nat.one_mul] at hone
  rw [finished, List.getElem?_append_left (by rw [h.length_done]; omega)]

/-- The action that was done is the last one, and its pause the one that counts. -/
theorem due_finished (h : Position p a before (paced :: tail)) (now : Nat) (progress : Progress) :
    (finished a paced.action now progress).due p.definition = paced.pause.map (now + ·) := by
  have hlt : before.length < p.definition.actions.length := by
    rw [h.split, List.length_append, List.length_cons]
    omega
  have hindex : ((finished a paced.action now progress).done.length - 1) %
      p.definition.actions.length = before.length := by
    rw [finished, List.length_append, List.length_singleton, Nat.add_sub_cancel, h.length_done,
      Nat.mul_add_mod', Nat.mod_eq_of_lt hlt]
  have hpaced : p.definition.actions[before.length]? = some paced := by
    rw [h.split, List.getElem?_append_right (Nat.le_refl _), Nat.sub_self]
    rfl
  rw [Account.due, hindex, hpaced, finished, List.getLast?_concat]
  rfl

theorem actions_finished (h : Position p a before (paced :: tail)) (now : Nat)
    (progress : Progress) : (finished a paced.action now progress).actions =
      p.definition.iterations p.location.iteration ++ (before ++ [paced]).map Paced.action := by
  rw [Account.actions, finished, List.map_append, ← Account.actions, h.done, List.map_append,
    List.append_assoc]
  rfl

/-- The actions of an iteration are not none. -/
theorem actions_pos (h : Position p a before (paced :: tail)) :
    0 < p.definition.actions.length := by
  rw [h.split, List.length_append, List.length_cons]
  omega

/-- The state of the playback does not matter, nor what is awaited. -/
theorem congr (h : Position p a before rest) {p' : Playback} {a' : Account}
    (hdefinition : p'.definition = p.definition) (hlocation : p'.location = p.location)
    (hmode : p'.mode = p.mode) (hmax : p'.maxIterations = p.maxIterations)
    (hdone : a'.done = a.done) (hticks : a'.ticks = a.ticks) : Position p' a' before rest := by
  refine ⟨?_, ?_, ?_, ?_, ?_⟩
  · rw [hdefinition, hlocation]
    exact h.named
  · rw [hdefinition]
    exact h.split
  · rw [Account.actions, hdone, hdefinition, hlocation]
    exact h.done
  · rw [hmode, hmax, hlocation]
    exact h.allowed
  · simp only [hmode, hdefinition, hlocation, Account.boundary, hdone, hticks]
    exact h.moved

/-- Within an iteration the playback stands in front of one action less. -/
theorem advance (h : Position p a before (paced :: tail)) (now : Nat) (progress : Progress)
    {p' : Playback} (hdefinition : p'.definition = p.definition) (hmode : p'.mode = p.mode)
    (hmax : p'.maxIterations = p.maxIterations)
    (hiteration : p'.location.iteration = p.location.iteration)
    (hnames : Names p.definition p'.location tail) :
    Position p' (finished a paced.action now progress) (before ++ [paced]) tail := by
  have hpos := h.actions_pos
  refine ⟨hdefinition ▸ hnames, ?_, ?_, ?_, ?_⟩
  · rw [hdefinition, h.split, List.append_assoc]
    rfl
  · rw [h.actions_finished, hdefinition, hiteration]
  · rw [hmode, hmax, hiteration]
    exact h.allowed
  · rw [hmode, hdefinition, hiteration]
    intro huntil i hi
    rw [h.boundary_finished _ _ _ hi.le hpos, h.boundary_finished _ _ _ hi hpos]
    exact h.moved huntil i hi

/-- The end of the iteration behind its last action. -/
theorem boundary_last (h : Position p a before [paced]) (now : Nat) (progress : Progress) :
    (finished a paced.action now progress).boundary p.definition (p.location.iteration + 1) =
      some progress := by
  have hlength := congrArg List.length h.split
  rw [List.length_append, List.length_singleton] at hlength
  have hindex : (p.location.iteration + 1) * p.definition.actions.length - 1 = a.done.length := by
    rw [h.length_done, Nat.succ_mul, hlength]
    omega
  rw [Account.boundary, if_neg (Nat.succ_ne_zero _), hindex, finished,
    List.getElem?_append_right (Nat.le_refl _), Nat.sub_self]
  rfl

/-- The actions that are done make up one more iteration. -/
theorem iterations_finished (h : Position p a before [paced]) (now : Nat) (progress : Progress) :
    (finished a paced.action now progress).actions =
      p.definition.iterations (p.location.iteration + 1) := by
  rw [h.actions_finished, ← h.split, Macro.iterations_succ]
  rfl

end Position

/-- The checks of `validate` that playing relies on. -/
structure Macro.Playable (m : Macro) : Prop where
  events : m.events ≠ []
  typed : ∀ event ∈ m.events, event.checkTyping = .ok ()

section Finish

variable {before tail : List Paced} {paced : Paced} {now : Nat} {progress : Progress}

theorem Repeat.isDone_of_completes {mode : Repeat} {maxIterations iteration : Nat}
    (hallowed : mode.allows maxIterations iteration)
    (h : mode.completes (iteration + 1) progress = true) :
    mode.isDone (some progress) (iteration + 1) := by
  obtain ⟨-, hmode⟩ := hallowed
  cases mode with
  | once => exact congrArg (· + 1) hmode
  | times count => exact Nat.le_antisymm hmode.1 (decide_eq_true_iff.mp h)
  | untilEof => exact congrArg some h

theorem Repeat.allows_succ {mode : Repeat} {maxIterations iteration : Nat}
    (hallowed : mode.allows maxIterations iteration)
    (hcompletes : mode.completes (iteration + 1) progress = false)
    (hmax : iteration + 1 < maxIterations) : mode.allows maxIterations (iteration + 1) := by
  obtain ⟨-, hmode⟩ := hallowed
  refine ⟨hmax, ?_⟩
  cases mode with
  | once => exact nomatch hcompletes
  | times count => exact ⟨Nat.lt_of_not_le (decide_eq_false_iff_not.mp hcompletes), hmode.2⟩
  | untilEof => trivial

/-- At the iteration limit only `UntilEof` is not done. -/
theorem Repeat.untilEof_of_limit {mode : Repeat} {maxIterations iteration : Nat}
    (hallowed : mode.allows maxIterations iteration)
    (hcompletes : mode.completes (iteration + 1) progress = false)
    (hmax : maxIterations ≤ iteration + 1) : mode = .untilEof := by
  obtain ⟨-, hmode⟩ := hallowed
  cases mode with
  | once => exact nomatch hcompletes
  | times count =>
    have := decide_eq_false_iff_not.mp hcompletes
    omega
  | untilEof => rfl

/-- Behind the last action of an iteration the playback is over, or starts the next one. -/
theorem finishIteration_stands (hplayable : p.definition.Playable)
    (hpos : Position p a before [paced])
    (hbegan : p.iterationStart = a.boundary p.definition p.location.iteration)
    (hpause : paced.pause = none) (hticks : a.ticks ≠ []) (hpending : p.pending = none)
    (hdue : p.due = none) {event : Nat} (hevent : event = p.definition.events.length) :
    Stands ({ p with
        state := .running
        location := ⟨p.location.iteration, event, 0⟩ }.finishIteration progress)
      (Position.finished a paced.action now progress) := by
  have hdone := hpos.iterations_finished now progress
  have hlast := hpos.boundary_last now progress
  have hbefore : ∀ i ≤ p.location.iteration,
      (Position.finished a paced.action now progress).boundary p.definition i =
        a.boundary p.definition i :=
    fun i hi => hpos.boundary_finished _ _ _ hi hpos.actions_pos
  have hmoved : p.mode = .untilEof → ∀ i, i + 1 < p.location.iteration + 1 →
      (Position.finished a paced.action now progress).boundary p.definition i ≠
        (Position.finished a paced.action now progress).boundary p.definition (i + 1) := by
    intro huntil i hi
    rw [hbefore i (by omega), hbefore (i + 1) (by omega)]
    exact hpos.moved huntil i (by omega)
  rw [Playback.finishIteration]
  dsimp only
  cases hcompletes : p.mode.completes (p.location.iteration + 1) progress with
  | true =>
    rw [if_pos rfl]
    refine .inr ⟨hevent, hdone, ⟨_, rfl, hpos.allowed⟩, hmoved, ⟨hpending, rfl⟩, .inl ⟨rfl, ?_⟩,
      hticks⟩
    rw [hlast]
    exact Repeat.isDone_of_completes hpos.allowed hcompletes
  | false =>
    rw [if_neg Bool.false_ne_true]
    by_cases hmax : p.maxIterations ≤ p.location.iteration + 1
    · rw [if_pos hmax]
      have huntil := Repeat.untilEof_of_limit hpos.allowed hcompletes hmax
      have hlimit : p.location.iteration + 1 = p.maxIterations :=
        Nat.le_antisymm hpos.allowed.1 hmax
      exact .inr ⟨hevent, hdone, ⟨_, rfl, hpos.allowed⟩, hmoved, ⟨hpending, rfl⟩,
        .inr ⟨rfl, huntil, .inl hlimit⟩, hticks⟩
    rw [if_neg hmax]
    by_cases hsame : p.mode = .untilEof ∧ p.iterationStart = some progress
    · rw [if_pos hsame]
      refine .inr ⟨hevent, hdone, ⟨_, rfl, hpos.allowed⟩, hmoved, ⟨hpending, rfl⟩,
        .inr ⟨rfl, hsame.1, .inr ?_⟩, hticks⟩
      have hstart := hbefore p.location.iteration (Nat.le_refl _)
      rw [← hbegan, hsame.2] at hstart
      exact hstart.trans hlast.symm
    · -- the next iteration starts
      rw [if_neg hsame]
      refine .inl ⟨[], p.definition.actions, ⟨⟨?_, rfl, ?_, ?_, ?_⟩, ?_, fun _ => hlast.symm, ?_,
        ?_, ?_, fun hnone => absurd hnone hticks⟩⟩
      · exact .start hplayable.typed hplayable.events _
      · rw [hdone]
        exact (List.append_nil _).symm
      · exact Repeat.allows_succ hpos.allowed hcompletes (Nat.lt_of_not_le hmax)
      · intro huntil i hi
        rcases Nat.lt_or_eq_of_le (Nat.le_of_lt_succ hi) with hlt | rfl
        · exact hmoved huntil i (Nat.succ_lt_succ hlt)
        · dsimp only
          rw [hbefore _ (Nat.le_refl _), ← hbegan, hlast]
          exact fun hstart => hsame ⟨huntil, hstart⟩
      · rw [Awaits]
        dsimp only
        rw [hpending]
        rfl
      · intro _ t ht
        rw [hpos.due_finished, hpause] at ht
        exact nomatch ht
      · exact fun _ => ⟨hpending, hdue⟩
      · exact nofun

/-- Behind the last action of an event. -/
theorem finishEvent_stands (hplayable : p.definition.Playable)
    (hpos : Position p a before (paced :: tail))
    (hbegan : p.iterationStart = a.boundary p.definition p.location.iteration)
    (hpause : paced.pause = none) (hticks : a.ticks ≠ []) (hpending : p.pending = none)
    (hdue : p.due = none)
    (hnext : p.location.event + 1 = p.definition.events.length ∧ tail = [] ∨
      p.location.event + 1 < p.definition.events.length ∧ Names p.definition
        { p.location with textByte := 0, event := p.location.event + 1 } tail) :
    Stands (p.finishEvent progress) (Position.finished a paced.action now progress) := by
  rw [Playback.finishEvent]
  dsimp only
  rcases hnext with ⟨hend, rfl⟩ | ⟨hlt, hnames⟩
  · rw [if_pos hend]
    exact finishIteration_stands hplayable hpos hbegan hpause hticks hpending hdue hend
  · rw [if_neg (Nat.ne_of_lt hlt)]
    refine .inl ⟨before ++ [paced], tail, hpos.advance now progress rfl rfl rfl rfl hnames, ?_, ?_,
      ?_, ?_, nofun, fun hnone => absurd hnone hticks⟩
    · rw [Awaits]
      dsimp only
      rw [hpending]
      rfl
    · exact fun _ => hbegan.trans
        (hpos.boundary_finished _ _ _ (Nat.le_refl _) hpos.actions_pos).symm
    · intro _ t ht
      rw [hpos.due_finished, hpause] at ht
      exact nomatch ht
    · exact fun _ => ⟨hpending, hdue⟩

/-- The end of an action. -/
theorem finishStep_stands (hplayable : p.definition.Playable)
    (hpos : Position p a before (paced :: tail))
    (hbegan : p.iterationStart = a.boundary p.definition p.location.iteration)
    {nextText : Option NextText} (hbehind : Behind p.definition p.location paced nextText tail)
    (hticks : a.ticks ≠ []) (hpending : p.pending = none) (hdue : p.due = none) :
    Stands (p.finishStep now nextText progress)
      (Position.finished a paced.action now progress) := by
  have hevent : (∀ t, nextText = some t → t.length ≤ t.next) →
      Stands (p.finishEvent progress) (Position.finished a paced.action now progress) := by
    intro hend
    obtain ⟨hpause, hnext⟩ := hbehind.atEnd hend
    exact finishEvent_stands hplayable hpos hbegan hpause hticks hpending hdue hnext
  cases nextText with
  | none => exact hevent nofun
  | some t =>
    rw [Playback.finishStep]
    dsimp only
    by_cases hlt : t.next < t.length
    · rw [if_pos hlt]
      obtain ⟨hpause, hnames⟩ := hbehind.inText t rfl hlt
      refine .inl ⟨before ++ [paced], tail, hpos.advance now progress rfl rfl rfl rfl hnames, ?_,
        ?_, ?_, nofun, nofun, fun hnone => absurd hnone hticks⟩
      · rw [Awaits]
        dsimp only
        rw [hpending]
        rfl
      · exact fun _ => hbegan.trans
          (hpos.boundary_finished _ _ _ (Nat.le_refl _) hpos.actions_pos).symm
      · intro _ t' ht'
        rw [hpos.due_finished, hpause] at ht'
        exact .inl ht'
    · rw [if_neg hlt]
      refine hevent fun t' ht' => ?_
      obtain rfl := Option.some.inj ht'
      exact Nat.le_of_not_lt hlt

end Finish

end BareLine.Macros
