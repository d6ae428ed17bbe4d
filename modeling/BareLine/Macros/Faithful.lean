import BareLine.Macros.Positions

/-!
# A playback performs the actions of its macro

In every run the actions that are done are the first of those that the macro stands for, repeated
as the mode says, and the location names the next one.
-/

namespace BareLine.Macros

variable {σ κ : Type} {p : Playback} {a : Account}

/-! ## §1 One call -/

/-- The playback stands in front of an action that is due, and nothing is awaited. -/
structure Ready (p : Playback) (a : Account) (before rest : List Paced) : Prop
    extends Position p a before rest where
  began : p.iterationStart = a.boundary p.definition p.location.iteration
  due : p.due = none
  waited : ∀ t, a.due p.definition = some t → ∃ tick ∈ a.ticks, t ≤ tick.1
  ticked : a.ticks ≠ []

section Calls

variable {before rest tail : List Paced} {paced : Paced} {now : Nat}

/-- A failure stops the playback in front of the action. -/
theorem Ready.fail (h : Ready p a before rest) (hpending : p.pending = none)
    (hinflight : a.inflight = none) (reason : String) : Stands (p.fail reason) a := by
  refine .inl ⟨before, rest, h.congr rfl rfl rfl rfl rfl rfl, ?_, fun _ => h.began,
    fun _ t ht => .inr (h.waited t ht), fun _ => ⟨hpending, h.due⟩, nofun,
    fun hnone => absurd hnone h.ticked⟩
  rw [Awaits, Playback.fail]
  dsimp only
  rw [hpending]
  exact hinflight

/-- What comes of the answer to a poll. -/
theorem Ready.settle (hplayable : p.definition.Playable) (h : Ready p a before (paced :: tail))
    (hinflight : a.inflight = some paced.action) (hclock : a.clock = now)
    {nextText : Option NextText} (hbehind : Behind p.definition p.location paced nextText tail)
    {p' : Playback} {entry : Entry} (hsettles : Settles p now nextText p' entry) :
    Stands p' (a.enter entry) := by
  cases hsettles with
  | waits progress =>
    refine .inl ⟨before, paced :: tail, h.congr rfl rfl rfl rfl rfl rfl, ?_, fun _ => h.began,
      fun _ t ht => .inr (h.waited t ht), nofun, nofun, fun hnone => absurd hnone h.ticked⟩
    exact ⟨paced, tail, rfl, hinflight, hbehind, h.due⟩
  | fails reason progress =>
    let p₀ : Playback := { p with pending := none }
    have hready : Ready p₀ (a.enter (.polled none progress)) before (paced :: tail) :=
      ⟨h.congr rfl rfl rfl rfl rfl rfl, h.began, h.due, h.waited, h.ticked⟩
    exact hready.fail rfl rfl reason
  | finishes progress =>
    have hentry : a.enter (.polled (some true) progress) =
        Position.finished a paced.action now progress := by
      rw [Account.enter, hinflight, hclock]
      rfl
    rw [hentry]
    let p₀ : Playback := { p with pending := none }
    have hpos : Position p₀ a before (paced :: tail) := h.congr rfl rfl rfl rfl rfl rfl
    exact @finishStep_stands p₀ a before tail paced now progress hplayable hpos h.began nextText
      hbehind h.ticked rfl h.due

/-- What comes of an action that is due. -/
theorem Ready.start (hplayable : p.definition.Playable) (h : Ready p a before (paced :: tail))
    (hpending : p.pending = none) (hinflight : a.inflight = none) (hclock : a.clock = now)
    {nextText : Option NextText} (hbehind : Behind p.definition p.location paced nextText tail)
    {p' : Playback} {entries : List Entry}
    (hstarts : Starts p now paced.action nextText p' entries) : Stands p' (a.enterAll entries) := by
  cases hstarts with
  | refused reason => exact h.fail hpending hinflight reason
  | rejected reason =>
    have hready : Ready p (a.enter (.started paced.action false)) before (paced :: tail) :=
      ⟨h.congr rfl rfl rfl rfl rfl rfl, h.began, h.due, h.waited, h.ticked⟩
    exact hready.fail hpending rfl reason
  | taken hsettles =>
    have hready : Ready p (a.enter (.started paced.action true)) before (paced :: tail) :=
      ⟨h.congr rfl rfl rfl rfl rfl rfl, h.began, h.due, h.waited, h.ticked⟩
    exact hready.settle hplayable rfl hclock hbehind hsettles

/-- The account once a tick came. -/
def Account.ticked (a : Account) (now : Nat) (progress : Progress) : Account :=
  a.enter (.ticked now progress)

theorem boundary_ticked {m : Macro} {progress : Progress} {i : Nat}
    (h : a.ticks = [] → i ≠ 0) : (a.ticked now progress).boundary m i = a.boundary m i := by
  rw [Account.boundary, Account.boundary]
  split_ifs with hzero
  · have hticks : a.ticks ≠ [] := fun hnone => h hnone hzero
    rw [Account.ticked, Account.enter, List.head?_append_of_ne_nil _ hticks]
  · rfl

/-- Before the first tick nothing is done. -/
theorem Position.fresh (h : Position p a before rest) (hrest : rest ≠ []) (hdone : a.done = []) :
    p.location.iteration = 0 ∧ before = [] := by
  have hlength := h.length_done
  have hpos : 0 < rest.length := List.length_pos_iff.mpr hrest
  rw [hdone, h.split, List.length_append, List.length_nil] at hlength
  have hbefore : before.length = 0 := by omega
  refine ⟨?_, List.length_eq_zero_iff.mp hbefore⟩
  rcases Nat.eq_zero_or_pos p.location.iteration with hzero | hiteration
  · exact hzero
  · have := Nat.mul_pos hiteration (Nat.add_pos_right before.length hpos)
    omega

theorem Names.ne_nil {m : Macro} {location : Location} (h : Names m location rest) : rest ≠ [] := by
  cases h <;> exact List.cons_ne_nil _ _

/-- Once a tick came, the start of the iteration is known. -/
theorem Position.boundary_known (h : Position p a before rest) (hticks : a.ticks ≠ []) :
    ∃ progress, a.boundary p.definition p.location.iteration = some progress := by
  rw [Account.boundary]
  split_ifs with hzero
  · obtain ⟨tick, ticks, hcons⟩ := List.exists_cons_of_ne_nil hticks
    exact ⟨tick.2, by rw [hcons]; rfl⟩
  · have hpos : 0 < p.definition.actions.length := by
      rw [h.split, List.length_append]
      exact Nat.add_pos_right _ (List.length_pos_iff.mpr h.named.ne_nil)
    have hmul := Nat.mul_pos (Nat.pos_of_ne_zero hzero) hpos
    have hlt : p.location.iteration * p.definition.actions.length - 1 < a.done.length := by
      rw [h.length_done]
      omega
    exact ⟨_, by rw [List.getElem?_eq_getElem hlt]; rfl⟩

/-- A tick changes nothing of where the playback stands. -/
theorem Position.ticked (h : Position p a before rest) (hfresh : a.ticks = [] → a.done = [])
    (progress : Progress) : Position p (a.ticked now progress) before rest := by
  refine ⟨h.named, h.split, h.done, h.allowed, fun huntil i hi => ?_⟩
  have hticks : a.ticks ≠ [] := by
    intro hnone
    have := (h.fresh h.named.ne_nil (hfresh hnone)).1
    omega
  rw [boundary_ticked fun hnone => absurd hnone hticks,
    boundary_ticked fun hnone => absurd hnone hticks]
  exact h.moved huntil i hi

/-- The next action may start: the playback is active, nothing is awaited and the next action is
due. -/
structure Startable (p : Playback) (a : Account) (now : Nat) (before rest : List Paced) : Prop where
  going : Going p a before rest
  active : p.state.active = true
  pending : p.pending = none
  due : ∀ t, p.due = some t → t ≤ now

theorem active_ne_cancelled (h : p.state.active = true) : p.state ≠ .cancelled := by
  intro hcancelled
  rw [hcancelled] at h
  exact nomatch h

/-- The next action is not due before its time. -/
theorem Startable.onTime (h : Startable p a now before rest) {t : Nat}
    (ht : a.due p.definition = some t) : t ≤ now ∨ ∃ tick ∈ a.ticks, t ≤ tick.1 :=
  (h.going.due (active_ne_cancelled h.active) t ht).imp_left (h.due t)

theorem Startable.inflight (h : Startable p a now before rest) : a.inflight = none := by
  have hawaits := h.going.awaits
  rw [Awaits, h.pending] at hawaits
  exact hawaits

/-- A playback with the start of its iteration noted is ready. -/
theorem Startable.ready (h : Startable p a now before rest) (progress : Progress) :
    Ready { p with
        state := .running
        due := none
        iterationStart := some (p.iterationStart.getD progress) }
      (a.ticked now progress) before rest := by
  have hgoing := h.going
  have hfresh : a.ticks = [] → a.done = [] := fun hnone => (hgoing.untouched hnone).1
  have hbegan := hgoing.began (.inl h.active)
  refine ⟨(hgoing.ticked hfresh progress).congr rfl rfl rfl rfl rfl rfl, ?_, rfl, fun t ht => ?_,
    List.append_ne_nil_of_right_ne_nil _ (List.cons_ne_nil _ _)⟩
  · dsimp only
    rcases eq_or_ne a.ticks [] with hnone | hticks
    · -- the first tick starts the first iteration
      obtain ⟨hzero, -⟩ := hgoing.fresh hgoing.named.ne_nil (hfresh hnone)
      rw [hbegan, hzero, Account.boundary, Account.boundary, if_pos rfl, if_pos rfl, hnone,
        Account.ticked, Account.enter, hnone]
      rfl
    · obtain ⟨start, hstart⟩ := hgoing.boundary_known hticks
      rw [boundary_ticked fun hnone => absurd hnone hticks, hbegan, hstart]
      rfl
  · rcases h.onTime ht with hle | ⟨tick, hmem, hle⟩
    · exact ⟨(now, progress), List.mem_append_right _ (List.mem_singleton_self _), hle⟩
    · exact ⟨tick, List.mem_append_left _ hmem, hle⟩

theorem ticks_ticked (progress : Progress) : (a.ticked now progress).ticks ≠ [] :=
  List.append_ne_nil_of_right_ne_nil _ (List.cons_ne_nil _ _)

theorem Going.due_ticked (h : Going p a before rest) (hstate : p.state ≠ .cancelled)
    (progress : Progress) {t : Nat} (ht : a.due p.definition = some t) :
    p.due = some t ∨ ∃ tick ∈ (a.ticked now progress).ticks, t ≤ tick.1 :=
  (h.due hstate t ht).imp_right fun ⟨tick, hmem, hle⟩ => ⟨tick, List.mem_append_left _ hmem, hle⟩

/-- A tick of a playback that is not active changes nothing. -/
theorem Going.idle (h : Going p a before rest) (hinactive : p.state.active = false)
    (progress : Progress) : Stands p (a.ticked now progress) := by
  have hfresh : a.ticks = [] → a.done = [] := fun hnone => (h.untouched hnone).1
  refine .inl ⟨before, rest, h.ticked hfresh progress, h.awaits, ?_,
    fun hstate t ht => h.due_ticked hstate progress ht, h.failed, ?_,
    fun hnone => absurd hnone (ticks_ticked progress)⟩
  · rintro (hactive | hfailed)
    · cases hinactive.symm.trans hactive
    have hticks : a.ticks ≠ [] := fun hnone =>
      (by cases hfailed.symm.trans (h.untouched hnone).2.1)
    rw [boundary_ticked fun hnone => absurd hnone hticks]
    exact h.began (.inr hfailed)
  · intro hcomplete
    obtain ⟨huntil, hzero, hbefore, hpending, heof⟩ := h.complete hcomplete
    have hticks : a.ticks ≠ [] := by
      intro hnone
      rw [Account.boundary, if_pos rfl, hnone] at heof
      cases heof
    rw [boundary_ticked fun hnone => absurd hnone hticks]
    exact ⟨huntil, hzero, hbefore, hpending, heof⟩

/-- A tick before the next action is due only waits. -/
theorem Going.early (h : Going p a before rest) (hactive : p.state.active = true) {t : Nat}
    (hdue : p.due = some t) (ms : Nat) (progress : Progress) :
    Stands { p with state := .waiting ms } (a.ticked now progress) := by
  have hfresh : a.ticks = [] → a.done = [] := fun hnone => (h.untouched hnone).1
  have hticks : a.ticks ≠ [] := fun hnone => nomatch hdue.symm.trans (h.untouched hnone).2.2.1
  refine .inl ⟨before, rest, (h.ticked hfresh progress).congr rfl rfl rfl rfl rfl rfl, h.awaits,
    fun _ => ?_, fun _ t ht => h.due_ticked (active_ne_cancelled hactive) progress ht, nofun, nofun,
    fun hnone => absurd hnone (ticks_ticked progress)⟩
  rw [boundary_ticked fun hnone => absurd hnone hticks]
  exact h.began (.inl hactive)

/-- An answer that was awaited. -/
theorem Going.answered (hplayable : p.definition.Playable) (h : Going p a before rest)
    (hactive : p.state.active = true) {nextText : Option NextText}
    (hpending : p.pending = some nextText) (progress : Progress) {p' : Playback} {entry : Entry}
    (hsettles : Settles p now nextText p' entry) :
    Stands p' ((a.ticked now progress).enter entry) := by
  have hfresh : a.ticks = [] → a.done = [] := fun hnone => (h.untouched hnone).1
  have hawaits := h.awaits
  rw [Awaits, hpending] at hawaits
  obtain ⟨paced, tail, rfl, hinflight, hbehind, hdue⟩ := hawaits
  have hticks : a.ticks ≠ [] := fun hnone =>
    (by cases hpending.symm.trans (h.untouched hnone).2.2.2)
  have hready : Ready p (a.ticked now progress) before (paced :: tail) := by
    refine ⟨h.ticked hfresh progress, ?_, hdue, fun t ht => ?_, ticks_ticked progress⟩
    · rw [boundary_ticked fun hnone => absurd hnone hticks]
      exact h.began (.inl hactive)
    · exact (h.due_ticked (active_ne_cancelled hactive) progress ht).resolve_left
        fun hsome => (by cases hdue.symm.trans hsome)
  have hclock : (a.ticked now progress).clock = now := by
    rw [Account.clock, Account.ticked, Account.enter, List.getLast?_concat]
    rfl
  exact hready.settle hplayable hinflight hclock hbehind hsettles

/-- The macro, the mode and the limit stay. -/
structure Keeps (p p' : Playback) : Prop where
  definition : p'.definition = p.definition
  mode : p'.mode = p.mode
  maxIterations : p'.maxIterations = p.maxIterations

theorem Keeps.finishStep (p : Playback) (now : Nat) (nextText : Option NextText)
    (progress : Progress) : Keeps p (p.finishStep now nextText progress) := by
  have hiteration : ∀ q : Playback, Keeps q (q.finishIteration progress) := by
    intro q
    rw [Playback.finishIteration]
    dsimp only
    split_ifs <;> exact ⟨rfl, rfl, rfl⟩
  have hevent : Keeps p (p.finishEvent progress) := by
    rw [Playback.finishEvent]
    dsimp only
    split_ifs
    · exact ⟨(hiteration _).definition, (hiteration _).mode, (hiteration _).maxIterations⟩
    · exact ⟨rfl, rfl, rfl⟩
  cases nextText with
  | none => exact hevent
  | some t =>
    rw [Playback.finishStep]
    dsimp only
    split_ifs
    · exact ⟨rfl, rfl, rfl⟩
    · exact hevent

theorem Keeps.settles {nextText : Option NextText} {p' : Playback} {entry : Entry}
    (h : Settles p now nextText p' entry) : Keeps p p' := by
  cases h with
  | waits => exact ⟨rfl, rfl, rfl⟩
  | fails => exact ⟨rfl, rfl, rfl⟩
  | finishes progress =>
    obtain ⟨hdefinition, hmode, hmax⟩ :=
      Keeps.finishStep { p with pending := none } now nextText progress
    exact ⟨hdefinition, hmode, hmax⟩

theorem Keeps.starts {action : Action} {nextText : Option NextText} {p' : Playback}
    {entries : List Entry} (h : Starts p now action nextText p' entries) : Keeps p p' := by
  cases h with
  | refused => exact ⟨rfl, rfl, rfl⟩
  | rejected => exact ⟨rfl, rfl, rfl⟩
  | taken settles => exact .settles settles

/-- An answer to a poll starts nothing. -/
theorem Settles.starts_eq {nextText : Option NextText} {p' : Playback} {entry : Entry}
    (h : Settles p now nextText p' entry) : entry.starts = false := by
  cases h <;> rfl

/-- Only the action that is due is started. -/
theorem Starts.eq_of_mem {action : Action} {nextText : Option NextText} {p' : Playback}
    {entries : List Entry} (h : Starts p now action nextText p' entries) :
    entries.countP Entry.starts ≤ 1 ∧
      ∀ other taken, .started other taken ∈ entries → other = action := by
  cases h with
  | refused => exact ⟨Nat.zero_le 1, nofun⟩
  | rejected =>
    refine ⟨Nat.le_refl 1, fun other taken hmem => ?_⟩
    injection List.mem_singleton.mp hmem
  | taken settles =>
    have hlast : Entry.starts _ = false := settles.starts_eq
    refine ⟨?_, fun other taken hmem => ?_⟩
    · rw [List.countP_cons_of_pos rfl, List.countP_cons_of_neg (by rw [hlast]; exact nofun),
        List.countP_nil]
    rcases List.mem_cons.mp hmem with hfirst | hmem
    · injection hfirst
    · rw [← List.mem_singleton.mp hmem] at hlast
      exact nomatch hlast

/-- What a call leaves: where the playback stands, and that it started no other action than the
next one, when that was due. -/
structure Called (p : Playback) (a : Account) (p' : Playback) (log : List Entry) : Prop where
  stands : Stands p' (a.enterAll log)
  keeps : Keeps p p'
  once : log.countP Entry.starts ≤ 1
  next : ∀ action taken, .started action taken ∈ log → ∃ now progress before paced tail,
    log.head? = some (.ticked now progress) ∧ Startable p a now before (paced :: tail) ∧
      paced.action = action

/-- A playback that is over is not active, and stays over. -/
theorem Ended.tick (h : Ended p a) (progress : Progress) :
    p.state.active = false ∧ Ended p (a.ticked now progress) := by
  refine ⟨?_, ⟨h.event, h.done, h.allowed, ?_, h.idle, ?_, ticks_ticked progress⟩⟩
  · rcases h.state with ⟨hcomplete, -⟩ | ⟨hfailed, -⟩
    · rw [hcomplete]
      rfl
    · rw [Playback.isFailed] at hfailed
      cases hstate : p.state with
      | failed => rfl
      | _ => rw [hstate] at hfailed; exact nomatch hfailed
  · intro huntil i hi
    rw [boundary_ticked fun hnone => absurd hnone h.ticked,
      boundary_ticked fun hnone => absurd hnone h.ticked]
    exact h.moved huntil i hi
  · rw [boundary_ticked fun hnone => absurd hnone h.ticked,
      boundary_ticked fun hnone => absurd hnone h.ticked]
    exact h.state

/-- A tick at the end of the document completes a playback that would run up to there. -/
theorem Startable.eof (h : Startable p a now before rest) (huntil : p.mode = .untilEof)
    (hstart : p.iterationStart = none) {progress : Progress} (heof : progress.eof = true) :
    Stands { p with state := .complete, due := none } (a.ticked now progress) := by
  have hgoing := h.going
  have hfresh : a.ticks = [] → a.done = [] := fun hnone => (hgoing.untouched hnone).1
  -- the first iteration has not begun, so this is the first tick
  have hnone : a.ticks = [] := by
    by_contra hticks
    obtain ⟨start, hknown⟩ := hgoing.boundary_known hticks
    cases (hstart.symm.trans (hgoing.began (.inl h.active))).trans hknown
  obtain ⟨hzero, hbefore⟩ := hgoing.fresh hgoing.named.ne_nil (hfresh hnone)
  refine .inl ⟨before, rest, (hgoing.ticked hfresh progress).congr rfl rfl rfl rfl rfl rfl, ?_, ?_,
    ?_, (fun h => by cases h), fun _ => ⟨huntil, hzero, hbefore, h.pending, ?_⟩,
    fun hempty => absurd hempty (ticks_ticked progress)⟩
  · rw [Awaits]
    dsimp only
    rw [h.pending]
    exact h.inflight
  · exact fun hor => hor.elim (fun h => by cases h) (fun h => by cases h)
  · intro _ t ht
    rcases hgoing.due_ticked (active_ne_cancelled h.active) progress ht with hdue | htick
    · cases hdue.symm.trans (hgoing.untouched hnone).2.2.1
    · exact .inr htick
  · rw [Account.boundary, if_pos rfl, Account.ticked, Account.enter, hnone]
    exact congrArg some heof

/-- The start of an action. -/
theorem Startable.start (hplayable : p.definition.Playable) (h : Startable p a now before rest)
    (registry : CommandRegistry κ) (executor : MacroExecutor σ κ) (s : σ) (progress : Progress) :
    ∃ p' s' entries, (p.noted progress).start now registry executor.logged
        (s, [.ticked now progress]) = some (p', s', .ticked now progress :: entries) ∧
      Called p a p' (.ticked now progress :: entries) := by
  have hready : Ready (p.noted progress) (a.ticked now progress) before rest := h.ready progress
  obtain ⟨event, arguments, nextText, paced, tail, hevent, hstep, rfl, haction, hbehind⟩ :=
    hready.named.step hplayable.typed
  obtain ⟨p', s', entries, hstart, hstarts⟩ :=
    Playback.start_spec now registry executor s [.ticked now progress] hevent hstep
  rw [← haction] at hstarts
  have hclock : (a.ticked now progress).clock = now := by
    rw [Account.clock, Account.ticked, Account.enter, List.getLast?_concat]
    rfl
  have hplayable' : (p.noted progress).definition.Playable := hplayable
  obtain ⟨hdefinition, hmode, hmax⟩ := Keeps.starts hstarts
  obtain ⟨honce, honly⟩ := hstarts.eq_of_mem
  refine ⟨p', s', entries, hstart,
    hready.start hplayable' h.pending h.inflight hclock hbehind hstarts,
    ⟨hdefinition, hmode, hmax⟩, honce, fun action taken hmem => ?_⟩
  refine ⟨now, progress, before, paced, tail, rfl, h, ?_⟩
  rcases List.mem_cons.mp hmem with hticked | hmem
  · exact nomatch hticked
  · exact (honly action taken hmem).symm

/-- A call in which nothing happens but the tick. -/
theorem Called.quiet {p' : Playback} {progress : Progress}
    (hstands : Stands p' (a.ticked now progress)) (hkeeps : Keeps p p') :
    Called p a p' [.ticked now progress] :=
  ⟨hstands, hkeeps, Nat.zero_le 1, fun _ _ hmem => nomatch List.mem_singleton.mp hmem⟩

/-- A tick leaves the playback where it should stand. -/
theorem Stands.tick (hplayable : p.definition.Playable) (h : Stands p a) (now : Nat)
    (registry : CommandRegistry κ) (executor : MacroExecutor σ κ) (s : σ) :
    ∃ p' log, p.call (.tick now registry executor s) = some (p', log) ∧ Called p a p' log := by
  have hcall : ∀ p' s' log, p.tick now registry executor.logged
      (s, [.ticked now (executor.progress s)]) = some (p', s', log) →
      p.call (.tick now registry executor s) = some (p', log) := by
    intro p' s' log htick
    rw [Playback.call, htick]
    rfl
  cases hactive : p.state.active with
  | false =>
    refine ⟨p, _, hcall p s _ (Playback.tick_inactive hactive), .quiet ?_ ⟨rfl, rfl, rfl⟩⟩
    rcases h with ⟨before, rest, hgoing⟩ | hended
    · exact hgoing.idle hactive _
    · exact .inr (hended.tick _).2
  | true =>
    obtain ⟨before, rest, hgoing⟩ := h.resolve_right fun hended =>
      nomatch hactive.symm.trans (@Ended.tick p a now hended (executor.progress s)).1
    cases hpending : p.pending with
    | some nextText =>
      obtain ⟨p', s', entry, hsettle, hsettles⟩ :=
        p.settle_spec now executor nextText s [.ticked now (executor.progress s)]
      have hquiet := hsettles.starts_eq
      refine ⟨p', [.ticked now (executor.progress s), entry], hcall p' s' _
        ((Playback.tick_pending hactive hpending).trans (congrArg some hsettle)),
        hgoing.answered hplayable hactive hpending _ hsettles, .settles hsettles, ?_, ?_⟩
      · rw [List.countP_cons_of_neg Bool.false_ne_true,
          List.countP_cons_of_neg (by rw [hquiet]; exact Bool.false_ne_true)]
        exact Nat.zero_le 1
      · intro action taken hmem
        rcases List.mem_cons.mp hmem with hticked | hmem
        · exact nomatch hticked
        · rw [← List.mem_singleton.mp hmem] at hquiet
          exact nomatch hquiet
    | none =>
      by_cases hdue : ∀ t, p.due = some t → t ≤ now
      · have hstartable : Startable p a now before rest := ⟨hgoing, hactive, hpending, hdue⟩
        have htick := @Playback.tick_due _ _ p now registry executor.logged
          (s, [.ticked now (executor.progress s)]) hactive hpending hdue
        by_cases heof : p.iterationStart = none ∧ p.mode = .untilEof ∧
            (executor.progress s).eof = true
        · exact ⟨_, _, hcall _ s _ (htick.trans (if_pos heof)),
            .quiet (hstartable.eof heof.2.1 heof.1 heof.2.2) ⟨rfl, rfl, rfl⟩⟩
        · obtain ⟨p', s', entries, hstart, hcalled⟩ :=
            hstartable.start hplayable registry executor s (executor.progress s)
          exact ⟨p', _, hcall p' s' _ ((htick.trans (if_neg heof)).trans hstart), hcalled⟩
      · obtain ⟨t, ht⟩ := not_forall.mp hdue
        obtain ⟨hsome, hlt⟩ := Classical.not_imp.mp ht
        exact ⟨_, _,
          hcall _ s _ (Playback.tick_early hactive hpending hsome (Nat.lt_of_not_le hlt)),
          .quiet (hgoing.early hactive hsome _ _) ⟨rfl, rfl, rfl⟩⟩

/-- A call without a tick. -/
theorem Called.still {p' : Playback} (hstands : Stands p' a) (hkeeps : Keeps p p') :
    Called p a p' [] :=
  ⟨hstands, hkeeps, Nat.zero_le 1, nofun⟩

theorem Going.resume (h : Going p a before rest) (hfailed : p.isFailed = true) :
    Going { p with state := .running, due := none } a before rest := by
  obtain ⟨hpending, hdue⟩ := h.failed hfailed
  refine ⟨h.congr rfl rfl rfl rfl rfl rfl, ?_, fun _ => h.began (.inr hfailed), ?_,
    (fun h => by cases h), (fun h => by cases h),
    fun hnone => (by cases hfailed.symm.trans (h.untouched hnone).2.1)⟩
  · have hawaits := h.awaits
    rw [Awaits, hpending] at hawaits
    rw [Awaits]
    dsimp only
    rw [hpending]
    exact hawaits
  · intro _ t ht
    have hstate : p.state ≠ .cancelled := by
      intro hcancelled
      rw [Playback.isFailed, hcancelled] at hfailed
      cases hfailed
    exact .inr ((h.due hstate t ht).resolve_left fun hsome => (by cases hdue.symm.trans hsome))

theorem Going.cancel (h : Going p a before rest) :
    Going { p with state := .cancelled, due := none } a before rest := by
  refine ⟨h.congr rfl rfl rfl rfl rfl rfl, ?_, fun hor => hor.elim nofun nofun,
    fun hne => absurd rfl hne, nofun, nofun, fun hnone => ?_⟩
  · have hawaits := h.awaits
    rw [Awaits] at hawaits ⊢
    dsimp only
    cases hpending : p.pending with
    | none => rwa [hpending] at hawaits
    | some nextText =>
      rw [hpending] at hawaits
      obtain ⟨paced, tail, hrest, hinflight, hbehind, -⟩ := hawaits
      exact ⟨paced, tail, hrest, hinflight, hbehind, rfl⟩
  · obtain ⟨hdone, -, -, hpending⟩ := h.untouched hnone
    exact ⟨hdone, rfl, rfl, hpending⟩

/-- Every call leaves the playback where it should stand. -/
theorem Stands.call (hplayable : p.definition.Playable) (h : Stands p a) (call : Call σ κ) :
    ∃ p' log, p.call call = some (p', log) ∧ Called p a p' log := by
  cases call with
  | tick now registry executor s => exact h.tick hplayable now registry executor s
  | resume =>
    refine ⟨_, _, rfl, .still ?_ ?_⟩ <;> rw [Playback.resume]
    · by_cases hresume : p.isFailed = true ∧ p.location.event < p.definition.events.length
      · rw [if_pos hresume]
        rcases h with ⟨before, rest, hgoing⟩ | hended
        · exact .inl ⟨before, rest, hgoing.resume hresume.1⟩
        · exact absurd hresume.2 (hended.event ▸ Nat.lt_irrefl _)
      · rw [if_neg hresume]
        exact h
    · split_ifs <;> exact ⟨rfl, rfl, rfl⟩
  | cancel =>
    refine ⟨_, _, rfl, .still ?_ ?_⟩ <;> rw [Playback.cancel]
    · by_cases hactive : p.state.active = true
      · rw [if_pos hactive]
        obtain ⟨before, rest, hgoing⟩ := h.resolve_right fun hended =>
          nomatch hactive.symm.trans (@Ended.tick p a 0 hended ⟨0, 0, 0, true⟩).1
        exact .inl ⟨before, rest, hgoing.cancel⟩
      · rw [if_neg hactive]
        exact h
    · split_ifs <;> exact ⟨rfl, rfl, rfl⟩

end Calls

/-! ## §2 Every run -/

/-- Every run leaves the playback where it should stand. -/
theorem Stands.run (hplayable : p.definition.Playable) (h : Stands p a)
    (calls : List (Call σ κ)) : ∃ p' log, p.run calls = some (p', log) ∧
      Stands p' (a.enterAll log) ∧ Keeps p p' := by
  induction calls generalizing p a with
  | nil => exact ⟨p, [], rfl, h, rfl, rfl, rfl⟩
  | cons call calls ih =>
    obtain ⟨q, log, hcall, hcalled⟩ := h.call hplayable call
    obtain ⟨p', rest, hrun, hstands, hkeeps⟩ :=
      ih (hcalled.keeps.definition ▸ hplayable) hcalled.stands
    refine ⟨p', log ++ rest, ?_, ?_, ?_⟩
    · rw [Playback.run, hcall, Option.bind_eq_bind, Option.bind_some]
      dsimp only
      rw [hrun]
      rfl
    · rw [Account.enterAll_append]
      exact hstands
    · exact ⟨hkeeps.definition.trans hcalled.keeps.definition,
        hkeeps.mode.trans hcalled.keeps.mode,
        hkeeps.maxIterations.trans hcalled.keeps.maxIterations⟩

/-- A new playback stands at the start of its first iteration. -/
theorem Playback.new_stands {m : Macro} {mode : Repeat} {maxIterations : Nat}
    {registry : CommandRegistry κ} (h : Playback.new m mode maxIterations registry = .ok p) :
    m.Playable ∧ p.definition = m ∧ p.mode = mode ∧ p.maxIterations = maxIterations ∧
      Stands p .fresh := by
  obtain ⟨_, hvalid, h⟩ := bind_ok.mp h
  obtain ⟨hevents, -, -, hplayable, -⟩ := Macro.validate_spec hvalid
  have hplays : m.Playable := ⟨hevents, fun event hevent => (hplayable event hevent).typed⟩
  by_cases hlimit : maxIterations = 0 ∨ mode = .times 0
  · rw [if_pos hlimit] at h
    exact nomatch h
  rw [if_neg hlimit] at h
  obtain ⟨hmax, hmode⟩ := not_or.mp hlimit
  have hstands : mode.allows maxIterations 0 → Stands
      ⟨m, mode, maxIterations, ⟨0, 0, 0⟩, .running, none, none, none⟩ .fresh := by
    intro hallowed
    refine .inl ⟨[], m.actions, ⟨⟨.start hplays.typed hevents 0, rfl, rfl, hallowed, ?_⟩, rfl, ?_,
      nofun, nofun, nofun, fun _ => ⟨rfl, rfl, rfl, rfl⟩⟩⟩
    · exact fun _ i hi => absurd hi (Nat.not_lt_zero i)
    · exact fun _ => rfl
  have hpos : 0 < maxIterations := Nat.pos_of_ne_zero hmax
  cases mode with
  | once =>
    obtain rfl := Except.ok.inj h
    exact ⟨hplays, rfl, rfl, rfl, hstands ⟨hpos, rfl⟩⟩
  | untilEof =>
    obtain rfl := Except.ok.inj h
    exact ⟨hplays, rfl, rfl, rfl, hstands ⟨hpos, trivial⟩⟩
  | times count =>
    dsimp only at h
    split_ifs at h with hcount
    obtain rfl := Except.ok.inj h
    refine ⟨hplays, rfl, rfl, rfl, hstands ⟨hpos, ?_, Nat.le_of_not_lt hcount⟩⟩
    exact Nat.pos_of_ne_zero fun hzero => hmode (by rw [hzero])

/-- How many iterations a mode stands for at most. -/
def Repeat.limit (mode : Repeat) (maxIterations : Nat) : Nat :=
  match mode with
  | .once => 1
  | .times count => count
  | .untilEof => maxIterations

theorem Repeat.allows.lt_limit {mode : Repeat} {maxIterations iteration : Nat}
    (h : mode.allows maxIterations iteration) : iteration < mode.limit maxIterations := by
  obtain ⟨hmax, hmode⟩ := h
  cases mode with
  | once => exact Nat.lt_succ_of_le (Nat.le_of_eq hmode)
  | times count => exact hmode.1
  | untilEof => exact hmax

theorem Macro.iterations_front (m : Macro) {i k : Nat} (h : i ≤ k) :
    m.iterations i <+: m.iterations k := by
  obtain ⟨n, rfl⟩ := Nat.exists_eq_add_of_le h
  rw [iterations, iterations, List.replicate_add, List.flatten_append]
  exact List.prefix_append _ _

/-- What the log of a run says of the playback it leaves. -/
structure Performs (m : Macro) (mode : Repeat) (maxIterations : Nat) (p : Playback)
    (a : Account) : Prop where
  /-- The actions that are done are the first of those that are meant. -/
  front : a.actions <+: m.iterations (mode.limit maxIterations)
  limit : p.location.iteration ≤ maxIterations ∧ p.location.iteration ≤ mode.limit maxIterations
  /-- The location names the next one. -/
  next : p.location.event < m.events.length → ∃ before rest, Names m p.location rest ∧
    m.actions = before ++ rest ∧
      a.actions = m.iterations p.location.iteration ++ before.map Paced.action
  complete : p.state = .complete → a.actions = m.iterations p.location.iteration ∧
    mode.isDone (a.boundary m p.location.iteration) p.location.iteration
  /-- An iteration that changes nothing is the last one. -/
  unchanged : mode = .untilEof → ∀ i < p.location.iteration,
    a.boundary m i = a.boundary m (i + 1) → i + 1 = p.location.iteration ∧
      p.location.event = m.events.length ∧ p.state.active = false ∧ p.resume.1 = false

theorem Going.performs {before rest : List Paced} (h : Going p a before rest) :
    Performs p.definition p.mode p.maxIterations p a := by
  have hlt := h.allowed.lt_limit
  refine ⟨?_, ⟨h.allowed.1.le, hlt.le⟩, fun _ => ⟨before, rest, h.named, h.split, h.done⟩, ?_, ?_⟩
  · have hone : a.actions <+: p.definition.iterations (p.location.iteration + 1) := by
      rw [h.done, Macro.iterations_succ, Macro.performed, h.split, List.map_append,
        ← List.append_assoc]
      exact List.prefix_append _ _
    exact hone.trans (p.definition.iterations_front hlt)
  · intro hcomplete
    obtain ⟨huntil, hzero, hbefore, -, heof⟩ := h.complete hcomplete
    have hdone := h.done
    rw [hbefore, List.map_nil, List.append_nil] at hdone
    rw [huntil, hzero]
    exact ⟨hzero ▸ hdone, heof⟩
  · exact fun huntil i hi hsame => absurd hsame (h.moved huntil i hi)

theorem Ended.performs (h : Ended p a) : Performs p.definition p.mode p.maxIterations p a := by
  obtain ⟨last, hlast, hallowed⟩ := h.allowed
  have hlt := hallowed.lt_limit
  have hmax := hallowed.1
  refine ⟨?_, ⟨by omega, by omega⟩, fun hevent => absurd hevent (h.event ▸ Nat.lt_irrefl _),
    fun hcomplete => ⟨h.done, ?_⟩, fun huntil i hi hsame => ?_⟩
  · rw [h.done, hlast]
    exact p.definition.iterations_front hlt
  · rcases h.state with ⟨-, hdone⟩ | ⟨hfailed, -⟩
    · exact hdone
    · rw [Playback.isFailed, hcomplete] at hfailed
      exact nomatch hfailed
  · have hend : i + 1 = p.location.iteration := by
      by_contra hne
      exact h.moved huntil i (by omega) hsame
    refine ⟨hend, h.event, (@Ended.tick p a 0 h ⟨0, 0, 0, true⟩).1, ?_⟩
    rw [Playback.resume, if_neg fun hresume => absurd hresume.2 (h.event ▸ Nat.lt_irrefl _)]

/-- A cancelled or complete playback starts nothing, whatever is called. -/
theorem Playback.run_over (hover : p.state = .cancelled ∨ p.state = .complete)
    (calls : List (Call σ κ)) :
    ∃ log, p.run calls = some (p, log) ∧ log.countP Entry.starts = 0 := by
  have hinactive : p.state.active = false := by
    rcases hover with hstate | hstate <;> rw [hstate] <;> rfl
  have hfailed : p.isFailed = false := by
    rcases hover with hstate | hstate <;> rw [isFailed, hstate]
  have hone : ∀ call : Call σ κ, ∃ log, p.call call = some (p, log) ∧
      log.countP Entry.starts = 0 := by
    intro call
    cases call with
    | tick now registry executor s =>
      refine ⟨[.ticked now (executor.progress s)], ?_, rfl⟩
      rw [Playback.call, tick_inactive hinactive]
      rfl
    | resume =>
      refine ⟨[], ?_, rfl⟩
      rw [Playback.call, resume, if_neg (by rw [hfailed]; exact fun h => nomatch h.1)]
    | cancel =>
      refine ⟨[], ?_, rfl⟩
      rw [Playback.call, cancel, if_neg (by rw [hinactive]; exact Bool.false_ne_true)]
  induction calls with
  | nil => exact ⟨[], rfl, rfl⟩
  | cons call calls ih =>
    obtain ⟨log, hcall, hlog⟩ := hone call
    obtain ⟨rest, hrun, hrest⟩ := ih
    refine ⟨log ++ rest, ?_, by rw [List.countP_append, hlog, hrest]⟩
    rw [run, hcall, Option.bind_eq_bind, Option.bind_some]
    dsimp only
    rw [hrun]
    rfl

/-- What a call may start: once at most, the action that the location names, and not before it is
due by a clock that does not go back. -/
structure Acts (m : Macro) (p : Playback) (a : Account) (entries : List Entry) : Prop where
  once : entries.countP Entry.starts ≤ 1
  next : ∀ action taken, .started action taken ∈ entries → ∃ paced rest,
    Names m p.location (paced :: rest) ∧ paced.action = action
  due : ∀ action taken, .started action taken ∈ entries → ∃ now progress,
    entries.head? = some (.ticked now progress) ∧
      ((∀ tick ∈ a.ticks, tick.1 ≤ now) → ∀ t, a.due m = some t → t ≤ now)

theorem Called.acts {p' : Playback} {entries : List Entry} (h : Called p a p' entries) :
    Acts p.definition p a entries := by
  refine ⟨h.once, fun action taken hmem => ?_, fun action taken hmem => ?_⟩
  · obtain ⟨now, progress, before, paced, tail, -, hstartable, haction⟩ := h.next action taken hmem
    exact ⟨paced, tail, hstartable.going.named, haction⟩
  · obtain ⟨now, progress, before, paced, tail, hhead, hstartable, -⟩ := h.next action taken hmem
    refine ⟨now, progress, hhead, fun hclock t ht => ?_⟩
    rcases hstartable.onTime ht with hle | ⟨tick, htick, hle⟩
    · exact hle
    · exact hle.trans (hclock tick htick)

/-- A playback performs the actions of its macro: in every run no call fails, the actions that are
done are the first of those meant, the location names the next one, each call starts that one at
most, when it is due, and nothing starts once the playback is cancelled or complete. -/
theorem playback_performs_macro {m : Macro} {mode : Repeat} {maxIterations : Nat}
    {registry : CommandRegistry κ} (h : Playback.new m mode maxIterations registry = .ok p)
    (calls : List (Call σ κ)) : ∃ q log, p.run calls = some (q, log) ∧
      Performs m mode maxIterations q (Account.fresh.enterAll log) ∧
      (∀ call : Call σ κ, ∃ q' entries, q.call call = some (q', entries) ∧
        Acts m q (Account.fresh.enterAll log) entries) ∧
      (q.state.active = true → q.cancel.state = .cancelled) ∧
      (q.state = .cancelled ∨ q.state = .complete → ∀ later : List (Call σ κ), ∃ rest,
        q.run later = some (q, rest) ∧ rest.countP Entry.starts = 0) := by
  obtain ⟨hplayable, rfl, rfl, rfl, hstands⟩ := Playback.new_stands h
  obtain ⟨q, log, hrun, hstands, hdefinition, hmode, hmax⟩ := hstands.run hplayable calls
  have hperforms : Performs q.definition q.mode q.maxIterations q (Account.fresh.enterAll log) := by
    rcases hstands with ⟨before, rest, hgoing⟩ | hended
    · exact hgoing.performs
    · exact hended.performs
  refine ⟨q, log, hrun, hdefinition ▸ hmode ▸ hmax ▸ hperforms, fun call => ?_, fun hactive => ?_,
    fun hover later => Playback.run_over hover later⟩
  · obtain ⟨q', entries, hcall, hcalled⟩ := hstands.call (hdefinition ▸ hplayable) call
    exact ⟨q', entries, hcall, hdefinition ▸ hcalled.acts⟩
  · rw [Playback.cancel, if_pos hactive]

/-! ## §3 A macro of one action -/

/-- A registry with one command. -/
def oneCommand : CommandRegistry Unit := ⟨[['a']], fun _ _ => .ok ()⟩

/-- An executor whose state says whether the next transaction fails. -/
def refusing : MacroExecutor Bool Unit where
  context _ := ()
  progress _ := ⟨0, 0, 0, false⟩
  pollExecution s := (.ok true, s)
  execute _ _ s := (if s then .error "Edit refused" else .ok (), s)

/-- A macro that runs the command once. -/
def oneAction : Macro := ⟨['m'], [.command ['a'] .empty]⟩

/-- The playback of that macro, before the first tick. -/
def oneAction.playback : Playback := ⟨oneAction, .once, 1, ⟨0, 0, 0⟩, .running, none, none, none⟩

/-- A macro of one action, played once. -/
theorem playback_performs_one_action : ∃ q log,
    oneAction.playback.run [Call.tick 0 oneCommand refusing false] = some (q, log) ∧
      Performs oneAction .once 1 q (Account.fresh.enterAll log) ∧ q.state = .complete := by
  have hnew : Playback.new oneAction .once 1 oneCommand = .ok oneAction.playback := by
    decide +kernel
  obtain ⟨q, log, hrun, hperforms, -⟩ :=
    playback_performs_macro hnew [Call.tick 0 oneCommand refusing false]
  refine ⟨q, log, hrun, hperforms, ?_⟩
  have hstate : (oneAction.playback.run [Call.tick 0 oneCommand refusing false]).map
      (fun result => result.1.state) = some .complete := by decide +kernel
  rw [hrun] at hstate
  exact Option.some.inj hstate

/-- A failed playback that is cancelled can still be resumed, and then starts its action. -/
theorem cancelled_after_failure_starts :
    Playback.new oneAction .once 1 oneCommand = .ok oneAction.playback ∧
      ∃ q log rest, oneAction.playback.run
          [Call.tick 0 oneCommand refusing true, .cancel] = some (q, log) ∧
        (q.run [Call.resume, .tick 1 oneCommand refusing false]).map Prod.snd = some rest ∧
        rest.countP Entry.starts = 1 := by
  refine ⟨by decide +kernel, ⟨oneAction, .once, 1, ⟨0, 0, 0⟩, .failed ⟨0, 0, 0⟩ "Edit refused",
    some ⟨0, 0, 0, false⟩, none, none⟩, [.ticked 0 ⟨0, 0, 0, false⟩,
      .started ⟨['a'], .empty⟩ false], [.ticked 1 ⟨0, 0, 0, false⟩, .started ⟨['a'], .empty⟩ true,
      .polled (some true) ⟨0, 0, 0, false⟩], by decide +kernel, by decide +kernel, by decide⟩

end BareLine.Macros
