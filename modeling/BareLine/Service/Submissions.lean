import BareLine.Service.Mailbox

/-!
# Submissions and retirement

Everything that happens to the scheduler from outside its workers keeps the invariant, so
every world of a scheduler accounts for its work.
-/

namespace BareLine.Service

open Lib

section World

variable {config : Config} {w w' : World} {i : Nat}

/-! ## §1 Workers -/

/-- Some sleeping workers are woken, and new ones may come. -/
structure Roused (w : World) (workers : Nat → Worker) (started : Nat) : Prop where
  grows : w.started ≤ started
  old : ∀ i < w.started, workers i = w.workers i ∨ w.workers i = .waiting ∧ workers i = .woken
  new : ∀ i, w.started ≤ i → i < started → workers i = .awake

theorem Roused.tally {workers : Nat → Worker} {started : Nat} (h : Roused w workers started)
    {M : Type} [AddCommMonoid M] {f : Worker → M} (hf : Quiet f) :
    tally started f workers = tally w.started f w.workers := by
  rw [Lib.tally, Lib.tally, ← Finset.sum_subset (Finset.range_mono h.grows)]
  · apply Finset.sum_congr rfl
    intro i hi
    rcases h.old i (Finset.mem_range.mp hi) with hsame | ⟨hwaiting, hwoken⟩
    · rw [hsame]
    · rw [hwoken, hwaiting, hf.woken, hf.waiting]
  · intro i hi hold
    rw [h.new i (by simpa using hold) (Finset.mem_range.mp hi), hf.awake]

/-- Where a roused worker stands, unless it was roused now. -/
theorem Roused.was {workers : Nat → Worker} {started i : Nat} (h : Roused w workers started)
    (hi : i < started) : i < w.started ∧ workers i = w.workers i ∨
      workers i = .awake ∨ workers i = .woken := by
  rcases Nat.lt_or_ge i w.started with hold | hnew
  · rcases h.old i hold with hsame | ⟨-, hwoken⟩
    · exact Or.inl ⟨hold, hsame⟩
    · exact Or.inr (Or.inr hwoken)
  · exact Or.inr (Or.inl (h.new i hnew hi))

theorem Accounted.rouse (h : Accounted config w) {workers : Nat → Worker} {started : Nat}
    (hroused : Roused w workers started) : Accounted config { w with workers, started } := by
  have hholds : ∀ a i, i < started ∧ a ∈ (workers i).holds ↔
      i < w.started ∧ a ∈ (w.workers i).holds := by
    intro a i
    constructor
    · rintro ⟨hi, ha⟩
      rcases hroused.was hi with ⟨hold, hsame⟩ | hawake | hwoken
      · exact ⟨hold, hsame ▸ ha⟩
      · rw [hawake] at ha
        cases ha
      · rw [hwoken] at ha
        cases ha
    · rintro ⟨hi, ha⟩
      refine ⟨Nat.lt_of_lt_of_le hi hroused.grows, ?_⟩
      rcases hroused.old i hi with hsame | ⟨hwaiting, -⟩
      · rwa [hsame]
      · rw [hwaiting] at ha
        cases ha
  constructor
  case admitted => exact h.admitted.trans (by rw [hroused.tally Quiet.slots])
  case capacity => exact h.capacity
  case scheduled =>
    intro a
    rw [hroused.tally (Quiet.serves a)]
    exact h.scheduled a
  case pending => exact h.pending
  case retired => exact h.retired
  case fresh => exact h.fresh
  case order =>
    intro a
    have hrunning : World.running { w with workers, started } a = w.running a := by
      simp only [World.running, World.holder]
      cases hholder : (w.shared.cells a).holder with
      | none => rfl
      | some i =>
        obtain ⟨hi, ha⟩ := (h.holder a i).mp hholder
        show (workers i).running a = (w.workers i).running a
        rcases hroused.old i hi with hsame | ⟨hwaiting, -⟩
        · rw [hsame]
        · rw [hwaiting] at ha
          cases ha
    rw [hrunning]
    exact h.order a
  case replies =>
    intro a
    rw [hroused.tally (Quiet.owes a)]
    exact h.replies a
  case groups => exact h.groups.trans (by rw [hroused.tally Quiet.groups])
  case groupReplies => exact h.groupReplies.trans (by rw [hroused.tally Quiet.groupOwes])
  case tickets => exact h.tickets
  case groupTickets => exact h.groupTickets
  case holder => exact fun a i => (h.holder a i).trans (hholds a i).symm
  case ordered =>
    intro i hi request locked rest hlocking
    rcases hroused.was hi with ⟨hold, hsame⟩ | hawake | hwoken
    · exact h.ordered i hold request locked rest (hsame ▸ hlocking)
    · cases hawake.symm.trans hlocking
    · cases hwoken.symm.trans hlocking
  case distinct => exact h.distinct
  case exited =>
    intro i hi hexited
    rcases hroused.was hi with ⟨hold, hsame⟩ | hawake | hwoken
    · exact h.exited i hold (hsame ▸ hexited)
    · cases hawake.symm.trans hexited
    · cases hwoken.symm.trans hexited
  case attended =>
    intro hne
    obtain ⟨i, hi, hactive⟩ := h.attended hne
    refine ⟨i, Nat.lt_of_lt_of_le hi hroused.grows, ?_⟩
    dsimp only
    rcases hroused.old i hi with hsame | ⟨hwaiting, -⟩
    · rwa [hsame]
    · rw [hwaiting] at hactive
      cases hactive

variable (config) in
theorem roused_ensureWorker (w : World) (spawned : Bool) :
    Roused w (w.ensureWorker config spawned).workers (w.ensureWorker config spawned).started ∧
      (w.ensureWorker config spawned).shared = w.shared ∧
      (w.ensureWorker config spawned).documents = w.documents := by
  rw [World.ensureWorker]
  split
  · refine ⟨⟨Nat.le_succ _, fun i hi => ?_, fun i hold hnew => ?_⟩, rfl, rfl⟩
    · exact Or.inl (Function.update_of_ne (Nat.ne_of_lt hi) ..)
    · dsimp only at hnew ⊢
      rw [show i = w.started by omega, Function.update_self]
  · exact ⟨⟨Nat.le_refl _, fun _ _ => Or.inl rfl, fun i hold hnew => by omega⟩, rfl, rfl⟩

theorem Accounted.ensureWorker (h : Accounted config w) (spawned : Bool) :
    Accounted config (w.ensureWorker config spawned) := by
  obtain ⟨hroused, hshared, hdocuments⟩ := roused_ensureWorker config w spawned
  have hworld := h.rouse hroused
  rwa [show { w with
      workers := (w.ensureWorker config spawned).workers,
      started := (w.ensureWorker config spawned).started } = w.ensureWorker config spawned by
    rw [← hshared, ← hdocuments]] at hworld

/-- One sleeping worker is woken, if any sleeps. -/
theorem notifyOne_cases (w : World) (choice : Nat) :
    (∃ i < w.started, w.workers i = .waiting ∧
      w.notifyOne choice = { w with workers := Function.update w.workers i .woken }) ∨
    (∀ i < w.started, w.workers i ≠ .waiting) ∧ w.notifyOne choice = w := by
  rw [World.notifyOne]
  split
  · next i hfind =>
    have hi := List.find?_some hfind
    rw [Bool.and_eq_true, decide_eq_true_eq, decide_eq_true_eq] at hi
    exact Or.inl ⟨i, hi.1, hi.2, rfl⟩
  · next hfind =>
    rw [List.find?_eq_none] at hfind
    refine Or.inr ⟨fun i hi hwaiting => ?_, rfl⟩
    exact hfind i (List.mem_cons_of_mem _ (List.mem_range.mpr hi)) (by simp [hi, hwaiting])

theorem roused_notifyOne (w : World) (choice : Nat) :
    Roused w (w.notifyOne choice).workers w.started := by
  rcases notifyOne_cases w choice with ⟨i, hi, hwaiting, heq⟩ | ⟨-, heq⟩
  · rw [heq]
    refine ⟨Nat.le_refl _, fun j hj => ?_, fun j hold hnew => by omega⟩
    by_cases hij : j = i
    · subst hij
      exact Or.inr ⟨hwaiting, Function.update_self ..⟩
    · exact Or.inl (Function.update_of_ne hij ..)
  · rw [heq]
    exact ⟨Nat.le_refl _, fun _ _ => Or.inl rfl, fun j hold hnew => by omega⟩

/-- While nobody has left, a notification finds a worker that will look at the queue. -/
theorem notifyOne_active (hstarted : 0 < w.started)
    (hstay : ∀ i < w.started, w.workers i ≠ .exited) (choice : Nat) :
    ∃ i < w.started, ((w.notifyOne choice).workers i).active = true := by
  rcases notifyOne_cases w choice with ⟨i, hi, -, heq⟩ | ⟨hawake, heq⟩
  · refine ⟨i, hi, ?_⟩
    rw [heq]
    dsimp only
    rw [Function.update_self]
    rfl
  · refine ⟨0, hstarted, ?_⟩
    rw [heq]
    have hno := hawake 0 hstarted
    have hin := hstay 0 hstarted
    cases hx : w.workers 0 <;> first | rfl | exact absurd hx hno | exact absurd hx hin

/-! ## §2 Submissions -/

/-- A change of the shared state by somebody who is no worker: `extra` work is queued, and a
mailbox perhaps gets `new` requests. -/
structure Submission (w : World) (s' : Shared) (extra : List Work) : Prop where
  queue : s'.ready.queue = w.shared.ready.queue ++ extra
  admitted : s'.ready.admitted = w.shared.ready.admitted + extra.length
  closed : w.shared.ready.closed = true → s'.ready.closed = true ∧ extra = []
  holder : ∀ a, (s'.cells a).holder = (w.shared.cells a).holder
  executed : s'.trace.executed = w.shared.trace.executed
  completed : s'.trace.completed = w.shared.trace.completed
  groupsRun : s'.trace.groupsRun = w.shared.trace.groupsRun
  groupsCompleted : s'.trace.groupsCompleted = w.shared.trace.groupsCompleted
  issued : w.shared.trace.issued ≤ s'.trace.issued
  /-- A document is queued as its flag goes up. -/
  scheduled : ∀ a, (if (s'.cells a).mailbox.scheduled then 1 else 0) =
    (if (w.mailbox a).scheduled then 1 else 0) + extra.count (.actor a)
  requests : ∀ a, ∃ new : List Ticket, s'.trace.submitted a = w.shared.trace.submitted a ++ new ∧
    (s'.cells a).mailbox.queue = (w.mailbox a).queue ++ new ∧ new.Pairwise (· < ·) ∧
    (∀ ticket ∈ new, w.shared.trace.issued ≤ ticket ∧ ticket < s'.trace.issued) ∧
    (new ≠ [] → (s'.cells a).mailbox.scheduled = true)
  groups : ∃ new : List Ticket, s'.trace.groupsSubmitted = w.shared.trace.groupsSubmitted ++ new ∧
    queuedGroups extra = (new : Multiset Ticket) ∧ new.Pairwise (· < ·) ∧
    ∀ ticket ∈ new, w.shared.trace.issued ≤ ticket ∧ ticket < s'.trace.issued
  distinct : ∀ request, .group request ∈ extra → request.members.Nodup

/-- Later tickets behind earlier ones. -/
theorem tickets_append {old new : List Ticket} {issued issued' : Nat}
    (hold : old.Pairwise (· < ·) ∧ ∀ ticket ∈ old, ticket < issued) (hle : issued ≤ issued')
    (hnew : new.Pairwise (· < ·))
    (hrange : ∀ ticket ∈ new, issued ≤ ticket ∧ ticket < issued') :
    (old ++ new).Pairwise (· < ·) ∧ ∀ ticket ∈ old ++ new, ticket < issued' := by
  refine ⟨List.pairwise_append.mpr ⟨hold.1, hnew, fun a ha b hb => ?_⟩, fun ticket hmem => ?_⟩
  · exact Nat.lt_of_lt_of_le (hold.2 a ha) (hrange b hb).1
  · rcases List.mem_append.mp hmem with hmem | hmem
    · exact Nat.lt_of_lt_of_le (hold.2 ticket hmem) hle
    · exact (hrange ticket hmem).2

theorem Accounted.submission {s' : Shared} {extra : List Work} (h : Accounted config w)
    (hs : Submission w s' extra) (hcapacity : s'.ready.admitted ≤ config.capacity)
    (hretired : ∀ a, (s'.cells a).mailbox.retired = true →
      (s'.cells a).mailbox.scheduled = false)
    (hfresh : ∀ a, w.documents ≤ a → (s'.cells a).mailbox.scheduled = false)
    (hattended : extra ≠ [] → ∃ i < w.started, (w.workers i).active = true) :
    Accounted config { w with shared := s' } := by
  constructor
  case admitted =>
    have hold := h.admitted
    have hqueue := hs.queue
    have hadmitted := hs.admitted
    dsimp only
    rw [hqueue, List.length_append]
    omega
  case capacity => exact hcapacity
  case scheduled =>
    intro a
    have hold := h.scheduled a
    have hflag := hs.scheduled a
    show s'.ready.queue.count (.actor a) + tally w.started (Worker.serves a) w.workers =
      if (s'.cells a).mailbox.scheduled then 1 else 0
    rw [hs.queue, List.count_append]
    omega
  case pending =>
    intro a hne
    obtain ⟨new, -, hqueue, -, -, hnew⟩ := hs.requests a
    have hflag := hs.scheduled a
    by_cases hnil : new = []
    · rw [hnil, List.append_nil] at hqueue
      have hold := h.pending a (hqueue ▸ hne)
      rw [hold, if_pos rfl] at hflag
      by_contra hno
      have hno : ¬ (s'.cells a).mailbox.scheduled = true := hno
      rw [if_neg hno] at hflag
      omega
    · exact hnew hnil
  case retired => exact hretired
  case fresh => exact hfresh
  case order =>
    intro a
    obtain ⟨new, hsubmitted, hqueue, -⟩ := hs.requests a
    have hrunning : World.running { w with shared := s' } a = w.running a := by
      simp only [World.running, World.holder, hs.holder a]
    show s'.trace.submitted a = s'.trace.executed a ++ _ ++ (s'.cells a).mailbox.queue
    rw [hsubmitted, hrunning, hqueue, hs.executed, h.order a, List.append_assoc]
  case replies =>
    intro a
    show (s'.trace.executed a : Multiset Ticket) = s'.trace.completed a + _
    rw [hs.executed, hs.completed]
    exact h.replies a
  case groups =>
    obtain ⟨new, hsubmitted, hqueued, -⟩ := hs.groups
    show (s'.trace.groupsSubmitted : Multiset Ticket) =
      s'.trace.groupsRun + queuedGroups s'.ready.queue + tally w.started Worker.groups w.workers
    rw [hsubmitted, hs.groupsRun, hs.queue, queuedGroups_append, hqueued, ← Multiset.coe_add,
      h.groups]
    abel
  case groupReplies =>
    show (s'.trace.groupsRun : Multiset Ticket) = s'.trace.groupsCompleted + _
    rw [hs.groupsRun, hs.groupsCompleted]
    exact h.groupReplies
  case tickets =>
    intro a
    obtain ⟨new, hsubmitted, -, hnew, hrange, -⟩ := hs.requests a
    dsimp only
    rw [hsubmitted]
    exact tickets_append (h.tickets a) hs.issued hnew hrange
  case groupTickets =>
    obtain ⟨new, hsubmitted, -, hnew, hrange⟩ := hs.groups
    dsimp only
    rw [hsubmitted]
    exact tickets_append h.groupTickets hs.issued hnew hrange
  case holder =>
    intro a i
    rw [show World.holder { w with shared := s' } a = w.holder a from hs.holder a]
    exact h.holder a i
  case ordered => exact h.ordered
  case distinct =>
    intro request hmem
    rw [hs.queue] at hmem
    rcases List.mem_append.mp hmem with hmem | hmem
    · exact h.distinct request hmem
    · exact hs.distinct request hmem
  case exited =>
    intro i hi hexited
    obtain ⟨hclosed, hzero⟩ := h.exited i hi hexited
    obtain ⟨hclosed', rfl⟩ := hs.closed hclosed
    exact ⟨hclosed', hs.admitted.trans hzero⟩
  case attended =>
    intro hne
    dsimp only at hne
    rw [hs.queue] at hne
    by_cases hextra : extra = []
    · rw [hextra, List.append_nil] at hne
      exact h.attended hne
    · exact hattended hextra

/-- The shared state with one more piece of work admitted. -/
def pushed (s : Shared) (work : Work) : Shared :=
  { s with ready := { s.ready with
      admitted := s.ready.admitted + 1, queue := s.ready.queue ++ [work] } }

theorem push_eq (w : World) (s' : Shared) (work : Work) (choice : Nat) :
    World.push { w with shared := s' } work choice =
      { w with shared := pushed s' work, workers := (w.notifyOne choice).workers } := by
  rw [World.push, World.notifyOne, World.notifyOne]
  dsimp only
  cases hfind : (choice :: List.range w.started).find? fun i =>
      decide (i < w.started) && decide (w.workers i = .waiting) <;> rfl

/-- Admitting work: a mailbox may change with it, and somebody is notified. -/
theorem Accounted.push {s' : Shared} {work : Work} (h : Accounted config w) (choice : Nat)
    (hs : Submission w (pushed s' work) [work]) (hstarted : w.started ≠ 0)
    (hopen : w.shared.ready.closed = false)
    (hcapacity : w.shared.ready.admitted < config.capacity)
    (hretired : ∀ a, (s'.cells a).mailbox.retired = true → (s'.cells a).mailbox.scheduled = false)
    (hfresh : ∀ a, w.documents ≤ a → (s'.cells a).mailbox.scheduled = false) :
    Accounted config (World.push { w with shared := s' } work choice) := by
  have hstay : ∀ i < w.started, w.workers i ≠ .exited := by
    intro i hi hexited
    have hclosed := (h.exited i hi hexited).1
    rw [hopen] at hclosed
    cases hclosed
  have hroused := h.rouse (roused_notifyOne w choice)
  have hs' : Submission { w with workers := (w.notifyOne choice).workers } (pushed s' work)
      [work] := { hs with }
  rw [push_eq]
  refine hroused.submission hs' ?_ hretired hfresh fun _ =>
    notifyOne_active (Nat.pos_of_ne_zero hstarted) hstay choice
  rw [hs.admitted]
  exact hcapacity

/-! ## §3 Operations -/

/-- No document of another number is touched. -/
theorem setCell_cells (s : Shared) (a b : Nat) (cell : ActorCell) :
    (s.setCell a cell).cells b = if b = a then cell else s.cells b := by
  by_cases h : b = a
  · subst h
    rw [if_pos rfl, Shared.setCell_self]
  · rw [if_neg h, Shared.setCell_ne _ _ h]

theorem setCell_setMailbox (s : Shared) (a : Nat) (cell : ActorCell) (mailbox : Mailbox) :
    (s.setCell a cell).setMailbox a mailbox = s.setCell a { cell with mailbox } := by
  simp only [Shared.setMailbox, Shared.setCell_self]
  simp only [Shared.setCell, Function.update_idem]

/-- Settings of an actor change, and nothing else. -/
theorem Submission.settings (w : World) {a : Nat} {cell : ActorCell}
    (hholder : cell.holder = w.holder a) (hqueue : cell.mailbox.queue = (w.mailbox a).queue)
    (hscheduled : cell.mailbox.scheduled = (w.mailbox a).scheduled) :
    Submission w (w.shared.setCell a cell) [] := by
  refine ⟨(List.append_nil _).symm, rfl, fun hclosed => ⟨hclosed, rfl⟩, fun b => ?_, rfl, rfl,
    rfl, rfl, Nat.le_refl _, fun b => ?_, fun b => ⟨[], (List.append_nil _).symm, ?_, .nil,
      (fun _ h => nomatch h), fun h => absurd rfl h⟩,
    ⟨[], (List.append_nil _).symm, rfl, .nil, fun _ h => nomatch h⟩, fun _ h => nomatch h⟩
  all_goals
    rw [setCell_cells]
    split
  · next hb => rw [hholder, hb]; rfl
  · rfl
  · next hb => rw [hscheduled, hb]; rfl
  · rfl
  · next hb => rw [hqueue, hb, List.append_nil]
  · exact (List.append_nil _).symm

theorem Accounted.settings (h : Accounted config w) {a : Nat} {cell : ActorCell}
    (hholder : cell.holder = w.holder a) (hqueue : cell.mailbox.queue = (w.mailbox a).queue)
    (hscheduled : cell.mailbox.scheduled = (w.mailbox a).scheduled)
    (hretired : cell.mailbox.retired = true → cell.mailbox.scheduled = false) :
    Accounted config { w with shared := w.shared.setCell a cell } := by
  refine h.submission (.settings w hholder hqueue hscheduled) h.capacity (fun b hb => ?_)
    (fun b hb => ?_) fun hne => absurd rfl hne
  · rw [setCell_cells] at hb ⊢
    split at hb
    · next heq =>
      rw [if_pos heq]
      exact hretired hb
    · next hne =>
      rw [if_neg hne]
      exact h.retired b hb
  · rw [setCell_cells]
    split
    · next heq =>
      subst heq
      exact hscheduled.trans (h.fresh b hb)
    · exact h.fresh b hb

variable (config) in
/-- `submit` refuses and changes nothing, or admits the work to a queue with workers. -/
theorem submitWork_cases (w : World) (work : Work) (spawned : Bool) (choice : Nat) :
    (∃ error w', w.submitWork config work spawned choice = (.error error, w') ∧
      (w' = w ∨ w' = w.ensureWorker config spawned)) ∨
    w.submitWork config work spawned choice =
        (.ok (), (w.ensureWorker config spawned).push work choice) ∧
      w.shared.ready.closed = false ∧ w.shared.ready.admitted < config.capacity ∧
      (w.ensureWorker config spawned).started ≠ 0 := by
  rw [World.submitWork]
  split
  · exact Or.inl ⟨_, _, rfl, Or.inl rfl⟩
  next hclosed =>
  split
  · exact Or.inl ⟨_, _, rfl, Or.inl rfl⟩
  next hroom =>
  dsimp only
  split
  · exact Or.inl ⟨_, _, rfl, Or.inr rfl⟩
  · next hstarted =>
    exact Or.inr ⟨rfl, by simpa using hclosed, Nat.lt_of_not_le hroom, hstarted⟩

/-- The shared state with newly admitted groups in its trace. -/
def noted (s : Shared) (issued : Nat) (new : List Ticket) : Shared :=
  { s with trace := { s.trace with
      issued, groupsSubmitted := s.trace.groupsSubmitted ++ new } }

theorem noted_none (s : Shared) : noted s s.trace.issued [] = s := by
  rw [noted, List.append_nil]

/-- Work that belongs to no mailbox, with the trace of its admission. -/
theorem Submission.unbound (w : World) {work : Work} (issued : Nat) (new : List Ticket)
    (hactor : ∀ a, work ≠ .actor a)
    (hdistinct : ∀ request, work = .group request → request.members.Nodup)
    (hopen : w.shared.ready.closed = false) (hissued : w.shared.trace.issued ≤ issued)
    (hgroups : queuedGroups [work] = (new : Multiset Ticket)) (hnew : new.Pairwise (· < ·))
    (hrange : ∀ ticket ∈ new, w.shared.trace.issued ≤ ticket ∧ ticket < issued) :
    Submission w (pushed (noted w.shared issued new) work) [work] := by
  refine ⟨rfl, rfl, fun hclosed => ?_, fun _ => rfl, rfl, rfl, rfl, rfl, hissued, fun a => ?_,
    fun a => ⟨[], (List.append_nil _).symm, (List.append_nil _).symm, .nil,
      (fun _ h => nomatch h), fun h => absurd rfl h⟩, ⟨new, rfl, hgroups, hnew, hrange⟩, ?_⟩
  · rw [hopen] at hclosed
    cases hclosed
  · have hcount : [work].count (.actor a) = 0 := by
      rw [List.count_eq_zero, List.mem_singleton]
      exact fun heq => hactor a heq.symm
    rw [hcount]
    rfl
  · intro request hmem
    exact hdistinct request (List.mem_singleton.mp hmem).symm

/-- Admitting work that belongs to no mailbox. -/
theorem Accounted.admitted_unbound (h : Accounted config w) (work : Work) (spawned : Bool)
    (choice : Nat) (issued : Nat) (new : List Ticket) (hactor : ∀ a, work ≠ .actor a)
    (hdistinct : ∀ request, work = .group request → request.members.Nodup)
    (hissued : w.shared.trace.issued ≤ issued)
    (hgroups : queuedGroups [work] = (new : Multiset Ticket)) (hnew : new.Pairwise (· < ·))
    (hrange : ∀ ticket ∈ new, w.shared.trace.issued ≤ ticket ∧ ticket < issued) :
    ∃ result w', w.submitWork config work spawned choice = (result, w') ∧
      w'.shared.cells = w.shared.cells ∧ w'.shared.trace = w.shared.trace ∧
      match result with
      | .ok () => Accounted config { w' with shared := noted w'.shared issued new }
      | .error _ => Accounted config w' := by
  obtain ⟨-, hshared, -⟩ := roused_ensureWorker config w spawned
  have hensured := h.ensureWorker spawned
  rcases submitWork_cases config w work spawned choice with
    ⟨error, w', heq, rfl | rfl⟩ | ⟨heq, hopen, hcapacity, hstarted⟩
  · exact ⟨_, _, heq, rfl, rfl, h⟩
  · exact ⟨_, _, heq, by rw [hshared], by rw [hshared], hensured⟩
  · refine ⟨_, _, heq, ?_⟩
    generalize w.ensureWorker config spawned = v at *
    rw [show v.push work choice = _ from push_eq v v.shared work choice]
    rw [← hshared] at hopen hcapacity hissued hrange ⊢
    refine ⟨rfl, rfl, ?_⟩
    have hpush := hensured.push choice
      (Submission.unbound v issued new hactor hdistinct hopen hissued hgroups hnew hrange)
      hstarted hopen hcapacity hensured.retired hensured.fresh
    rwa [push_eq] at hpush

theorem Accounted.submitGroup (h : Accounted config w) (members : List Nat) (spawned : Bool)
    (choice : Nat) : Accounted config (w.submitGroup config members spawned choice).2 := by
  rw [World.submitGroup]
  split
  · exact h
  next hmembers =>
  have hnodup : members.Nodup := by
    by_contra hno
    exact hmembers (Or.inr (Or.inr (Or.inl hno)))
  dsimp only
  obtain ⟨result, w', heq, -, htrace, hresult⟩ := h.admitted_unbound
    (.group ⟨w.shared.trace.issued, members⟩) spawned choice
    (w.shared.trace.issued + 1) [w.shared.trace.issued] (fun _ => by simp)
    (by rintro _ ⟨⟩; exact hnodup) (Nat.le_succ _) rfl (List.pairwise_singleton _ _) (by simp)
  rw [heq]
  cases result with
  | error e => exact hresult
  | ok u => exact hresult

theorem Accounted.configureHistoryLimit (h : Accounted config w) (a maxChanges : Nat)
    (small spawned : Bool) (choice : Nat) :
    Accounted config (w.configureHistoryLimit config a maxChanges small spawned choice).2 := by
  rw [World.configureHistoryLimit]
  dsimp only
  split
  · exact h
  next hretired =>
  split
  · exact h
  have hretired : (w.mailbox a).retired = true → (w.mailbox a).scheduled = false := h.retired a
  split
  · rw [setCell_setMailbox]
    exact h.settings rfl rfl rfl hretired
  · obtain ⟨result, w', heq, hcells, htrace, hresult⟩ := h.admitted_unbound
      (.historyPolicy a maxChanges) spawned choice w.shared.trace.issued []
      (fun _ => by simp) (by rintro _ ⟨⟩) (Nat.le_refl _) rfl .nil (fun _ h => nomatch h)
    rw [heq]
    cases result with
    | error e => exact hresult
    | ok u =>
      dsimp only at hresult ⊢
      rw [← htrace, noted_none] at hresult
      rw [← hcells]
      exact hresult.settings rfl rfl rfl (hresult.retired a)

theorem Accounted.migrateSpill (h : Accounted config w) (a : Nat) (attached : Bool) :
    Accounted config (w.migrateSpill a attached).2 := by
  rw [World.migrateSpill]
  dsimp only
  split
  · exact h
  next hidle =>
  split
  · exact h
  · refine h.settings rfl rfl rfl fun _ => ?_
    by_contra hscheduled
    exact hidle (Or.inr (Or.inr (Or.inl (by simpa using hscheduled))))

theorem Accounted.cancelCleanSpill (h : Accounted config w) (a : Nat) :
    Accounted config (w.cancelCleanSpill a).2 := by
  rw [World.cancelCleanSpill]
  dsimp only
  split
  · exact h
  · exact h.settings rfl rfl rfl fun hretired => nomatch hretired

theorem Accounted.close (h : Accounted config w) : Accounted config w.close := by
  have hroused : Roused w (fun i => (w.workers i).notified) w.started := by
    refine ⟨Nat.le_refl _, fun i _ => ?_, fun i hold hnew => by omega⟩
    cases hx : w.workers i with
    | waiting => exact Or.inr ⟨rfl, rfl⟩
    | _ => exact Or.inl rfl
  have hs : Submission { w with workers := fun i => (w.workers i).notified }
      { w.shared with ready := { w.shared.ready with closed := true } } [] :=
    ⟨(List.append_nil _).symm, rfl, fun _ => ⟨rfl, rfl⟩, fun _ => rfl, rfl, rfl, rfl, rfl,
      Nat.le_refl _, fun _ => rfl, fun _ => ⟨[], (List.append_nil _).symm,
        (List.append_nil _).symm, .nil, (fun _ h => nomatch h), fun h => absurd rfl h⟩,
      ⟨[], (List.append_nil _).symm, rfl, .nil, fun _ h => nomatch h⟩, fun _ h => nomatch h⟩
  exact (h.rouse hroused).submission hs h.capacity h.retired h.fresh fun hne => absurd rfl hne

/-- The shared state with the next ticket in the mailbox of `a`. -/
def requested (s : Shared) (a : Nat) : Shared :=
  let mailbox := (s.cells a).mailbox
  let shared := s.setMailbox a
    { mailbox with queue := mailbox.queue ++ [s.trace.issued], scheduled := true }
  { shared with trace := { s.trace with
      issued := s.trace.issued + 1
      submitted := Shared.logged s.trace.submitted a s.trace.issued } }

/-- A request that raises the flag of its document brings the document with it. -/
theorem Submission.request (w : World) (a : Nat) {s' : Shared} {extra : List Work}
    (hcells : s'.cells = (requested w.shared a).cells)
    (htrace : s'.trace = (requested w.shared a).trace)
    (hqueue : s'.ready.queue = w.shared.ready.queue ++ extra)
    (hadmitted : s'.ready.admitted = w.shared.ready.admitted + extra.length)
    (hopen : w.shared.ready.closed = false)
    (hextra : extra = if (w.mailbox a).scheduled then [] else [.actor a]) :
    Submission w s' extra := by
  have hmailbox (b : Nat) : (s'.cells b).mailbox = if b = a then
      { w.mailbox a with
        queue := (w.mailbox a).queue ++ [w.shared.trace.issued], scheduled := true }
      else w.mailbox b := by
    rw [hcells, requested]
    show ((w.shared.setMailbox a _).cells b).mailbox = _
    rw [Shared.setMailbox, setCell_cells]
    split <;> rfl
  refine ⟨hqueue, hadmitted, fun hclosed => ?_, fun b => ?_, ?_, ?_, ?_, ?_, ?_, fun b => ?_,
    fun b => ?_, ⟨[], ?_, ?_, .nil, fun _ h => (by cases h)⟩, fun request hmem => ?_⟩
  · rw [hopen] at hclosed
    cases hclosed
  · rw [hcells]
    exact Shared.setMailbox_holder ..
  · rw [htrace]; rfl
  · rw [htrace]; rfl
  · rw [htrace]; rfl
  · rw [htrace]; rfl
  · rw [htrace]
    exact Nat.le_succ _
  · rw [hmailbox, hextra]
    by_cases hb : b = a
    · subst hb
      cases hscheduled : (w.mailbox b).scheduled <;> simp
    · have hcount : (if (w.mailbox a).scheduled then [] else [Work.actor a]).count (.actor b) =
          0 := by
        split
        · rfl
        · simp [Ne.symm hb]
      rw [if_neg hb, hcount, Nat.add_zero]
  · rw [hmailbox]
    by_cases hb : b = a
    · subst hb
      refine ⟨[w.shared.trace.issued], ?_, ?_, List.pairwise_singleton _ _, ?_, fun _ => ?_⟩
      · rw [htrace]
        exact logged_self ..
      · rw [if_pos rfl]
      · intro ticket hmem
        rw [List.mem_singleton.mp hmem, htrace]
        exact ⟨Nat.le_refl _, Nat.lt_succ_self _⟩
      · rw [if_pos rfl]
    · refine ⟨[], ?_, ?_, .nil, (fun _ h => (by cases h)), fun h => absurd rfl h⟩
      · rw [htrace, List.append_nil]
        exact logged_ne _ _ hb
      · rw [if_neg hb, List.append_nil]
  · rw [htrace, List.append_nil]
    rfl
  · rw [hextra]
    split <;> rfl
  · rw [hextra] at hmem
    split at hmem
    · cases hmem
    · simp at hmem

theorem Accounted.submit (h : Accounted config w) {a : Nat} (ha : a < w.documents)
    (spawned : Bool) (choice : Nat) : Accounted config (w.submit config a spawned choice).2 := by
  rw [World.submit]
  dsimp only
  split
  · exact h
  next hretired =>
  split
  · exact h
  next hclosed =>
  have hopen : w.shared.ready.closed = false := by simpa using hclosed
  split
  · exact h
  next hroom =>
  split
  · exact h
  -- The document of the new request is live, so its flag may go up.
  have hlive (s' : Shared) (hcells : s'.cells = (requested w.shared a).cells) :
      (∀ b, (s'.cells b).mailbox.retired = true → (s'.cells b).mailbox.scheduled = false) ∧
        ∀ b, w.documents ≤ b → (s'.cells b).mailbox.scheduled = false := by
    have hmailbox (b : Nat) (hb : b ≠ a) : (s'.cells b).mailbox = w.mailbox b := by
      rw [hcells]
      show ((w.shared.setMailbox a _).cells b).mailbox = _
      rw [Shared.setMailbox, Shared.setCell_ne _ _ hb]
      rfl
    refine ⟨fun b hb => ?_, fun b hb => ?_⟩
    · by_cases heq : b = a
      · subst heq
        rw [hcells] at hb
        have hsame : ((requested w.shared b).cells b).mailbox.retired =
            (w.shared.cells b).mailbox.retired := by
          show ((w.shared.setMailbox b _).cells b).mailbox.retired = _
          rw [Shared.setMailbox, Shared.setCell_self]
        exact absurd (hsame.symm.trans hb) hretired
      · rw [hmailbox b heq] at hb ⊢
        exact h.retired b hb
    · rw [hmailbox b (by omega)]
      exact h.fresh b hb
  obtain ⟨hkeeps, hbeyond⟩ := hlive (requested w.shared a) rfl
  by_cases hscheduled : (w.mailbox a).scheduled = true
  · have hflag : (w.shared.cells a).mailbox.scheduled = true := hscheduled
    have hs : Submission w (requested w.shared a) [] :=
      .request w a rfl rfl (List.append_nil _).symm rfl hopen (by rw [if_pos hscheduled])
    simp only [hflag, Bool.not_true, Bool.false_and, Bool.false_eq_true, if_false, if_true]
    exact h.submission hs h.capacity hkeeps hbeyond fun hne => absurd rfl hne
  · have hflag : (w.shared.cells a).mailbox.scheduled = false := Bool.not_eq_true _ ▸ hscheduled
    simp only [hflag, Bool.not_false, Bool.true_and, Bool.false_eq_true, if_false,
      decide_eq_true_eq] at hroom ⊢
    obtain ⟨-, hshared, hdocuments⟩ := roused_ensureWorker config w spawned
    have hensured := h.ensureWorker spawned
    generalize w.ensureWorker config spawned = v at *
    split
    · exact hensured
    next hstarted =>
    rw [← hshared] at hopen hroom hkeeps hbeyond
    have hflag' : ¬ (v.mailbox a).scheduled = true := by
      rw [show v.mailbox a = w.mailbox a by rw [World.mailbox, hshared]; rfl]
      exact hscheduled
    have hs : Submission v (pushed (requested v.shared a) (.actor a)) [.actor a] :=
      .request v a rfl rfl rfl rfl hopen (by rw [if_neg hflag'])
    rw [← hdocuments] at hbeyond
    have hpush := hensured.push choice hs hstarted hopen (Nat.lt_of_not_le hroom) hkeeps hbeyond
    rw [← hshared]
    exact hpush

/-! ## §4 All worlds -/

theorem Accounted.empty (config : Config) : Accounted config World.empty := by
  constructor
  case admitted => rfl
  case capacity => exact Nat.zero_le _
  case scheduled => exact fun _ => rfl
  case pending => exact fun _ hne => absurd rfl hne
  case retired => exact fun _ h => nomatch h
  case fresh => exact fun _ _ => rfl
  case order => exact fun _ => rfl
  case replies => exact fun _ => rfl
  case groups => rfl
  case groupReplies => rfl
  case tickets => exact fun _ => ⟨.nil, fun _ h => nomatch h⟩
  case groupTickets => exact ⟨.nil, fun _ h => nomatch h⟩
  case holder =>
    intro a i
    exact ⟨(fun h => nomatch h), fun h => absurd h.1 (Nat.not_lt_zero i)⟩
  case ordered => exact fun i hi => absurd hi (Nat.not_lt_zero i)
  case distinct => exact fun _ h => nomatch h
  case exited => exact fun i hi => absurd hi (Nat.not_lt_zero i)
  case attended => exact fun h => absurd rfl h

theorem Accounted.step {action : Action} (h : Accounted config w)
    (hstep : step config w action = some w') : Accounted config w' := by
  cases action with
  | document =>
    cases hstep
    exact { h with fresh := fun a ha => h.fresh a (Nat.le_of_succ_le ha) }
  | submit a spawned choice =>
    obtain ⟨ha, heq⟩ := Option.ite_none_right_eq_some.mp hstep
    cases heq
    exact h.submit ha spawned choice
  | submitGroup members spawned choice =>
    cases hstep
    exact h.submitGroup members spawned choice
  | configure a maxChanges small spawned choice =>
    obtain ⟨-, heq⟩ := Option.ite_none_right_eq_some.mp hstep
    cases heq
    exact h.configureHistoryLimit a maxChanges small spawned choice
  | migrateSpill a attached =>
    obtain ⟨-, heq⟩ := Option.ite_none_right_eq_some.mp hstep
    cases heq
    exact h.migrateSpill a attached
  | cancelCleanSpill a =>
    obtain ⟨-, heq⟩ := Option.ite_none_right_eq_some.mp hstep
    cases heq
    exact h.cancelCleanSpill a
  | close =>
    cases hstep
    exact h.close
  | work i => exact h.work hstep
  | wake i =>
    obtain ⟨⟨hi, hwaiting⟩, heq⟩ := Option.ite_none_right_eq_some.mp hstep
    cases heq
    refine h.rouse (show Roused w (Function.update w.workers i .woken) w.started from
      ⟨Nat.le_refl _, fun j hj => ?_, fun j hold hnew => by omega⟩)
    by_cases hij : j = i
    · subst hij
      exact Or.inr ⟨hwaiting, Function.update_self ..⟩
    · exact Or.inl (Function.update_of_ne hij ..)

/-- Every world of a scheduler accounts for its work. -/
theorem Reachable.accounted (h : Reachable config w) : Accounted config w := by
  induction h with
  | empty => exact .empty config
  | step _ hstep ih => exact ih.step hstep

end World

end BareLine.Service
