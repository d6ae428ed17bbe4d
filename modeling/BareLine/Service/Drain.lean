import BareLine.Service.Submissions

/-!
# Draining

However the workers take turns, they come to an end of the admitted work: every section
uses up some of a bound, and only when nothing is left can no worker move.
-/

namespace BareLine.Service

open Lib

/-! ## §1 The bound -/

/-- The sections it takes to serve a piece of work, without the requests in its mailbox. -/
def Work.cost : Work → Nat
  | .actor _ => 2
  | .historyPolicy .. => 3
  | .group request => 2 * request.members.length + 5

namespace Worker

/-- The sections left to a worker, without the requests in the mailbox it serves. -/
def cost : Worker → Nat
  | loop .. => 1
  | executing .. => 6
  | settling .. => 5
  | replying _ _ _ last => if last then 1 else 4
  | yielding _ => 3
  | policy .. => 2
  | policySet => 1
  | locking _ locked rest => 2 * rest.length + locked.length + 4
  | checking _ _ rest => rest.length + 3
  | groupDone _ => 2
  | groupReply _ => 1
  | awake | waiting | woken | exited => 0

/-- Whether a worker has yet to look at the queue. -/
def restless : Worker → Nat
  | awake | woken => 1
  | _ => 0

end Worker

theorem Quiet.cost : Quiet Worker.cost := ⟨rfl, rfl, rfl⟩

namespace World

variable (w : World)

/-- The requests in all mailboxes. -/
def backlog : Nat := tally w.documents (fun cell => cell.mailbox.queue.length) w.shared.cells

/-- The sections left: six for a request in a mailbox, and those of the work under way. -/
def steps : Nat :=
  6 * w.backlog + (w.shared.ready.queue.map Work.cost).sum + tally w.started Worker.cost w.workers

/-- A bound on the sections of workers, counting those that end asleep. -/
def bound : Nat := (w.started + 1) * w.steps + tally w.started Worker.restless w.workers

end World

theorem begin_cost (work : Work) : (begin work).cost + 1 = work.cost := by
  cases work with
  | actor | historyPolicy => rfl
  | group request => simp [begin, Worker.cost, Work.cost, List.length_mergeSort]

section Measure

variable {config : Config} {w w' : World} {i : Nat}

/-- A mailbox counts only for the document it is of. -/
theorem backlog_setCell {s : Shared} {documents a : Nat} (ha : a < documents)
    (cell : ActorCell) :
    tally documents (fun cell => cell.mailbox.queue.length) (s.setCell a cell).cells +
        (s.cells a).mailbox.queue.length =
      tally documents (fun cell => cell.mailbox.queue.length) s.cells +
        cell.mailbox.queue.length :=
  tally_update ha (fun cell : ActorCell => cell.mailbox.queue.length) s.cells cell

/-- A section of a worker uses up a step, unless it ends asleep in front of an empty queue. -/
theorem Section.cost {s s' : Shared} {x x' : Worker} {notifies : Bool} {documents : Nat}
    (h : Section i s x x' s' notifies)
    (hserves : ∀ a, x.serves a = 1 → a < documents) :
    6 * tally documents (fun cell => cell.mailbox.queue.length) s'.cells +
          (s'.ready.queue.map Work.cost).sum + x'.cost + 1 ≤
        6 * tally documents (fun cell => cell.mailbox.queue.length) s.cells +
          (s.ready.queue.map Work.cost).sum + x.cost ∨
      notifies = false ∧ s'.cells = s.cells ∧ s'.ready.queue = s.ready.queue ∧
        x.cost = 0 ∧ x'.cost = 0 ∧ x.restless = 1 ∧ x'.restless = 0 := by
  -- Where no mailbox gets shorter or longer, the backlog stays.
  have hsame (hqueue : ∀ a, (s'.cells a).mailbox.queue = (s.cells a).mailbox.queue) :
      tally documents (fun cell => cell.mailbox.queue.length) s'.cells =
        tally documents (fun cell => cell.mailbox.queue.length) s.cells :=
    tally_congr fun a _ => congrArg List.length (hqueue a)
  cases h with
  | @take _ work rest idle hx hqueue =>
    refine Or.inl ?_
    have hcost := begin_cost work
    have hnone : x.cost = 0 := by rcases hx with rfl | rfl <;> rfl
    simp only [hqueue, List.map_cons, List.sum_cons]
    omega
  | exit idle hx hqueue hclosed hadmitted =>
    rcases hx with rfl | rfl <;> exact Or.inr ⟨rfl, rfl, rfl, rfl, rfl, rfl, rfl⟩
  | sleep idle hx hqueue =>
    rcases hx with rfl | rfl <;> exact Or.inr ⟨rfl, rfl, rfl, rfl, rfl, rfl, rfl⟩
  | @start a served ticket rest hfree hqueue =>
    refine Or.inl ?_
    have ha := hserves a (if_pos rfl)
    have htally := backlog_setCell (s := s) ha
      { s.cells a with holder := some i, mailbox := { (s.cells a).mailbox with queue := rest } }
    simp only [hqueue, List.length_cons] at htally
    simp only [Worker.cost, Shared.setCell_ready]
    omega
  | @release a served hfree hqueue | @settleLast a served ticket hqueue =>
    refine Or.inl ?_
    rw [hsame]
    · simp [Worker.cost]
    · intro b
      simp only [Shared.complete_cells, Shared.setMailbox, setCell_cells]
      split
      · next hb => rw [hb]
      · rfl
  | @policy a _ n =>
    refine Or.inl ?_
    rw [hsame]
    · simp [Worker.cost]
    · intro b
      rw [setCell_cells]
      split
      · next hb => rw [hb]
      · rfl
  | reply hx' =>
    rcases hx' with ⟨rfl, rfl⟩ | ⟨rfl, rfl | rfl⟩ <;> exact Or.inl (by simp [Worker.cost])
  | yield =>
    refine Or.inl ?_
    simp only [Shared.complete_cells, Shared.complete_some_queue, Worker.cost, List.map_append,
      List.sum_append, List.map_cons, List.map_nil, List.sum_cons, List.sum_nil, Work.cost]
    omega
  | settle | run =>
    refine Or.inl ?_
    rw [hsame fun b => by simp]
    simp only [Worker.cost, Shared.setHolder_ready, Shared.groupRan_ready, Bool.false_eq_true,
      if_false]
    omega
  | lock =>
    refine Or.inl ?_
    rw [hsame fun b => by simp]
    simp only [Worker.cost, Shared.setHolder_ready, List.length_cons, List.length_append,
      List.length_nil]
    omega
  | execute | policySet | locked | check | groupDone | groupReply =>
    refine Or.inl ?_
    simp only [Worker.cost, Shared.complete_cells, Shared.complete_none_queue, List.length_cons,
      List.length_nil]
    omega

theorem restless_le_one (x : Worker) : x.restless ≤ 1 := by
  cases x <;> first | exact Nat.le_refl 1 | exact Nat.zero_le 1

/-- Every section of a worker lowers the bound. -/
theorem bound_work (h : Accounted config w) (hwork : w.work i = some w') :
    w'.bound < w.bound := by
  obtain ⟨hi, x', s', notifies, hsection, rfl⟩ := work_some hwork
  have hserves : ∀ a, (w.workers i).serves a = 1 → a < w.documents := by
    intro a ha
    by_contra hbeyond
    have hflag := h.serves_scheduled hi ha
    rw [h.fresh a (by omega)] at hflag
    cases hflag
  have hcost := tally_work Quiet.cost hi x' notifies
  rcases hsection.cost hserves with hless | ⟨rfl, hcells, hqueue, hx, hx', hold, hnew⟩
  · -- One step less outweighs any number of workers roused.
    have hrestless := tally_le_card (n := w.started) restless_le_one
      (Function.update (beside w notifies) i x')
    have hsteps : World.steps { w with
        shared := s', workers := Function.update (beside w notifies) i x' } + 1 ≤ w.steps := by
      simp only [World.steps, World.backlog]
      omega
    have hmul := Nat.mul_le_mul_left (w.started + 1) hsteps
    rw [Nat.mul_add, Nat.mul_one] at hmul
    rw [World.bound, World.bound]
    dsimp only
    omega
  · have hrestless := tally_update hi Worker.restless w.workers x'
    have hsteps : World.steps { w with
        shared := s', workers := Function.update (beside w false) i x' } = w.steps := by
      simp only [World.steps, World.backlog, hcells, hqueue]
      omega
    rw [World.bound, World.bound, hsteps]
    show (w.started + 1) * w.steps +
      tally w.started Worker.restless (Function.update w.workers i x') <
        (w.started + 1) * w.steps + _
    omega

/-- A run of workers' sections is no longer than the bound. -/
theorem run_le_bound (h : Accounted config w) {schedule : List Nat}
    (hrun : schedule.foldlM World.work w = some w') :
    schedule.length ≤ w.bound ∧ Accounted config w' := by
  induction schedule generalizing w with
  | nil =>
    cases hrun
    exact ⟨Nat.zero_le _, h⟩
  | cons i rest ih =>
    rw [List.foldlM_cons, Option.bind_eq_bind, Option.bind_eq_some_iff] at hrun
    obtain ⟨v, hwork, hrun⟩ := hrun
    obtain ⟨hlen, hfinal⟩ := ih (h.work hwork) hrun
    have hless := bound_work h hwork
    exact ⟨by rw [List.length_cons]; omega, hfinal⟩

end Measure

/-! ## §2 Workers that cannot move -/

/-- The lock a worker is about to take. -/
def Worker.wants : Worker → Option Nat
  | loop a _ => some a
  | policy a _ => some a
  | locking _ _ (a :: _) => some a
  | _ => none

section Stuck

variable {config : Config} {w : World}

/-- An active worker moves, unless it waits for a lock that is held. -/
theorem work_eq_none {i : Nat} (hi : i < w.started) (hactive : (w.workers i).active = true)
    (hstuck : w.work i = none) :
    ∃ a, (w.workers i).wants = some a ∧ (w.holder a).isSome = true := by
  rw [World.work, if_pos hi, Option.map_eq_none_iff] at hstuck
  cases hx : w.workers i with
  | waiting | exited =>
    rw [hx] at hactive
    cases hactive
  | awake | woken | executing | yielding | policySet | groupDone | groupReply =>
    rw [hx] at hstuck
    cases hstuck
  | loop a served =>
    rw [hx] at hstuck
    simp only [advance] at hstuck
    split at hstuck
    · next hheld => exact ⟨a, rfl, hheld⟩
    · split at hstuck <;> cases hstuck
  | settling a served ticket =>
    rw [hx] at hstuck
    simp only [advance] at hstuck
    split at hstuck <;> cases hstuck
  | replying a served ticket last =>
    rw [hx] at hstuck
    simp only [advance] at hstuck
    split at hstuck
    · cases hstuck
    · split at hstuck <;> cases hstuck
  | policy a maxChanges =>
    rw [hx] at hstuck
    simp only [advance] at hstuck
    split at hstuck
    · next hheld => exact ⟨a, rfl, hheld⟩
    · split at hstuck <;> cases hstuck
  | locking request locked rest =>
    rw [hx] at hstuck
    cases rest with
    | nil => cases hstuck
    | cons a rest =>
      simp only [advance] at hstuck
      split at hstuck
      · next hheld => exact ⟨a, rfl, hheld⟩
      · cases hstuck
  | checking request locked rest =>
    rw [hx] at hstuck
    cases rest with
    | nil => cases hstuck
    | cons a rest =>
      simp only [advance] at hstuck
      split at hstuck <;> cases hstuck

/-- Workers that all cannot move have all gone to sleep or left: locks are taken in one
order, so there is no deadlock. -/
theorem Accounted.inactive (h : Accounted config w) (hstuck : ∀ i, w.work i = none) :
    ∀ i < w.started, (w.workers i).active = false := by
  have hnone : ∀ i < w.started, (w.workers i).wants = none := by
    apply no_wait_cycle (fun i => (w.workers i).wants) (fun i a => a ∈ (w.workers i).holds)
    · -- Whoever holds a lock waited for is active, so it waits itself.
      intro i hi a ha
      have hactive : (w.workers i).active = true := by
        cases hx : w.workers i <;> rw [hx] at ha <;> first | rfl | cases ha
      obtain ⟨b, hb, hheld⟩ := work_eq_none hi hactive (hstuck i)
      rw [ha] at hb
      cases hb
      obtain ⟨j, hj⟩ := Option.isSome_iff_exists.mp hheld
      obtain ⟨hstarted, hholds⟩ := (h.holder a j).mp hj
      refine ⟨j, hstarted, hholds, ?_⟩
      have hactive : (w.workers j).active = true := by
        cases hx : w.workers j <;> rw [hx] at hholds <;> first | rfl | cases hholds
      obtain ⟨b, hb, -⟩ := work_eq_none hstarted hactive (hstuck j)
      rw [hb]
      rfl
    · intro i hi a b hholds hwants
      cases hx : w.workers i with
      | locking request locked rest =>
        rw [hx] at hholds hwants
        cases rest with
        | nil => cases hwants
        | cons c rest =>
          cases hwants
          have hordered := h.ordered i hi request locked _ hx
          exact (List.pairwise_append.mp hordered).2.2 a hholds b List.mem_cons_self
      | loop | policy =>
        rw [hx] at hholds
        cases hholds
      | awake | waiting | woken | exited | executing | settling | replying | yielding | policySet
      | checking | groupDone | groupReply =>
        rw [hx] at hwants
        cases hwants
  intro i hi
  by_contra hactive
  obtain ⟨a, ha, -⟩ := work_eq_none hi (by simpa using hactive) (hstuck i)
  rw [hnone i hi] at ha
  cases ha

/-- Inactive workers hold nothing. -/
theorem tally_inactive {M : Type} [AddCommMonoid M] {f : Worker → M} (hf : Quiet f)
    (hexited : f .exited = 0) (hidle : ∀ i < w.started, (w.workers i).active = false) :
    tally w.started f w.workers = 0 := by
  apply tally_eq_zero
  intro i hi
  have hinactive := hidle i hi
  cases hx : w.workers i <;> rw [hx] at hinactive <;>
    first | exact hf.waiting | exact hexited | cases hinactive

/-- Where no worker can move, everything admitted is executed and replied to. -/
theorem Accounted.drained (h : Accounted config w) (hstuck : ∀ i, w.work i = none) :
    w.shared.ready.queue = [] ∧ w.shared.ready.admitted = 0 ∧
      (∀ a, (w.mailbox a).queue = [] ∧ w.shared.trace.executed a = w.shared.trace.submitted a ∧
        (w.shared.trace.completed a).Perm (w.shared.trace.submitted a)) ∧
      (w.shared.trace.groupsCompleted).Perm w.shared.trace.groupsSubmitted := by
  have hidle := h.inactive hstuck
  have hqueue : w.shared.ready.queue = [] := by
    by_contra hne
    obtain ⟨i, hi, hactive⟩ := h.attended hne
    rw [hidle i hi] at hactive
    cases hactive
  refine ⟨hqueue, ?_, fun a => ?_, ?_⟩
  · rw [h.admitted, hqueue, tally_inactive Quiet.slots rfl hidle]
    rfl
  · have hscheduled : (w.mailbox a).scheduled = false := by
      have hcount := h.scheduled a
      rw [hqueue, tally_inactive (Quiet.serves a) rfl hidle] at hcount
      by_contra hflag
      rw [if_pos (by simpa using hflag)] at hcount
      cases hcount
    have hempty : (w.mailbox a).queue = [] := by
      by_contra hne
      rw [h.pending a hne] at hscheduled
      cases hscheduled
    have hrunning : w.running a = [] := by
      rw [World.running]
      cases hholder : w.holder a with
      | none => rfl
      | some i =>
        obtain ⟨hi, hholds⟩ := (h.holder a i).mp hholder
        have hinactive := hidle i hi
        cases hx : w.workers i <;> rw [hx] at hholds hinactive <;>
          first | exact absurd hholds List.not_mem_nil | cases hinactive
    have horder := h.order a
    rw [hempty, hrunning, List.append_nil, List.append_nil] at horder
    refine ⟨hempty, horder.symm, ?_⟩
    have hreplies := h.replies a
    rw [tally_inactive (Quiet.owes a) rfl hidle, add_zero] at hreplies
    rw [horder]
    exact Multiset.coe_eq_coe.mp hreplies.symm
  · have hgroups := h.groups
    rw [h.groupReplies, hqueue, tally_inactive Quiet.groups rfl hidle,
      tally_inactive Quiet.groupOwes rfl hidle, add_zero, add_zero] at hgroups
    have hnone : queuedGroups [] = 0 := rfl
    rw [hnone, add_zero] at hgroups
    exact Multiset.coe_eq_coe.mp hgroups.symm

end Stuck

/-! ## §3 What the scheduler guarantees -/

/-- The mailbox protocol, as one world of a scheduler shows it. -/
structure MailboxProtocol (config : Config) (w : World) : Prop where
  /-- A request is admitted once.  It waits in the mailbox, runs, and has been executed, in
  the order of admission, and only one request of a document runs at a time. -/
  order : ∀ a, (w.shared.trace.submitted a).Nodup ∧ (w.running a).length ≤ 1 ∧
    w.shared.trace.submitted a = w.shared.trace.executed a ++ w.running a ++ (w.mailbox a).queue
  /-- Only one worker has the state of a document in its hands. -/
  exclusive : ∀ a i j, i < w.started → j < w.started → a ∈ (w.workers i).holds →
    a ∈ (w.workers j).holds → i = j
  /-- A request executed has been replied to once, or a worker is about to. -/
  replies : ∀ a, (w.shared.trace.executed a : Multiset Ticket) =
    w.shared.trace.completed a + tally w.started (Worker.owes a) w.workers
  groups : w.shared.trace.groupsSubmitted.Nodup ∧
    (w.shared.trace.groupsSubmitted : Multiset Ticket) =
      w.shared.trace.groupsRun + queuedGroups w.shared.ready.queue +
        tally w.started Worker.groups w.workers
  groupReplies : (w.shared.trace.groupsRun : Multiset Ticket) =
    w.shared.trace.groupsCompleted + tally w.started Worker.groupOwes w.workers
  /-- The admitted count is that of the queued and the running work. -/
  admitted : w.shared.ready.admitted =
      w.shared.ready.queue.length + tally w.started Worker.slots w.workers ∧
    w.shared.ready.admitted ≤ config.capacity
  /-- A document is queued or served, once, exactly when it is marked as scheduled; one with
  requests left is. -/
  scheduled : ∀ a, w.shared.ready.queue.count (.actor a) +
      tally w.started (Worker.serves a) w.workers = (if (w.mailbox a).scheduled then 1 else 0) ∧
    ((w.mailbox a).queue ≠ [] → (w.mailbox a).scheduled = true)
  /-- A retired document has nothing left to serve, and admits nothing. -/
  retired : ∀ a, (w.mailbox a).retired = true →
    (w.mailbox a).scheduled = false ∧ (w.mailbox a).queue = [] ∧
      (∀ spawned choice, w.submit config a spawned choice = (.error .closed, w)) ∧
      ∀ maxChanges small spawned choice,
        w.configureHistoryLimit config a maxChanges small spawned choice = (false, w)
  /-- The workers come to an end, in any order they take their turns, and then every request
  admitted is executed and replied to. -/
  drains : ∀ (schedule : List Nat) (w' : World), schedule.foldlM World.work w = some w' →
    schedule.length ≤ w.bound ∧
      ((∀ i, w'.work i = none) →
        (∀ a, w'.shared.trace.executed a = w.shared.trace.submitted a ∧
          (w'.shared.trace.completed a).Perm (w.shared.trace.submitted a)) ∧
        (w'.shared.trace.groupsCompleted).Perm w.shared.trace.groupsSubmitted)

/-- Workers admit nothing. -/
theorem run_submitted {w w' : World} {schedule : List Nat}
    (hrun : schedule.foldlM World.work w = some w') :
    w'.shared.trace.submitted = w.shared.trace.submitted ∧
      w'.shared.trace.groupsSubmitted = w.shared.trace.groupsSubmitted := by
  induction schedule generalizing w with
  | nil =>
    cases hrun
    exact ⟨rfl, rfl⟩
  | cons i rest ih =>
    rw [List.foldlM_cons, Option.bind_eq_bind, Option.bind_eq_some_iff] at hrun
    obtain ⟨v, hwork, hrun⟩ := hrun
    obtain ⟨hsubmitted, hgroups⟩ := ih hrun
    obtain ⟨-, x', s', notifies, hsection, rfl⟩ := work_some hwork
    obtain ⟨-, -, hsame, hsame'⟩ := hsection.frame
    exact ⟨hsubmitted.trans hsame, hgroups.trans hsame'⟩

/-- A worker runs at most one request. -/
theorem running_length_le (w : World) (a : Nat) : (w.running a).length ≤ 1 := by
  rw [World.running]
  split
  · next i _ =>
    cases w.workers i with
    | executing b served ticket =>
      rw [Worker.running]
      split <;> simp
    | _ => exact Nat.zero_le 1
  · exact Nat.zero_le 1

/-- The scheduler keeps the mailbox protocol, whatever submitters, workers and retirements do
and in whatever order. -/
theorem mailbox_protocol {config : Config} {w : World} (h : Reachable config w) :
    MailboxProtocol config w := by
  have haccounted := h.accounted
  constructor
  case order =>
    intro a
    exact ⟨(haccounted.tickets a).1.imp Nat.ne_of_lt, running_length_le w a, haccounted.order a⟩
  case exclusive =>
    intro a i j hi hj hai haj
    have hleft := (haccounted.holder a i).mpr ⟨hi, hai⟩
    have hright := (haccounted.holder a j).mpr ⟨hj, haj⟩
    rw [hleft] at hright
    exact Option.some.inj hright
  case replies => exact haccounted.replies
  case groups => exact ⟨haccounted.groupTickets.1.imp Nat.ne_of_lt, haccounted.groups⟩
  case groupReplies => exact haccounted.groupReplies
  case admitted => exact ⟨haccounted.admitted, haccounted.capacity⟩
  case scheduled => exact fun a => ⟨haccounted.scheduled a, haccounted.pending a⟩
  case retired =>
    intro a hretired
    have hflag := haccounted.retired a hretired
    refine ⟨hflag, ?_, fun spawned choice => ?_, fun maxChanges small spawned choice => ?_⟩
    · by_contra hne
      rw [haccounted.pending a hne] at hflag
      cases hflag
    · exact if_pos hretired
    · exact if_pos hretired
  case drains =>
    intro schedule w' hrun
    obtain ⟨hbound, hfinal⟩ := run_le_bound haccounted hrun
    obtain ⟨hsubmitted, hgroups⟩ := run_submitted hrun
    refine ⟨hbound, fun hstuck => ?_⟩
    obtain ⟨-, -, hmailboxes, hcompleted⟩ := hfinal.drained hstuck
    refine ⟨fun a => ?_, hgroups ▸ hcompleted⟩
    obtain ⟨-, hexecuted, hreplied⟩ := hmailboxes a
    exact hsubmitted ▸ ⟨hexecuted, hreplied⟩

/-- Room for four pieces of work and one worker. -/
def narrow : Config := ⟨4, 1, fun _ => 8⟩

/-- A scheduler with one document, to which two requests were submitted before any worker
moved. -/
def twoRequests : World :=
  let opened := { World.empty with documents := 1 }
  ((opened.submit narrow 0 true 0).2.submit narrow 0 true 0).2

theorem reachable_twoRequests : Reachable narrow twoRequests := by
  have hopened : Reachable narrow { World.empty with documents := 1 } :=
    .step .empty (rfl : step narrow _ .document = _)
  have hone := hopened.step (rfl : step narrow _ (.submit 0 true 0) = _)
  exact hone.step (rfl : step narrow _ (.submit 0 true 0) = _)

theorem mailbox_protocol_twoRequests : MailboxProtocol narrow twoRequests :=
  mailbox_protocol reachable_twoRequests

/-- Both requests wait in the mailbox, none is running, and one piece of work is admitted. -/
theorem one_slot_for_two_requests : Reachable narrow twoRequests ∧
    (twoRequests.mailbox 0).queue = [0, 1] ∧ twoRequests.running 0 = [] ∧
    twoRequests.shared.ready.admitted = 1 :=
  ⟨reachable_twoRequests, rfl, rfl, rfl⟩

end BareLine.Service
