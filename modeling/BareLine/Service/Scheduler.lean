import BareLine.Basic

/-!
# The document scheduler

Logical document actors on a pool of workers.  Submitters put requests into the mailbox of
a document and the document into the ready queue; workers take work from the queue and serve
it.  Every section under a lock is one step; between the steps of one worker anything else
may happen.
-/

namespace BareLine.Service

/-! ## §1 The shared state -/

/-- `SubmitError` -/
inductive SubmitError where
  | saturated
  | closed
  | invalidGroup
  deriving DecidableEq, Repr

/-- A request, by the number it was admitted under. -/
abbrev Ticket := Nat

/-- `Mailbox` -/
structure Mailbox where
  configuredHistoryLimit : Option Nat
  queue : List Ticket
  scheduled : Bool
  retired : Bool
  deriving DecidableEq, Repr

/-- `ActorCell`: the mailbox, the worker that holds the actor's state, and the number of
changes its history policy keeps. -/
structure ActorCell where
  mailbox : Mailbox
  holder : Option Nat
  maxChanges : Nat
  deriving DecidableEq, Repr

/-- `GroupRequest`, with the documents it is about. -/
structure GroupRequest where
  ticket : Ticket
  members : List Nat
  deriving DecidableEq, Repr

/-- `Work` -/
inductive Work where
  | actor (document : Nat)
  | historyPolicy (document : Nat) (maxChanges : Nat)
  | group (request : GroupRequest)
  deriving DecidableEq, Repr

/-- `ReadyState` -/
structure ReadyState where
  queue : List Work
  admitted : Nat
  closed : Bool
  idle : Nat
  deriving DecidableEq, Repr

/-- What happened so far: admissions, executions and replies, for each document and for
groups. -/
structure Trace where
  issued : Nat
  submitted : Nat → List Ticket
  executed : Nat → List Ticket
  completed : Nat → List Ticket
  groupsSubmitted : List Ticket
  groupsRun : List Ticket
  groupsCompleted : List Ticket

/-- Everything behind the locks, with the trace. -/
structure Shared where
  cells : Nat → ActorCell
  ready : ReadyState
  trace : Trace

/-- `ACTOR_QUANTUM` -/
def ACTOR_QUANTUM : Nat := 8

/-- The capacities of `Scheduler::new` and `Scheduler::document`. -/
structure Config where
  capacity : Nat
  maxWorkers : Nat
  mailboxCapacity : Nat → Nat

namespace Shared

variable (s : Shared)

def setCell (document : Nat) (cell : ActorCell) : Shared :=
  { s with cells := Function.update s.cells document cell }

def setMailbox (document : Nat) (mailbox : Mailbox) : Shared :=
  s.setCell document { s.cells document with mailbox }

def setHolder (document : Nat) (holder : Option Nat) : Shared :=
  s.setCell document { s.cells document with holder }

/-- Append a ticket to the log of a document. -/
def logged (log : Nat → List Ticket) (document : Nat) (ticket : Ticket) : Nat → List Ticket :=
  Function.update log document (log document ++ [ticket])

/-- The end of `run_group`: refused or not, the members are released. -/
def groupRan (request : GroupRequest) (locked : List Nat) : Shared :=
  { s with
    cells := fun a => if a ∈ locked then { s.cells a with holder := none } else s.cells a
    trace := { s.trace with groupsRun := s.trace.groupsRun ++ [request.ticket] } }

/-- `ReadyQueue::complete`, whose wake-ups the worker's step sends. -/
def complete (again : Option Work) : Shared :=
  match again with
  | some work => { s with ready := { s.ready with queue := s.ready.queue ++ [work] } }
  | none => { s with ready := { s.ready with admitted := s.ready.admitted - 1 } }

@[simp] theorem setCell_self (a : Nat) (cell : ActorCell) : (s.setCell a cell).cells a = cell :=
  Function.update_self ..

theorem setCell_ne {a b : Nat} (cell : ActorCell) (h : b ≠ a) :
    (s.setCell a cell).cells b = s.cells b :=
  Function.update_of_ne h ..

@[simp] theorem setCell_ready (a : Nat) (cell : ActorCell) : (s.setCell a cell).ready = s.ready :=
  rfl

@[simp] theorem setCell_trace (a : Nat) (cell : ActorCell) : (s.setCell a cell).trace = s.trace :=
  rfl

@[simp] theorem setHolder_ready (a : Nat) (holder : Option Nat) :
    (s.setHolder a holder).ready = s.ready := rfl

@[simp] theorem setHolder_trace (a : Nat) (holder : Option Nat) :
    (s.setHolder a holder).trace = s.trace := rfl

@[simp] theorem setMailbox_ready (a : Nat) (mailbox : Mailbox) :
    (s.setMailbox a mailbox).ready = s.ready := rfl

@[simp] theorem setMailbox_trace (a : Nat) (mailbox : Mailbox) :
    (s.setMailbox a mailbox).trace = s.trace := rfl

/-- A new holder changes no mailbox. -/
@[simp] theorem setHolder_mailbox (a b : Nat) (holder : Option Nat) :
    ((s.setHolder a holder).cells b).mailbox = (s.cells b).mailbox := by
  by_cases h : b = a
  · subst h
    rw [setHolder, setCell_self]
  · rw [setHolder, setCell_ne _ _ h]

/-- A new mailbox changes no holder. -/
@[simp] theorem setMailbox_holder (a b : Nat) (mailbox : Mailbox) :
    ((s.setMailbox a mailbox).cells b).holder = (s.cells b).holder := by
  by_cases h : b = a
  · subst h
    rw [setMailbox, setCell_self]
  · rw [setMailbox, setCell_ne _ _ h]

@[simp] theorem groupRan_mailbox (request : GroupRequest) (locked : List Nat) (a : Nat) :
    ((s.groupRan request locked).cells a).mailbox = (s.cells a).mailbox := by
  simp only [groupRan]
  split <;> rfl

theorem groupRan_holder (request : GroupRequest) (locked : List Nat) (a : Nat) :
    ((s.groupRan request locked).cells a).holder =
      if a ∈ locked then none else (s.cells a).holder := by
  simp only [groupRan]
  split <;> rfl

@[simp] theorem groupRan_ready (request : GroupRequest) (locked : List Nat) :
    (s.groupRan request locked).ready = s.ready := rfl

@[simp] theorem complete_none_queue : (s.complete none).ready.queue = s.ready.queue := rfl

@[simp] theorem complete_none_admitted :
    (s.complete none).ready.admitted = s.ready.admitted - 1 := rfl

@[simp] theorem complete_some_queue (work : Work) :
    (s.complete (some work)).ready.queue = s.ready.queue ++ [work] := rfl

@[simp] theorem complete_some_admitted (work : Work) :
    (s.complete (some work)).ready.admitted = s.ready.admitted := rfl

@[simp] theorem complete_cells (again : Option Work) : (s.complete again).cells = s.cells := by
  cases again <;> rfl

@[simp] theorem complete_trace (again : Option Work) : (s.complete again).trace = s.trace := by
  cases again <;> rfl

end Shared

/-! ## §2 Workers -/

/-- Where a worker stands in `run_worker`. -/
inductive Worker where
  /-- about to take the ready queue's lock in `next` -/
  | awake
  /-- asleep on the condition variable -/
  | waiting
  /-- notified, but not yet holding the lock again -/
  | woken
  /-- out of `run_worker` -/
  | exited
  /-- at the top of the mailbox loop -/
  | loop (document served : Nat)
  /-- holds the actor and a request taken from its mailbox -/
  | executing (document served : Nat) (ticket : Ticket)
  /-- the request is executed -/
  | settling (document served : Nat) (ticket : Ticket)
  /-- the actor is released, the reply is not sent -/
  | replying (document served : Nat) (ticket : Ticket) (last : Bool)
  /-- about to put the actor back into the ready queue -/
  | yielding (document : Nat)
  | policy (document maxChanges : Nat)
  /-- about to release the slot of a history policy -/
  | policySet
  /-- takes the members' states one after the other -/
  | locking (request : GroupRequest) (locked rest : List Nat)
  /-- holds all members and looks at the mailboxes of `rest` -/
  | checking (request : GroupRequest) (locked rest : List Nat)
  /-- the group has run or was refused, and the members are released -/
  | groupDone (request : GroupRequest)
  /-- the slot is released, the reply is not sent -/
  | groupReply (request : GroupRequest)
  deriving DecidableEq, Repr

namespace Worker

/-- `Condvar::notify_all` as one worker sees it. -/
def notified : Worker → Worker
  | waiting => woken
  | x => x

end Worker

/-- What a worker that took work from the queue does first. -/
def begin : Work → Worker
  | .actor document => .loop document 0
  | .historyPolicy document maxChanges => .policy document maxChanges
  | .group request => .locking request [] (request.members.mergeSort fun a b => decide (a ≤ b))

/-- `ReadyQueue::next`, from taking the lock on. -/
def Shared.next (s : Shared) : Worker × Shared :=
  match s.ready.queue with
  | work :: rest => (begin work, { s with ready := { s.ready with queue := rest } })
  | [] =>
    if s.ready.closed && s.ready.admitted == 0 then (.exited, s)
    else (.waiting, { s with ready := { s.ready with idle := s.ready.idle + 1 } })

/-- The next section of worker `i`: where it stands behind it, the shared state, and whether
it notifies all waiting workers.  `none` while it sleeps, waits for a lock or is gone. -/
def advance (i : Nat) (s : Shared) : Worker → Option (Worker × Shared × Bool)
  | .waiting | .exited => none
  | .awake =>
    let (worker, s) := s.next
    some (worker, s, false)
  | .woken =>
    let (worker, s) := { s with ready := { s.ready with idle := s.ready.idle - 1 } }.next
    some (worker, s, false)
  | .loop a served =>
    let cell := s.cells a
    if cell.holder.isSome then none
    else
      match cell.mailbox.queue with
      | ticket :: rest =>
        some (.executing a served ticket,
          s.setCell a { cell with
            holder := some i, mailbox := { cell.mailbox with queue := rest } }, false)
      -- A scheduled actor always holds a request; release it anyway.
      | [] =>
        some (.awake,
          (s.setMailbox a { cell.mailbox with scheduled := false }).complete none, true)
  | .executing a served ticket =>
    some (.settling a (served + 1) ticket,
      { s with trace := { s.trace with
          executed := Shared.logged s.trace.executed a ticket } }, false)
  | .settling a served ticket =>
    let cell := s.cells a
    if cell.mailbox.queue.isEmpty then
      -- With the last request the slot goes, before the actor is released.
      some (.replying a served ticket true,
        (s.setCell a { cell with
          holder := none, mailbox := { cell.mailbox with scheduled := false } }).complete none,
        true)
    else some (.replying a served ticket false, s.setHolder a none, false)
  | .replying a served ticket last =>
    let s := { s with trace := { s.trace with
      completed := Shared.logged s.trace.completed a ticket } }
    if last then some (.awake, s, false)
    else if served = ACTOR_QUANTUM then some (.yielding a, s, false)
    else some (.loop a served, s, false)
  | .yielding a => some (.awake, s.complete (some (.actor a)), true)
  | .policy a maxChanges =>
    let cell := s.cells a
    if cell.holder.isSome then none
    else if cell.mailbox.retired then some (.policySet, s, false)
    else
      -- The latest admitted setting, whatever order workers take them in.
      let maxChanges := cell.mailbox.configuredHistoryLimit.getD maxChanges
      some (.policySet, s.setCell a { cell with maxChanges }, false)
  | .policySet => some (.awake, s.complete none, true)
  | .locking request locked (a :: rest) =>
    if (s.cells a).holder.isSome then none
    else some (.locking request (locked ++ [a]) rest, s.setHolder a (some i), false)
  | .locking request locked [] => some (.checking request locked locked, s, false)
  | .checking request locked (a :: rest) =>
    let mailbox := (s.cells a).mailbox
    if mailbox.retired || !mailbox.queue.isEmpty then
      some (.groupDone request, s.groupRan request locked, false)
    else some (.checking request locked rest, s, false)
  | .checking request locked [] => some (.groupDone request, s.groupRan request locked, false)
  | .groupDone request => some (.groupReply request, s.complete none, true)
  | .groupReply request =>
    some (.awake, { s with trace := { s.trace with
      groupsCompleted := s.trace.groupsCompleted ++ [request.ticket] } }, false)

/-! ## §3 The system -/

/-- A scheduler with its documents and workers; the trace is in the shared state. -/
structure World where
  shared : Shared
  documents : Nat
  workers : Nat → Worker
  started : Nat

namespace World

variable (config : Config) (w : World)

/-- `Scheduler::new`: no document and no worker. -/
def empty : World :=
  ⟨⟨fun _ => ⟨⟨none, [], false, false⟩, none, 0⟩, ⟨[], 0, false, 0⟩,
    ⟨0, fun _ => [], fun _ => [], fun _ => [], [], [], []⟩⟩, 0, fun _ => .awake, 0⟩

/-- `ensure_worker`: a worker starts if no idle one is left for the work and its thread can be
spawned. -/
def ensureWorker (spawned : Bool) : World :=
  if w.shared.ready.queue.length ≥ w.shared.ready.idle ∧ w.started < config.maxWorkers ∧
      spawned then
    { w with workers := Function.update w.workers w.started .awake, started := w.started + 1 }
  else w

/-- `Condvar::notify_one`: it wakes the sleeping worker `choice`, or any other. -/
def notifyOne (choice : Nat) : World :=
  match (choice :: List.range w.started).find? fun i =>
      decide (i < w.started) && decide (w.workers i = .waiting) with
  | some i => { w with workers := Function.update w.workers i .woken }
  | none => w

/-- Admit one more piece of work to the ready queue. -/
def push (work : Work) (choice : Nat) : World :=
  { w with shared := { w.shared with ready := { w.shared.ready with
      admitted := w.shared.ready.admitted + 1, queue := w.shared.ready.queue ++ [work] } } }
    |>.notifyOne choice

/-- `ReadyQueue::submit` -/
def submitWork (work : Work) (spawned : Bool) (choice : Nat) : Except SubmitError Unit × World :=
  if w.shared.ready.closed then (.error .closed, w)
  else if w.shared.ready.admitted ≥ config.capacity then (.error .saturated, w)
  else
    let w := w.ensureWorker config spawned
    if w.started = 0 then (.error .saturated, w) else (.ok (), w.push work choice)

/-- `submit_context`, of a request that becomes the next ticket. -/
def submit (a : Nat) (spawned : Bool) (choice : Nat) : Except SubmitError Unit × World :=
  let mailbox := (w.shared.cells a).mailbox
  if mailbox.retired then (.error .closed, w)
  else if w.shared.ready.closed then (.error .closed, w)
  else if !mailbox.scheduled && decide (w.shared.ready.admitted ≥ config.capacity) then
    (.error .saturated, w)
  else if mailbox.queue.length ≥ config.mailboxCapacity a then (.error .saturated, w)
  else
    let w := if mailbox.scheduled then w else w.ensureWorker config spawned
    if !mailbox.scheduled && decide (w.started = 0) then (.error .saturated, w)
    else
      let ticket := w.shared.trace.issued
      let trace := { w.shared.trace with
        issued := ticket + 1, submitted := Shared.logged w.shared.trace.submitted a ticket }
      let shared := w.shared.setMailbox a
        { mailbox with queue := mailbox.queue ++ [ticket], scheduled := true }
      let w := { w with shared := { shared with trace } }
      (.ok (), if mailbox.scheduled then w else w.push (.actor a) choice)

/-- `submit_group`, of documents of this scheduler. -/
def submitGroup (members : List Nat) (spawned : Bool) (choice : Nat) :
    Except SubmitError Unit × World :=
  if members.length < 2 ∨ members.length > MAX_GROUP_DOCUMENTS ∨ ¬members.Nodup ∨
      ∃ a ∈ members, ¬a < w.documents then (.error .invalidGroup, w)
  else
    let ticket := w.shared.trace.issued
    match w.submitWork config (.group ⟨ticket, members⟩) spawned choice with
    | (.ok (), w) =>
      (.ok (), { w with shared := { w.shared with trace := { w.shared.trace with
        issued := ticket + 1,
        groupsSubmitted := w.shared.trace.groupsSubmitted ++ [ticket] } } })
    | (.error error, w) => (.error error, w)

/-- `configure_history_limit`; `small` says that the document has nothing to trim. -/
def configureHistoryLimit (a maxChanges : Nat) (small spawned : Bool) (choice : Nat) :
    Bool × World :=
  let cell := w.shared.cells a
  let mailbox := { cell.mailbox with configuredHistoryLimit := some maxChanges }
  let configured := fun (w : World) => { w with shared := w.shared.setMailbox a mailbox }
  if cell.mailbox.retired then (false, w)
  else if cell.mailbox.configuredHistoryLimit = some maxChanges then (true, w)
  else if cell.holder.isNone && small then
    (true, configured { w with shared := w.shared.setCell a { cell with maxChanges } })
  else
    match w.submitWork config (.historyPolicy a maxChanges) spawned choice with
    | (.ok (), w) => (true, configured w)
    | (.error _, w) => (false, w)

/-- `migrate_spill` and `migrate_clean_spill`: the actor must be idle, and `attached` says
whether the document could be attached. -/
def migrateSpill (a : Nat) (attached : Bool) : Except Error Unit × World :=
  let cell := w.shared.cells a
  if cell.holder.isSome ∨ cell.mailbox.retired ∨ cell.mailbox.scheduled ∨
      ¬cell.mailbox.queue.isEmpty then (.error .actorBusy, w)
  else if !attached then (.error .staleRevision, w)
  else (.ok (), { w with shared := w.shared.setMailbox a { cell.mailbox with retired := true } })

/-- `cancel_clean_spill`, where the snapshot is still current. -/
def cancelCleanSpill (a : Nat) : Except Error Unit × World :=
  let cell := w.shared.cells a
  if cell.holder.isSome then (.error .actorBusy, w)
  else (.ok (), { w with shared := w.shared.setMailbox a { cell.mailbox with retired := false } })

/-- `Scheduler::close` -/
def close : World :=
  { w with
    shared := { w.shared with ready := { w.shared.ready with closed := true } }
    workers := fun i => (w.workers i).notified }

/-- The next section of worker `i`. -/
def work (i : Nat) : Option World :=
  if i < w.started then
    (advance i w.shared (w.workers i)).map fun (worker, shared, notifies) =>
      let workers := if notifies then fun j => (w.workers j).notified else w.workers
      { w with shared, workers := Function.update workers i worker }
  else none

end World

/-- What may happen next. -/
inductive Action where
  /-- `Scheduler::document` -/
  | document
  | submit (document : Nat) (spawned : Bool) (choice : Nat)
  | submitGroup (members : List Nat) (spawned : Bool) (choice : Nat)
  | configure (document maxChanges : Nat) (small spawned : Bool) (choice : Nat)
  | migrateSpill (document : Nat) (attached : Bool)
  | cancelCleanSpill (document : Nat)
  | close
  | work (worker : Nat)
  /-- a spurious wake-up -/
  | wake (worker : Nat)

/-- The world after an action, refused or not; `none` where there is nothing to act on. -/
def step (config : Config) (w : World) : Action → Option World
  | .document => some { w with documents := w.documents + 1 }
  | .submit a spawned choice =>
    if a < w.documents then some (w.submit config a spawned choice).2 else none
  | .submitGroup members spawned choice => some (w.submitGroup config members spawned choice).2
  | .configure a maxChanges small spawned choice =>
    if a < w.documents then
      some (w.configureHistoryLimit config a maxChanges small spawned choice).2
    else none
  | .migrateSpill a attached =>
    if a < w.documents then some (w.migrateSpill a attached).2 else none
  | .cancelCleanSpill a => if a < w.documents then some (w.cancelCleanSpill a).2 else none
  | .close => some w.close
  | .work i => w.work i
  | .wake i =>
    if i < w.started ∧ w.workers i = .waiting then
      some { w with workers := Function.update w.workers i .woken }
    else none

/-- The worlds of a scheduler, after any actions in any order. -/
inductive Reachable (config : Config) : World → Prop where
  | empty : Reachable config World.empty
  | step {w w' : World} {action : Action} :
      Reachable config w → step config w action = some w' → Reachable config w'

end BareLine.Service
