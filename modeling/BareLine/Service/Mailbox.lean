import BareLine.Lib.Tally
import BareLine.Service.Scheduler

/-!
# What the scheduler keeps

The invariant of the scheduler: how the mailboxes, the ready queue and the workers account
for the admitted requests.
-/

namespace BareLine.Service

open Lib

/-! ## §1 What a worker contributes -/

namespace Worker

/-- The slots of the ready queue a worker holds. -/
def slots : Worker → Nat
  | loop .. | executing .. | settling .. | yielding _ | policy .. | policySet | locking ..
  | checking .. | groupDone _ => 1
  | replying _ _ _ last => if last then 0 else 1
  | awake | waiting | woken | exited | groupReply _ => 0

/-- Whether a worker serves the mailbox of a document. -/
def serves (a : Nat) : Worker → Nat
  | loop b _ | executing b _ _ | settling b _ _ | replying b _ _ false | yielding b =>
    if a = b then 1 else 0
  | _ => 0

/-- The requests taken from a mailbox and not executed yet. -/
def running (a : Nat) : Worker → List Ticket
  | executing b _ ticket => if a = b then [ticket] else []
  | _ => []

/-- The requests of a document that are executed and not replied to yet. -/
def owes (a : Nat) : Worker → Multiset Ticket
  | settling b _ ticket | replying b _ ticket _ => if a = b then {ticket} else 0
  | _ => 0

/-- The group that has not run yet. -/
def groups : Worker → Multiset Ticket
  | locking request _ _ | checking request _ _ => {request.ticket}
  | _ => 0

/-- The group that has run and is not replied to yet. -/
def groupOwes : Worker → Multiset Ticket
  | groupDone request | groupReply request => {request.ticket}
  | _ => 0

/-- The documents whose state a worker holds. -/
def holds : Worker → List Nat
  | executing a _ _ | settling a _ _ => [a]
  | locking _ locked _ | checking _ locked _ => locked
  | _ => []

/-- A worker that sleeps or is gone does not take work. -/
def active : Worker → Bool
  | waiting | exited => false
  | _ => true

end Worker

/-- A contribution only of workers that have taken work. -/
structure Quiet {M : Type} [Zero M] (f : Worker → M) : Prop where
  awake : f .awake = 0
  waiting : f .waiting = 0
  woken : f .woken = 0

namespace Quiet

variable {M : Type} {n : Nat}

theorem notified [Zero M] {f : Worker → M} (h : Quiet f) (x : Worker) :
    f x.notified = f x := by
  cases x <;> first | rfl | exact h.woken.trans h.waiting.symm

theorem slots : Quiet Worker.slots := ⟨rfl, rfl, rfl⟩

theorem serves (a : Nat) : Quiet (Worker.serves a) := ⟨rfl, rfl, rfl⟩

theorem owes (a : Nat) : Quiet (Worker.owes a) := ⟨rfl, rfl, rfl⟩

theorem groups : Quiet Worker.groups := ⟨rfl, rfl, rfl⟩

theorem groupOwes : Quiet Worker.groupOwes := ⟨rfl, rfl, rfl⟩

end Quiet

/-- The groups in the ready queue. -/
def queuedGroups (queue : List Work) : Multiset Ticket :=
  (queue.filterMap fun
    | .group request => some request.ticket
    | _ => none : List Ticket)

/-! ## §2 The invariant -/

namespace World

variable (w : World)

def mailbox (a : Nat) : Mailbox := (w.shared.cells a).mailbox

def holder (a : Nat) : Option Nat := (w.shared.cells a).holder

/-- The request of a document being executed, by the worker that holds its state. -/
def running (a : Nat) : List Ticket :=
  match w.holder a with
  | some i => (w.workers i).running a
  | none => []

end World

/-- How a scheduler accounts for its work. -/
structure Accounted (config : Config) (w : World) : Prop where
  /-- Admitted work is in the queue or in the hands of a worker. -/
  admitted : w.shared.ready.admitted =
    w.shared.ready.queue.length + tally w.started Worker.slots w.workers
  capacity : w.shared.ready.admitted ≤ config.capacity
  /-- A scheduled document is queued or served, once. -/
  scheduled : ∀ a, w.shared.ready.queue.count (.actor a) +
    tally w.started (Worker.serves a) w.workers = if (w.mailbox a).scheduled then 1 else 0
  pending : ∀ a, (w.mailbox a).queue ≠ [] → (w.mailbox a).scheduled = true
  retired : ∀ a, (w.mailbox a).retired = true → (w.mailbox a).scheduled = false
  fresh : ∀ a, w.documents ≤ a → (w.mailbox a).scheduled = false
  /-- Requests leave a mailbox in the order they came, and are executed in it. -/
  order : ∀ a, w.shared.trace.submitted a =
    w.shared.trace.executed a ++ w.running a ++ (w.mailbox a).queue
  replies : ∀ a, (w.shared.trace.executed a : Multiset Ticket) =
    w.shared.trace.completed a + tally w.started (Worker.owes a) w.workers
  groups : (w.shared.trace.groupsSubmitted : Multiset Ticket) =
    w.shared.trace.groupsRun + queuedGroups w.shared.ready.queue +
      tally w.started Worker.groups w.workers
  groupReplies : (w.shared.trace.groupsRun : Multiset Ticket) =
    w.shared.trace.groupsCompleted + tally w.started Worker.groupOwes w.workers
  tickets : ∀ a, (w.shared.trace.submitted a).Pairwise (· < ·) ∧
    ∀ ticket ∈ w.shared.trace.submitted a, ticket < w.shared.trace.issued
  groupTickets : w.shared.trace.groupsSubmitted.Pairwise (· < ·) ∧
    ∀ ticket ∈ w.shared.trace.groupsSubmitted, ticket < w.shared.trace.issued
  holder : ∀ a i, w.holder a = some i ↔ i < w.started ∧ a ∈ (w.workers i).holds
  /-- A group takes its members in ascending order. -/
  ordered : ∀ i < w.started, ∀ request locked rest,
    w.workers i = .locking request locked rest → (locked ++ rest).Pairwise (· < ·)
  distinct : ∀ request, .group request ∈ w.shared.ready.queue → request.members.Nodup
  exited : ∀ i < w.started, w.workers i = .exited →
    w.shared.ready.closed = true ∧ w.shared.ready.admitted = 0
  /-- Queued work has a worker that will look at the queue. -/
  attended : w.shared.ready.queue ≠ [] → ∃ i < w.started, (w.workers i).active = true

/-! ## §3 One section -/

/-- What one section of worker `i` can be. -/
inductive Section (i : Nat) (s : Shared) : Worker → Worker → Shared → Bool → Prop where
  | take {x : Worker} {work : Work} {rest : List Work} (idle : Nat)
      (hx : x = .awake ∨ x = .woken) (hqueue : s.ready.queue = work :: rest) :
      Section i s x (begin work) { s with ready := { s.ready with queue := rest, idle } } false
  | exit {x : Worker} (idle : Nat) (hx : x = .awake ∨ x = .woken) (hqueue : s.ready.queue = [])
      (hclosed : s.ready.closed = true) (hadmitted : s.ready.admitted = 0) :
      Section i s x .exited { s with ready := { s.ready with idle } } false
  | sleep {x : Worker} (idle : Nat) (hx : x = .awake ∨ x = .woken) (hqueue : s.ready.queue = []) :
      Section i s x .waiting { s with ready := { s.ready with idle } } false
  | start {a served ticket : Nat} {rest : List Ticket} (hfree : (s.cells a).holder = none)
      (hqueue : (s.cells a).mailbox.queue = ticket :: rest) :
      Section i s (.loop a served) (.executing a served ticket)
        (s.setCell a { s.cells a with
          holder := some i, mailbox := { (s.cells a).mailbox with queue := rest } }) false
  | release {a served : Nat} (hfree : (s.cells a).holder = none)
      (hqueue : (s.cells a).mailbox.queue = []) :
      Section i s (.loop a served) .awake
        ((s.setMailbox a { (s.cells a).mailbox with scheduled := false }).complete none) true
  | execute {a served ticket : Nat} :
      Section i s (.executing a served ticket) (.settling a (served + 1) ticket)
        { s with trace := { s.trace with
            executed := Shared.logged s.trace.executed a ticket } } false
  | settleLast {a served ticket : Nat} (hqueue : (s.cells a).mailbox.queue = []) :
      Section i s (.settling a served ticket) (.replying a served ticket true)
        ((s.setCell a { s.cells a with
          holder := none,
          mailbox := { (s.cells a).mailbox with scheduled := false } }).complete none) true
  | settle {a served ticket : Nat} (hqueue : (s.cells a).mailbox.queue ≠ []) :
      Section i s (.settling a served ticket) (.replying a served ticket false)
        (s.setHolder a none) false
  | reply {a served ticket : Nat} {last : Bool} {x' : Worker}
      (hx' : last = true ∧ x' = .awake ∨
        last = false ∧ (x' = .yielding a ∨ x' = .loop a served)) :
      Section i s (.replying a served ticket last) x'
        { s with trace := { s.trace with
            completed := Shared.logged s.trace.completed a ticket } } false
  | yield {a : Nat} : Section i s (.yielding a) .awake (s.complete (some (.actor a))) true
  | policy {a maxChanges : Nat} (n : Nat) (hfree : (s.cells a).holder = none) :
      Section i s (.policy a maxChanges) .policySet
        (s.setCell a { s.cells a with maxChanges := n }) false
  | policySet : Section i s .policySet .awake (s.complete none) true
  | lock {request : GroupRequest} {locked rest : List Nat} {a : Nat}
      (hfree : (s.cells a).holder = none) :
      Section i s (.locking request locked (a :: rest)) (.locking request (locked ++ [a]) rest)
        (s.setHolder a (some i)) false
  | locked {request : GroupRequest} {locked : List Nat} :
      Section i s (.locking request locked []) (.checking request locked locked) s false
  | check {request : GroupRequest} {locked rest : List Nat} {a : Nat} :
      Section i s (.checking request locked (a :: rest)) (.checking request locked rest) s false
  | run {request : GroupRequest} {locked rest : List Nat} :
      Section i s (.checking request locked rest) (.groupDone request)
        (s.groupRan request locked) false
  | groupDone {request : GroupRequest} :
      Section i s (.groupDone request) (.groupReply request) (s.complete none) true
  | groupReply {request : GroupRequest} :
      Section i s (.groupReply request) .awake
        { s with trace := { s.trace with
            groupsCompleted := s.trace.groupsCompleted ++ [request.ticket] } } false

section Advance

variable {i : Nat} {s s' : Shared} {x x' : Worker} {notifies : Bool}

theorem next_section (idle : Nat) (hx : x = .awake ∨ x = .woken)
    (h : ({ s with ready := { s.ready with idle } } : Shared).next = (x', s')) :
    Section i s x x' s' false := by
  rw [Shared.next] at h
  split at h
  · next work rest hqueue =>
    cases h
    exact .take idle hx hqueue
  · next hqueue =>
    split at h
    · next hdone =>
      cases h
      rw [Bool.and_eq_true, beq_iff_eq] at hdone
      exact .exit idle hx hqueue hdone.1 hdone.2
    · cases h
      exact .sleep _ hx hqueue

/-- Every section is one of these. -/
theorem advance_section (h : advance i s x = some (x', s', notifies)) :
    Section i s x x' s' notifies := by
  cases x with
  | waiting => cases h
  | exited => cases h
  | awake =>
    cases h
    exact next_section s.ready.idle (Or.inl rfl) rfl
  | woken =>
    cases h
    exact next_section (s.ready.idle - 1) (Or.inr rfl) rfl
  | loop a served =>
    simp only [advance] at h
    split at h
    · cases h
    next hfree =>
    have hfree : (s.cells a).holder = none := by simpa using hfree
    split at h
    · next ticket rest hqueue =>
      cases h
      exact .start hfree hqueue
    · next hqueue =>
      cases h
      exact .release hfree hqueue
  | executing a served ticket =>
    cases h
    exact .execute
  | settling a served ticket =>
    simp only [advance] at h
    split at h
    · next hqueue =>
      cases h
      exact .settleLast (List.isEmpty_iff.mp hqueue)
    · next hqueue =>
      cases h
      exact .settle fun hnil => hqueue (List.isEmpty_iff.mpr hnil)
  | replying a served ticket last =>
    simp only [advance] at h
    split at h
    · next hlast =>
      cases h
      exact .reply (Or.inl ⟨hlast, rfl⟩)
    · next hlast =>
      have hlast : last = false := by simpa using hlast
      split at h
      · cases h
        exact .reply (Or.inr ⟨hlast, Or.inl rfl⟩)
      · cases h
        exact .reply (Or.inr ⟨hlast, Or.inr rfl⟩)
  | yielding a =>
    cases h
    exact .yield
  | policy a maxChanges =>
    simp only [advance] at h
    split at h
    · cases h
    next hfree =>
    have hfree : (s.cells a).holder = none := by simpa using hfree
    split at h
    · cases h
      -- A retired document keeps its policy.
      have hsame : s.setCell a { s.cells a with maxChanges := (s.cells a).maxChanges } = s := by
        rw [Shared.setCell, Function.update_eq_self]
      have hsection : Section i s (.policy a maxChanges) .policySet _ false :=
        .policy (s.cells a).maxChanges hfree
      rwa [hsame] at hsection
    · cases h
      exact .policy _ hfree
  | policySet =>
    cases h
    exact .policySet
  | locking request locked rest =>
    cases rest with
    | nil =>
      cases h
      exact .locked
    | cons a rest =>
      simp only [advance] at h
      split at h
      · cases h
      next hfree =>
      cases h
      exact .lock (by simpa using hfree)
  | checking request locked rest =>
    cases rest with
    | nil =>
      cases h
      exact .run
    | cons a rest =>
      simp only [advance] at h
      split at h
      · cases h
        exact .run
      · cases h
        exact .check
  | groupDone request =>
    cases h
    exact .groupDone
  | groupReply request =>
    cases h
    exact .groupReply

theorem begin_slots (work : Work) : (begin work).slots = 1 := by cases work <;> rfl

theorem begin_serves (work : Work) (a : Nat) :
    (begin work).serves a = if work = .actor a then 1 else 0 := by
  cases work with
  | actor b => simp [begin, Worker.serves, eq_comm]
  | historyPolicy b maxChanges => simp [begin, Worker.serves]
  | group request => simp [begin, Worker.serves]

/-- Slots are passed on with the work, or given up one by one. -/
theorem Section.slots (h : Section i s x x' s' notifies) (hheld : x.slots ≤ s.ready.admitted) :
    s'.ready.admitted + s.ready.queue.length + x.slots =
        s.ready.admitted + s'.ready.queue.length + x'.slots ∧
      s'.ready.admitted ≤ s.ready.admitted := by
  cases h with
  | take idle hx hqueue =>
    have hnone : x.slots = 0 := by rcases hx with rfl | rfl <;> rfl
    simp only [hqueue, begin_slots, hnone, List.length_cons]
    omega
  | exit idle hx hqueue hclosed hadmitted => rcases hx with rfl | rfl <;> simp [Worker.slots]
  | sleep idle hx hqueue => rcases hx with rfl | rfl <;> simp [Worker.slots]
  | reply hx' =>
    rcases hx' with ⟨rfl, rfl⟩ | ⟨rfl, rfl | rfl⟩ <;> simp [Worker.slots]
  | yield =>
    simp only [Worker.slots, Shared.complete_some_queue, Shared.complete_some_admitted,
      List.length_append, List.length_singleton]
    omega
  | release | settleLast | policySet | groupDone =>
    simp only [Worker.slots] at hheld
    simp only [Worker.slots, Shared.complete_none_queue, Shared.complete_none_admitted,
      Shared.setMailbox_ready, Shared.setCell_ready, if_true]
    omega
  | start | execute | settle | policy | lock | locked | check | run | groupReply =>
    simp [Worker.slots]

/-- A document is passed on with its flag, which goes when its mailbox is empty. -/
theorem Section.serves (h : Section i s x x' s' notifies) (a : Nat)
    (hflag : x.serves a = 1 → (s.cells a).mailbox.scheduled = true) :
    s'.ready.queue.count (.actor a) + x'.serves a +
        (if (s.cells a).mailbox.scheduled then 1 else 0) =
      s.ready.queue.count (.actor a) + x.serves a +
        (if (s'.cells a).mailbox.scheduled then 1 else 0) := by
  cases h with
  | @take _ work rest idle hx hqueue =>
    have hnone : x.serves a = 0 := by rcases hx with rfl | rfl <;> rfl
    simp only [hqueue, begin_serves, hnone, List.count_cons, beq_iff_eq, Nat.add_zero]
  | exit idle hx hqueue hclosed hadmitted => rcases hx with rfl | rfl <;> rfl
  | sleep idle hx hqueue => rcases hx with rfl | rfl <;> rfl
  | reply hx' =>
    rcases hx' with ⟨rfl, rfl⟩ | ⟨rfl, rfl | rfl⟩ <;> simp [Worker.serves]
  | @yield b =>
    rw [Shared.complete_some_queue, List.count_append, List.count_singleton, Shared.complete_cells]
    by_cases hb : b = a
    · subst hb
      simp [Worker.serves]
    · simp [Worker.serves, hb, Ne.symm hb]
  | @release b served hfree hqueue =>
    by_cases hb : a = b
    · subst hb
      simp [Worker.serves, Shared.setMailbox, hflag (by simp [Worker.serves])]
    · simp [Worker.serves, Shared.setMailbox, Shared.setCell_ne _ _ hb, hb]
  | @settleLast b served ticket hqueue =>
    by_cases hb : a = b
    · subst hb
      simp [Worker.serves, hflag (by simp [Worker.serves])]
    · simp [Worker.serves, Shared.setCell_ne _ _ hb, hb]
  | @start b | @policy b =>
    by_cases hb : a = b
    · subst hb
      simp [Worker.serves]
    · simp [Worker.serves, Shared.setCell_ne _ _ hb, hb]
  | settle | lock | run | execute | locked | check | groupReply | policySet | groupDone =>
    simp [Worker.serves]

@[simp] theorem logged_self (log : Nat → List Ticket) (a : Nat) (ticket : Ticket) :
    Shared.logged log a ticket a = log a ++ [ticket] := Function.update_self ..

theorem logged_ne {a b : Nat} (log : Nat → List Ticket) (ticket : Ticket) (h : b ≠ a) :
    Shared.logged log a ticket b = log b := Function.update_of_ne h ..

/-- Executed requests are owed a reply until they have it. -/
theorem Section.replies (h : Section i s x x' s' notifies) (a : Nat) :
    (s'.trace.executed a : Multiset Ticket) + s.trace.completed a + x.owes a =
      s.trace.executed a + s'.trace.completed a + x'.owes a := by
  cases h with
  | @take _ work rest idle hx hqueue =>
    have hnone : x.owes a = 0 := by rcases hx with rfl | rfl <;> rfl
    have hbegin : (begin work).owes a = 0 := by cases work <;> rfl
    rw [hnone, hbegin]
  | exit idle hx hqueue hclosed hadmitted => rcases hx with rfl | rfl <;> rfl
  | sleep idle hx hqueue => rcases hx with rfl | rfl <;> rfl
  | @execute b served ticket =>
    by_cases hb : a = b
    · subst hb
      simp only [logged_self, Worker.owes, if_true, ← Multiset.coe_add, Multiset.coe_singleton]
      abel
    · simp [Worker.owes, hb, logged_ne _ _ hb]
  | @reply b served ticket last _ hx' =>
    have hnone : x'.owes a = 0 := by rcases hx' with ⟨-, rfl⟩ | ⟨-, rfl | rfl⟩ <;> rfl
    rw [hnone]
    by_cases hb : a = b
    · subst hb
      simp only [logged_self, Worker.owes, if_true, ← Multiset.coe_add, Multiset.coe_singleton]
      abel
    · simp [Worker.owes, hb, logged_ne _ _ hb]
  | start | release | settle | settleLast | yield | policy | policySet | lock | locked | check
  | groupDone | groupReply => simp [Worker.owes]
  | run => simp [Worker.owes, Shared.groupRan]

theorem queuedGroups_cons (work : Work) (rest : List Work) :
    queuedGroups (work :: rest) = (begin work).groups + queuedGroups rest := by
  cases work <;> simp [queuedGroups, begin, Worker.groups]

theorem queuedGroups_append (front back : List Work) :
    queuedGroups (front ++ back) = queuedGroups front + queuedGroups back := by
  simp [queuedGroups, List.filterMap_append]

/-- Groups stay in the queue or with a worker until they have run. -/
theorem Section.groups (h : Section i s x x' s' notifies) :
    (s'.trace.groupsRun : Multiset Ticket) + queuedGroups s'.ready.queue + x'.groups =
      s.trace.groupsRun + queuedGroups s.ready.queue + x.groups := by
  cases h with
  | @take _ work rest idle hx hqueue =>
    have hnone : x.groups = 0 := by rcases hx with rfl | rfl <;> rfl
    rw [hnone, hqueue, queuedGroups_cons]
    abel
  | exit idle hx hqueue hclosed hadmitted => rcases hx with rfl | rfl <;> rfl
  | sleep idle hx hqueue => rcases hx with rfl | rfl <;> rfl
  | reply hx' => rcases hx' with ⟨-, rfl⟩ | ⟨-, rfl | rfl⟩ <;> rfl
  | yield =>
    rw [Shared.complete_some_queue, queuedGroups_append]
    simp [Worker.groups, queuedGroups]
  | run =>
    simp only [Shared.groupRan, Worker.groups, ← Multiset.coe_add, Multiset.coe_singleton]
    abel
  | start | release | execute | settle | settleLast | policy | policySet | lock | locked | check
  | groupDone | groupReply => simp [Worker.groups]

theorem Section.groupReplies (h : Section i s x x' s' notifies) :
    (s'.trace.groupsRun : Multiset Ticket) + s.trace.groupsCompleted + x.groupOwes =
      s.trace.groupsRun + s'.trace.groupsCompleted + x'.groupOwes := by
  cases h with
  | @take _ work rest idle hx hqueue =>
    have hnone : x.groupOwes = 0 := by rcases hx with rfl | rfl <;> rfl
    have hbegin : (begin work).groupOwes = 0 := by cases work <;> rfl
    rw [hnone, hbegin]
  | exit idle hx hqueue hclosed hadmitted => rcases hx with rfl | rfl <;> rfl
  | sleep idle hx hqueue => rcases hx with rfl | rfl <;> rfl
  | reply hx' => rcases hx' with ⟨-, rfl⟩ | ⟨-, rfl | rfl⟩ <;> rfl
  | run =>
    simp only [Shared.groupRan, Worker.groupOwes, ← Multiset.coe_add, Multiset.coe_singleton]
    abel
  | groupReply =>
    simp only [Worker.groupOwes, ← Multiset.coe_add, Multiset.coe_singleton]
    abel
  | start | release | execute | settle | settleLast | yield | policy | policySet | lock | locked
  | check | groupDone => simp [Worker.groupOwes]

/-- A worker takes the states it holds itself, and nobody else's. -/
theorem Section.holder (h : Section i s x x' s' notifies)
    (hholds : ∀ a, (s.cells a).holder = some i ↔ a ∈ x.holds) (a j : Nat) :
    (s'.cells a).holder = some j ↔
      if j = i then a ∈ x'.holds else (s.cells a).holder = some j := by
  have hsame (hx' : x'.holds = x.holds) (hs' : (s'.cells a).holder = (s.cells a).holder) :
      (s'.cells a).holder = some j ↔
        if j = i then a ∈ x'.holds else (s.cells a).holder = some j := by
    rw [hs', hx']
    split
    · next hj => rw [hj, hholds]
    · rfl
  cases h with
  | @take _ work rest idle hx hqueue =>
    refine hsame ?_ rfl
    rcases hx with rfl | rfl <;> cases work <;> rfl
  | exit idle hx hqueue hclosed hadmitted =>
    refine hsame ?_ rfl
    rcases hx with rfl | rfl <;> rfl
  | sleep idle hx hqueue =>
    refine hsame ?_ rfl
    rcases hx with rfl | rfl <;> rfl
  | reply hx' =>
    refine hsame ?_ rfl
    rcases hx' with ⟨-, rfl⟩ | ⟨-, rfl | rfl⟩ <;> rfl
  | release => exact hsame rfl (by simp)
  | yield | policySet | groupDone => exact hsame rfl (by simp)
  | execute | locked | check | groupReply => exact hsame rfl rfl
  | @policy b =>
    refine hsame rfl ?_
    by_cases hb : a = b
    · subst hb
      simp
    · rw [Shared.setCell_ne _ _ hb]
  | @start b served ticket rest hfree hqueue | @lock _ _ _ b hfree =>
    by_cases hb : a = b
    · subst hb
      simp only [Worker.holds, Shared.setHolder, Shared.setCell_self, hfree, Option.some.injEq,
        List.mem_append, List.mem_singleton, or_true, reduceCtorEq]
      split
      · next hj => simp [hj]
      · next hj => simpa using fun heq => hj heq.symm
    · simp only [Worker.holds, Shared.setHolder, Shared.setCell_ne _ _ hb, List.mem_append,
        List.mem_singleton, hb, or_false]
      split
      · next hj =>
        subst hj
        simpa [Worker.holds] using hholds a
      · rfl
  | @settleLast b served ticket | @settle b served ticket =>
    have hown : (s.cells b).holder = some i := (hholds b).mpr (List.mem_singleton_self b)
    by_cases hb : a = b
    · subst hb
      simp only [Worker.holds, Shared.complete_cells, Shared.setHolder, Shared.setCell_self,
        List.not_mem_nil, hown, Option.some.injEq, reduceCtorEq]
      split
      · rfl
      · next hj => simpa using fun heq => hj heq.symm
    · simp only [Worker.holds, Shared.complete_cells, Shared.setHolder, Shared.setCell_ne _ _ hb,
        List.not_mem_nil]
      split
      · next hj =>
        subst hj
        simpa [Worker.holds, hb] using hholds a
      · rfl
  | @run request locked rest =>
    have hown := hholds a
    simp only [Worker.holds] at hown
    simp only [Shared.groupRan_holder, Worker.holds, List.not_mem_nil]
    by_cases hl : a ∈ locked
    · rw [if_pos hl, hown.mpr hl]
      split
      · simp
      · next hj => simpa using fun heq => hj heq.symm
    · rw [if_neg hl]
      split
      · next hj =>
        subst hj
        simpa [hl] using hown
      · rfl

/-- The request of a document in the hands of whoever holds it. -/
def inHand (i : Nat) (own : List Ticket) (others : Nat → List Ticket) :
    Option Nat → List Ticket
  | some j => if j = i then own else others j
  | none => []

/-- Requests go from the mailbox through the holder's hands into the log, in order. -/
theorem Section.order (h : Section i s x x' s' notifies)
    (hholds : ∀ a, (s.cells a).holder = some i ↔ a ∈ x.holds) (others : Nat → List Ticket)
    (a : Nat) :
    s'.trace.executed a ++ inHand i (x'.running a) others (s'.cells a).holder ++
        (s'.cells a).mailbox.queue =
      s.trace.executed a ++ inHand i (x.running a) others (s.cells a).holder ++
        (s.cells a).mailbox.queue := by
  cases h with
  | @take _ work rest idle hx hqueue =>
    have hnone : x.running a = [] := by rcases hx with rfl | rfl <;> rfl
    have hbegin : (begin work).running a = [] := by cases work <;> rfl
    rw [hnone, hbegin]
  | exit idle hx hqueue hclosed hadmitted => rcases hx with rfl | rfl <;> rfl
  | sleep idle hx hqueue => rcases hx with rfl | rfl <;> rfl
  | @start b served ticket rest hfree hqueue =>
    by_cases hb : a = b
    · subst hb
      simp [inHand, hfree, hqueue, Worker.running]
    · simp [Shared.setCell_ne _ _ hb, Worker.running, hb]
  | @execute b served ticket =>
    by_cases hb : a = b
    · subst hb
      have hown : (s.cells a).holder = some i := (hholds a).mpr (List.mem_singleton_self a)
      simp [inHand, hown, Worker.running]
    · simp [Worker.running, hb, logged_ne _ _ hb]
  | @settleLast b served ticket hqueue | @settle b served ticket hqueue =>
    by_cases hb : a = b
    · subst hb
      have hown : (s.cells a).holder = some i := (hholds a).mpr (List.mem_singleton_self a)
      simp [inHand, hown, Worker.running, Shared.setHolder]
    · simp [Worker.running, Shared.setHolder, Shared.setCell_ne _ _ hb]
  | reply hx' => rcases hx' with ⟨-, rfl⟩ | ⟨-, rfl | rfl⟩ <;> rfl
  | @release b served hfree hqueue =>
    by_cases hb : a = b
    · subst hb
      simp [Worker.running, Shared.setMailbox]
    · simp [Worker.running, Shared.setMailbox, Shared.setCell_ne _ _ hb]
  | @policy b =>
    by_cases hb : a = b
    · subst hb
      simp [Worker.running]
    · simp [Worker.running, Shared.setCell_ne _ _ hb]
  | @lock _ _ _ b hfree =>
    by_cases hb : a = b
    · subst hb
      simp [inHand, hfree, Worker.running, Shared.setHolder]
    · simp [Worker.running, Shared.setHolder, Shared.setCell_ne _ _ hb]
  | @run request locked rest =>
    have hown := hholds a
    simp only [Worker.holds] at hown
    rw [Shared.groupRan_holder, Shared.groupRan_mailbox]
    by_cases hl : a ∈ locked
    · simp [inHand, hl, hown.mpr hl, Worker.running, Shared.groupRan]
    · simp [hl, Worker.running, Shared.groupRan]
  | yield | policySet | locked | check | groupDone | groupReply => simp [Worker.running]

/-- What no section touches, and what it may only lower. -/
theorem Section.frame (h : Section i s x x' s' notifies) :
    s'.ready.closed = s.ready.closed ∧ s'.trace.issued = s.trace.issued ∧
      s'.trace.submitted = s.trace.submitted ∧
      s'.trace.groupsSubmitted = s.trace.groupsSubmitted := by
  cases h <;> exact ⟨rfl, rfl, rfl, rfl⟩

/-- A section lowers a flag with the last request only. -/
theorem Section.mailbox (h : Section i s x x' s' notifies) (a : Nat) :
    (s'.cells a).mailbox.retired = (s.cells a).mailbox.retired ∧
      ((s.cells a).mailbox.scheduled = false → (s'.cells a).mailbox.scheduled = false) ∧
      ((s'.cells a).mailbox.queue ≠ [] → (s.cells a).mailbox.queue ≠ [] ∧
        (s'.cells a).mailbox.scheduled = (s.cells a).mailbox.scheduled) := by
  cases h with
  | @start b served ticket rest hfree hqueue =>
    by_cases hb : a = b
    · subst hb
      simp [hqueue]
    · rw [Shared.setCell_ne _ _ hb]
      exact ⟨rfl, id, fun hne => ⟨hne, rfl⟩⟩
  | @release b served hfree hqueue =>
    by_cases hb : a = b
    · subst hb
      simp [Shared.setMailbox, hqueue]
    · rw [Shared.complete_cells, Shared.setMailbox, Shared.setCell_ne _ _ hb]
      exact ⟨rfl, id, fun hne => ⟨hne, rfl⟩⟩
  | @settleLast b served ticket hqueue =>
    by_cases hb : a = b
    · subst hb
      simp [hqueue]
    · rw [Shared.complete_cells, Shared.setCell_ne _ _ hb]
      exact ⟨rfl, id, fun hne => ⟨hne, rfl⟩⟩
  | @policy b =>
    by_cases hb : a = b
    · subst hb
      simp
    · rw [Shared.setCell_ne _ _ hb]
      exact ⟨rfl, id, fun hne => ⟨hne, rfl⟩⟩
  | settle | lock =>
    rw [Shared.setHolder_mailbox]
    exact ⟨rfl, id, fun hne => ⟨hne, rfl⟩⟩
  | run =>
    rw [Shared.groupRan_mailbox]
    exact ⟨rfl, id, fun hne => ⟨hne, rfl⟩⟩
  | yield | policySet | groupDone =>
    rw [Shared.complete_cells]
    exact ⟨rfl, id, fun hne => ⟨hne, rfl⟩⟩
  | take | exit | sleep | execute | reply | locked | check | groupReply =>
    exact ⟨rfl, id, fun hne => ⟨hne, rfl⟩⟩

/-- Only a request to yield puts anything into the queue. -/
theorem Section.queue (h : Section i s x x' s' notifies) {request : GroupRequest}
    (hmem : .group request ∈ s'.ready.queue) : .group request ∈ s.ready.queue := by
  cases h with
  | take idle hx hqueue =>
    rw [hqueue]
    exact List.mem_cons_of_mem _ hmem
  | yield => simpa using hmem
  | exit | sleep | start | release | execute | settle | settleLast | reply | policy | policySet
  | lock | locked | check | run | groupDone | groupReply => exact hmem

/-- A group starts with its members in ascending order, and takes them in that order. -/
theorem Section.ordered (h : Section i s x x' s' notifies)
    (hdistinct : ∀ request, .group request ∈ s.ready.queue → request.members.Nodup)
    (hx : ∀ request locked rest, x = .locking request locked rest →
      (locked ++ rest).Pairwise (· < ·)) :
    ∀ request locked rest, x' = .locking request locked rest →
      (locked ++ rest).Pairwise (· < ·) := by
  intro request locked rest hx'
  cases h with
  | @take _ work rest' idle _ hqueue =>
    cases work with
    | actor | historyPolicy => cases hx'
    | group r =>
      cases hx'
      rw [List.nil_append]
      have hsorted : (request.members.mergeSort fun a b => decide (a ≤ b)).Pairwise
          fun a b => decide (a ≤ b) = true := by
        apply List.pairwise_mergeSort
        · intro a b c hab hbc
          exact decide_eq_true (Nat.le_trans (of_decide_eq_true hab) (of_decide_eq_true hbc))
        · intro a b
          simpa using Nat.le_total a b
      have hnodup : (request.members.mergeSort fun a b => decide (a ≤ b)).Nodup :=
        (List.mergeSort_perm _ _).nodup_iff.mpr
          (hdistinct request (hqueue ▸ List.mem_cons_self))
      refine (hsorted.and hnodup).imp ?_
      rintro a b ⟨hle, hne⟩
      have hle := of_decide_eq_true hle
      omega
  | reply hx'' => rcases hx'' with ⟨-, rfl⟩ | ⟨-, rfl | rfl⟩ <;> cases hx'
  | lock =>
    cases hx'
    simpa using hx _ _ _ rfl
  | exit | sleep | start | release | execute | settle | settleLast | yield | policy | policySet
  | locked | check | run | groupDone | groupReply => cases hx'

/-- A worker rests only in front of an empty queue, and leaves only a closed scheduler. -/
theorem Section.rest (h : Section i s x x' s' notifies) :
    (x'.active = false → s'.ready.queue = []) ∧
      (x' = .exited → s.ready.closed = true ∧ s.ready.admitted = 0) := by
  cases h with
  | @take _ work => cases work <;> exact ⟨(fun h => nomatch h), fun h => nomatch h⟩
  | exit idle hx hqueue hclosed hadmitted => exact ⟨fun _ => hqueue, fun _ => ⟨hclosed, hadmitted⟩⟩
  | sleep idle hx hqueue => exact ⟨fun _ => hqueue, fun h => nomatch h⟩
  | reply hx' =>
    rcases hx' with ⟨-, rfl⟩ | ⟨-, rfl | rfl⟩ <;> exact ⟨(fun h => nomatch h), fun h => nomatch h⟩
  | start | release | execute | settle | settleLast | yield | policy | policySet | lock | locked
  | check | run | groupDone | groupReply => exact ⟨(fun h => nomatch h), fun h => nomatch h⟩

end Advance

/-! ## §4 Sections keep the invariant -/

theorem running_notified (a : Nat) (x : Worker) : x.notified.running a = x.running a := by
  cases x <;> rfl

theorem holds_notified (x : Worker) : x.notified.holds = x.holds := by cases x <;> rfl

section World

variable {config : Config} {w w' : World} {i : Nat}

/-- The other workers as a section leaves them: perhaps notified. -/
def beside (w : World) (notifies : Bool) : Nat → Worker :=
  if notifies then fun j => (w.workers j).notified else w.workers

theorem beside_keeps {β : Type} {f : Worker → β} (hf : ∀ x : Worker, f x.notified = f x)
    (w : World) (notifies : Bool) (j : Nat) : f (beside w notifies j) = f (w.workers j) := by
  cases notifies with
  | false => rfl
  | true => exact hf _

theorem of_beside {y : Worker} (hy : y ≠ .woken) {notifies : Bool} {j : Nat}
    (h : beside w notifies j = y) : w.workers j = y := by
  cases notifies with
  | false => exact h
  | true =>
    have h : (w.workers j).notified = y := h
    cases hx : w.workers j <;> rw [hx] at h <;> first | exact h | exact absurd h.symm hy

theorem work_some (h : w.work i = some w') :
    i < w.started ∧ ∃ x' s' notifies, Section i w.shared (w.workers i) x' s' notifies ∧
      w' = { w with shared := s', workers := Function.update (beside w notifies) i x' } := by
  rw [World.work] at h
  split at h
  · next hi =>
    obtain ⟨⟨x', s', notifies⟩, hadvance, rfl⟩ := Option.map_eq_some_iff.mp h
    exact ⟨hi, x', s', notifies, advance_section hadvance, rfl⟩
  · cases h

/-- What the workers hold together changes by what the moving one gains and loses. -/
theorem tally_work {M : Type} [AddCommMonoid M] {f : Worker → M} (hf : Quiet f)
    (hi : i < w.started) (x' : Worker) (notifies : Bool) :
    tally w.started f (Function.update (beside w notifies) i x') + f (w.workers i) =
      tally w.started f w.workers + f x' := by
  have h := tally_update hi f (beside w notifies) x'
  rw [beside_keeps hf.notified] at h
  rw [h, tally_congr fun j _ => beside_keeps hf.notified w notifies j]

/-- A worker that serves a document holds its flag. -/
theorem Accounted.serves_scheduled (h : Accounted config w) (hi : i < w.started) {a : Nat}
    (hserves : (w.workers i).serves a = 1) : (w.mailbox a).scheduled = true := by
  have hcount := h.scheduled a
  have hle := le_tally hi (Worker.serves a) w.workers
  by_contra hflag
  rw [if_neg hflag] at hcount
  omega

theorem running_eq (w : World) (i a : Nat) :
    w.running a = inHand i ((w.workers i).running a) (fun j => (w.workers j).running a)
      (w.shared.cells a).holder := by
  rw [World.running, World.holder]
  cases (w.shared.cells a).holder with
  | none => rfl
  | some j =>
    simp only [inHand]
    split
    · next hj => rw [hj]
    · rfl

theorem running_update (w : World) (i a : Nat) (x' : Worker) (s' : Shared) (notifies : Bool) :
    World.running { w with
        shared := s', workers := Function.update (beside w notifies) i x' } a =
      inHand i (x'.running a) (fun j => (w.workers j).running a) (s'.cells a).holder := by
  rw [World.running, World.holder]
  cases (s'.cells a).holder with
  | none => rfl
  | some j =>
    simp only [inHand]
    split
    · next hj => rw [hj, Function.update_self]
    · next hj =>
      rw [Function.update_of_ne hj]
      exact beside_keeps (running_notified a) w notifies j

theorem Accounted.work (h : Accounted config w) (hwork : w.work i = some w') :
    Accounted config w' := by
  obtain ⟨hi, x', s', notifies, hsection, rfl⟩ := work_some hwork
  have hheld : (w.workers i).slots ≤ w.shared.ready.admitted := by
    rw [h.admitted]
    exact Nat.le_trans (le_tally hi Worker.slots w.workers) (Nat.le_add_left _ _)
  have hholds : ∀ a, (w.shared.cells a).holder = some i ↔ a ∈ (w.workers i).holds := by
    intro a
    rw [show (w.shared.cells a).holder = w.holder a from rfl, h.holder]
    exact and_iff_right hi
  obtain ⟨hslots, hadmitted⟩ := hsection.slots hheld
  obtain ⟨hclosed, hissued, hsubmitted, hgroups⟩ := hsection.frame
  obtain ⟨hrest, hexited⟩ := hsection.rest
  constructor
  case admitted =>
    have hold := h.admitted
    have hall := tally_work Quiet.slots hi x' notifies
    dsimp only
    omega
  case capacity => exact Nat.le_trans hadmitted h.capacity
  case scheduled =>
    intro a
    have hold : _ = if (w.shared.cells a).mailbox.scheduled then 1 else 0 := h.scheduled a
    have hone := hsection.serves a fun hserves => h.serves_scheduled hi hserves
    have hall := tally_work (Quiet.serves a) hi x' notifies
    show s'.ready.queue.count (.actor a) +
      tally w.started (Worker.serves a) (Function.update (beside w notifies) i x') =
        if (s'.cells a).mailbox.scheduled then 1 else 0
    omega
  case pending =>
    intro a hne
    obtain ⟨-, -, hkeep⟩ := hsection.mailbox a
    obtain ⟨hold, hsame⟩ := hkeep hne
    exact hsame.trans (h.pending a hold)
  case retired =>
    intro a hretired
    obtain ⟨hsame, hlow, -⟩ := hsection.mailbox a
    exact hlow (h.retired a (hsame.symm.trans hretired))
  case fresh =>
    intro a ha
    exact (hsection.mailbox a).2.1 (h.fresh a ha)
  case order =>
    intro a
    have hone := hsection.order hholds (fun j => (w.workers j).running a) a
    rw [running_update]
    show s'.trace.submitted a = _ ++ _ ++ (s'.cells a).mailbox.queue
    rw [hone, ← running_eq, hsubmitted]
    exact h.order a
  case replies =>
    intro a
    exact balance (h.replies a) (hsection.replies a) (tally_work (Quiet.owes a) hi x' notifies)
  case groups =>
    show (s'.trace.groupsSubmitted : Multiset Ticket) = _
    rw [hgroups]
    exact balance_kept h.groups hsection.groups (tally_work Quiet.groups hi x' notifies)
  case groupReplies =>
    exact balance h.groupReplies hsection.groupReplies (tally_work Quiet.groupOwes hi x' notifies)
  case tickets =>
    show ∀ a, (s'.trace.submitted a).Pairwise (· < ·) ∧
      ∀ ticket ∈ s'.trace.submitted a, ticket < s'.trace.issued
    rw [hsubmitted, hissued]
    exact h.tickets
  case groupTickets =>
    show s'.trace.groupsSubmitted.Pairwise (· < ·) ∧
      ∀ ticket ∈ s'.trace.groupsSubmitted, ticket < s'.trace.issued
    rw [hgroups, hissued]
    exact h.groupTickets
  case holder =>
    intro a j
    show (s'.cells a).holder = some j ↔ j < w.started ∧
      a ∈ (Function.update (beside w notifies) i x' j).holds
    rw [hsection.holder hholds a j]
    by_cases hj : j = i
    · subst hj
      rw [if_pos rfl, Function.update_self]
      exact (and_iff_right hi).symm
    · rw [if_neg hj, Function.update_of_ne hj, beside_keeps holds_notified]
      exact h.holder a j
  case ordered =>
    intro j hj request locked rest hlocking
    dsimp only at hlocking
    by_cases heq : j = i
    · subst heq
      rw [Function.update_self] at hlocking
      exact hsection.ordered h.distinct (h.ordered j hj) request locked rest hlocking
    · rw [Function.update_of_ne heq] at hlocking
      exact h.ordered j hj request locked rest (of_beside (by simp) hlocking)
  case distinct =>
    intro request hmem
    exact h.distinct request (hsection.queue hmem)
  case exited =>
    intro j hj hexit
    dsimp only at hexit ⊢
    by_cases heq : j = i
    · subst heq
      rw [Function.update_self] at hexit
      obtain ⟨hc, ha⟩ := hexited hexit
      exact ⟨hclosed.trans hc, by omega⟩
    · rw [Function.update_of_ne heq] at hexit
      obtain ⟨hc, ha⟩ := h.exited j hj (of_beside (by simp) hexit)
      exact ⟨hclosed.trans hc, by omega⟩
  case attended =>
    intro hne
    refine ⟨i, hi, ?_⟩
    dsimp only
    rw [Function.update_self]
    by_contra hidle
    exact hne (hrest (by simpa using hidle))

end World

end BareLine.Service
