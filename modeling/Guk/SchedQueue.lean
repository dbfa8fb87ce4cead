import Guk.Runs
import Guk.Sched

/-!
# Ready queue, joiners and zombies (`sched.c`)

One list node of a thread, `ready_list`, serves the ready queue, the list of
joiners of another thread, and the queue of zombies. The first is protected by
`ready_lock`, the other two by `zombie_lock`, and each stretch of code under a lock
is one step.

A list is the sequence of its threads. `list_del_init` drops a thread from the
list it is in, `list_add_tail` appends it; a thread that is in two lists stands for
a node whose old list has been corrupted by the second insertion.
-/
namespace Guk.SchedQueue

open Runs Sched Function

inductive Pc where
  | normal
  /-- after `block(current)`, before the return from `schedule` -/
  | blocked
  /-- in `guk_join_thread`, with `zombie_lock`, blocked and not linked yet -/
  | joinLink (joinee : Tid)
  | joinWait (joinee : Tid)
  /-- in `exit_thread`, blocked and not linked yet -/
  | exitLink
  | exited
  deriving DecidableEq, Repr

inductive ZombieLock where
  | free
  | joining
  /-- `wake_joiners(joinee)` -/
  | waking (joinee : Tid)
  /-- `wake_joiners(joinee)` has unlinked `thread` and not yet woken it -/
  | wakeOne (joinee thread : Tid)
  deriving DecidableEq, Repr

inductive Interrupt where
  | idle
  | unlink (thread : Tid)
  | wake (thread : Tid)
  deriving DecidableEq, Repr

structure State extends Ready where
  zombieQueue : List Tid
  joiners : Tid → List Tid
  reaped : Tid → Bool
  zombieLock : ZombieLock
  pc : Nat → Pc
  interrupt : Nat → Interrupt
  /-- the thread has a timer in the sleep queue -/
  armed : Nat → Bool

inductive Label where
  | block (t : Nat)
  | resume (t : Nat)
  | wake (t : Nat)
  /-- also the section of a `guk_wake` that made its tests earlier -/
  | dbWake (t : Nat)
  | addTimer (t : Nat)
  | wakeExpired (t : Nat)
  /-- `pick_thread` on a CPU; `prev` is a task, or `none` for the idle thread -/
  | pick (cpu : Nat) (prev : Option Nat)
  | clearRunning (t : Tid)
  | setCpu (t : Tid) (cpu : Nat)
  | join (t : Nat) (joinee : Tid)
  | joinLink (t : Nat)
  | exit (t : Nat)
  | exitLink (t : Nat)
  | wakeJoiners
  | reap (cpu : Nat) (t : Tid)
  | interrupt (k t : Nat)
  | interruptStep (k : Nat)
  deriving Repr

def setPc (s : State) (t : Nat) (pc : Pc) : State := { s with pc := update s.pc t pc }

def setInterrupt (s : State) (k : Nat) (i : Interrupt) : State :=
  { s with interrupt := update s.interrupt k i }

def setJoining (s : State) (t : Tid) (b : Bool) : State :=
  { s with toReady := s.setThread t { s.thread t with joining := b } }

def setDying (s : State) (t : Tid) : State :=
  { s with toReady := s.setThread t { s.thread t with dying := true } }

def setInterrupted (s : State) (t : Tid) : State :=
  { s with toReady := s.setThread t { s.thread t with interrupted := true } }

def unlink (s : State) (t : Tid) : State :=
  { s with
    readyQueue := s.readyQueue.filter (· ≠ t)
    zombieQueue := s.zombieQueue.filter (· ≠ t)
    joiners := fun j => (s.joiners j).filter (· ≠ t) }

def addJoiner (s : State) (j t : Tid) : State :=
  { s with joiners := update s.joiners j (s.joiners j ++ [t]) }

def wake (s : State) (t : Tid) : Option State := (s.gukWake t).map fun r => { s with toReady := r }

def startWakeJoiners (s : State) (t : Tid) : State :=
  { s with zombieLock := if s.joiners t = [] then .free else .waking t }

def stepWakeJoiners (s : State) : Option State :=
  match s.zombieLock with
  | .free | .joining => none
  | .waking j =>
    match s.joiners j with
    | [] => some { s with zombieLock := .free }
    | t :: _ => some { unlink (setJoining s t false) t with zombieLock := .wakeOne j t }
  | .wakeOne j t => (wake s t).map fun s => { s with zombieLock := .waking j }

def stepInterrupt (s : State) (k : Nat) : Option State :=
  match s.interrupt k with
  | .idle => none
  | .unlink t =>
    if s.zombieLock = .free then some (setInterrupt (setJoining (unlink s t) t false) k (.wake t))
    else none
  | .wake t => (wake (setInterrupted s t) t).map fun s => setInterrupt s k .idle

def step (s : State) : Label → Option State
  | .block t =>
    if s.pc t = .normal then some (setPc { s with toReady := s.block (.task t) } t .blocked)
      else none
  | .resume t =>
    if (s.thread (.task t)).runnable then
      match s.pc t with
      | .blocked | .joinWait _ => some (setPc s t .normal)
      | _ => none
    else none
  | .wake t => wake s (.task t)
  | .dbWake t => some { s with toReady := s.dbWake (.task t) }
  | .addTimer t =>
    if s.pc t = .normal ∨ s.pc t = .blocked then some { s with armed := update s.armed t true }
    else none
  | .wakeExpired t =>
    if s.armed t then
      (wake s (.task t)).map fun s => { s with armed := update s.armed t false }
    else none
  | .pick cpu prev =>
    let prev := match prev with
      | some t => .task t
      | none => .idle cpu
    some { s with toReady := (s.toReady.pickThread prev (.idle cpu) cpu).1 }
  | .clearRunning t => some { s with toReady := s.setRunning t false }
  | .setCpu t cpu => some { s with toReady := s.toReady.setCpu t cpu }
  | .join t j =>
    -- `is_dying(this_thread)` is false for a thread that runs
    if s.pc t = .normal ∧ s.zombieLock = .free ∧ (s.thread (.task t)).dying = false then
      some (setPc { s with toReady := s.block (.task t), zombieLock := .joining } t (.joinLink j))
    else none
  | .joinLink t =>
    match s.pc t with
    | .joinLink j =>
      some (setPc { addJoiner (setJoining s (.task t) true) j (.task t) with zombieLock := .free } t
        (.joinWait j))
    | _ => none
  | .exit t =>
    if s.pc t = .normal then some (setPc { s with toReady := s.block (.task t) } t .exitLink)
      else none
  | .exitLink t =>
    if s.pc t = .exitLink ∧ s.zombieLock = .free then
      some (startWakeJoiners (setPc
        { setDying s (.task t) with zombieQueue := s.zombieQueue ++ [.task t] } t .exited)
          (.task t))
    else none
  | .wakeJoiners => stepWakeJoiners s
  | .reap cpu t =>
    if s.zombieLock = .free ∧ t ∈ s.zombieQueue ∧ (s.thread t).dying ∧ ¬ (s.thread t).running ∧
        (s.thread t).cpu = cpu then
      some (startWakeJoiners { unlink s t with reaped := update s.reaped t true } t)
    else none
  | .interrupt k t =>
    if s.interrupt k = .idle ∧ (s.thread (.task t)).runnable = false ∧
        (s.thread (.task t)).running = false ∧ (s.thread (.task t)).dying = false then
      some (setInterrupt s k
        (if (s.thread (.task t)).joining then .unlink (.task t) else .wake (.task t)))
    else none
  | .interruptStep k => stepInterrupt s k

structure Initial (s : State) : Prop where
  flags : ∀ t, (s.thread t).runnable = false ∧ (s.thread t).joining = false ∧
    (s.thread t).dying = false
  readyQueue : s.readyQueue = []
  zombieQueue : s.zombieQueue = []
  joiners : ∀ t, s.joiners t = []
  reaped : ∀ t, s.reaped t = false
  zombieLock : s.zombieLock = .free
  pc : ∀ t, s.pc t = .blocked
  interrupt : ∀ k, s.interrupt k = .idle

def IsTask : Tid → Prop
  | .task _ => True
  | .idle _ => False

structure QueueMembership (s : State) : Prop where
  readyNodup : s.readyQueue.Nodup
  zombieNodup : s.zombieQueue.Nodup
  joinersNodup : ∀ j, (s.joiners j).Nodup
  oneJoinee : ∀ t i j, t ∈ s.joiners i → t ∈ s.joiners j → i = j
  readyJoiner : ∀ t j, t ∈ s.readyQueue → t ∉ s.joiners j
  readyZombie : ∀ t, t ∈ s.readyQueue → t ∉ s.zombieQueue
  joinerZombie : ∀ t j, t ∈ s.joiners j → t ∉ s.zombieQueue
  ready : ∀ t, t ∈ s.readyQueue ↔
    (s.thread t).runnable = true ∧ s.appScheduled t = false ∧ IsTask t
  joiner : ∀ t, (∃ j, t ∈ s.joiners j) ↔ (s.thread t).joining = true
  zombie : ∀ t, t ∈ s.zombieQueue ↔ (s.thread t).dying = true ∧ s.reaped t = false

def Wakeable (s : State) (t : Tid) : Prop :=
  (s.thread t).joining = false ∧ (s.thread t).dying = false ∧
    ∀ id, t = .task id → s.pc id ≠ .exitLink ∧ ∀ j, s.pc id ≠ .joinLink j

def safeStep (s : State) : Label → Prop
  | .wake t | .dbWake t | .wakeExpired t => Wakeable s (.task t)
  | .wakeJoiners =>
    match s.zombieLock with
    | .wakeOne _ t => Wakeable s t
    | _ => True
  | .interruptStep k =>
    match s.interrupt k with
    | .unlink t => (s.thread t).joining = true
    | .wake t => Wakeable s t
    | .idle => True
  | _ => True

end Guk.SchedQueue
