import Mathlib.Algebra.Group.Nat.Defs
import Mathlib.Data.List.Basic

/-!
# Threads and the ready queue (`sched.c`)

The flags and fields of `struct thread` that the scheduler reads, and the
sections of `block`, `db_wake` and `pick_thread` that run under `ready_lock`.
`list_del_init` drops a thread from the queue, `list_add_tail` appends it.
-/
namespace Guk.Sched

inductive Tid where
  | idle (cpu : Nat)
  | task (id : Nat)
  deriving DecidableEq, Repr

structure Thread where
  runnable : Bool
  running : Bool
  dying : Bool
  joining : Bool
  interrupted : Bool
  reqDebugSuspend : Bool
  debugSuspend : Bool
  ukernel : Bool
  appsched : Bool
  cpu : Nat
  deriving DecidableEq, Repr

def noCpu : Nat := 2 ^ 32 - 1

structure Ready where
  thread : Tid → Thread
  readyQueue : List Tid
  upcallsActive : Bool

namespace Ready

variable (s : Ready) {t : Tid}

def setThread (t : Tid) (th : Thread) : Ready := { s with thread := Function.update s.thread t th }

def setRunnable (t : Tid) (b : Bool) : Ready := s.setThread t { s.thread t with runnable := b }

def setRunning (t : Tid) (b : Bool) : Ready := s.setThread t { s.thread t with running := b }

def setCpu (t : Tid) (cpu : Nat) : Ready := s.setThread t { s.thread t with cpu := cpu }

def appScheduled (t : Tid) : Bool := s.upcallsActive && (s.thread t).appsched

def block (t : Tid) : Ready :=
  if (s.thread t).runnable then
    if s.appScheduled t then s.setRunnable t false
    else { s.setRunnable t false with readyQueue := s.readyQueue.filter (· ≠ t) }
  else s

def dbWake (t : Tid) : Ready :=
  if s.appScheduled t then s.setRunnable t true
  else if (s.thread t).runnable then s
  else { s.setRunnable t true with readyQueue := s.readyQueue ++ [t] }

def gukWake (t : Tid) : Option Ready :=
  if (s.thread t).debugSuspend then some s
  else if (s.thread t).reqDebugSuspend then
    some (s.setThread t { s.thread t with reqDebugSuspend := false, debugSuspend := true })
  else if (s.thread t).dying then none
  else if !(s.thread t).runnable || s.appScheduled t then some (s.dbWake t)
  else some s

def eligible (cpu : Nat) (t : Tid) : Bool :=
  (s.thread t).runnable && !((s.thread t).running && (s.thread t).cpu != cpu) &&
    (!s.upcallsActive || (s.thread t).ukernel || (s.thread t).cpu == cpu)

def rotate (prev idle : Tid) : Ready :=
  if !s.appScheduled prev && (s.thread prev).runnable && prev != idle then
    { s with readyQueue := s.readyQueue.filter (· ≠ prev) ++ [prev] }
  else s

def pickThread (prev idle : Tid) (cpu : Nat) : Ready × Option Tid :=
  let s := s.rotate prev idle
  match s.readyQueue.find? (s.eligible cpu) with
  | some next => (s.setRunning next true, some next)
  | none => (s, none)

@[simp] theorem setRunnable_readyQueue (t : Tid) (b : Bool) :
    (s.setRunnable t b).readyQueue = s.readyQueue := rfl

theorem setThread_thread (t u : Tid) (th : Thread) :
    (s.setThread t th).thread u = if u = t then th else s.thread u := by
  simp [setThread, Function.update_apply]

theorem setThread_apply (f : Thread → Thread) (t u : Tid) :
    (s.setThread t (f (s.thread t))).thread u =
    if u = t then f (s.thread u) else s.thread u := by
  rw [setThread_thread]
  split
  · rename_i h
    rw [h]
  · rfl

theorem setRunning_thread (t u : Tid) (b : Bool) : (s.setRunning t b).thread u =
    if u = t then { s.thread u with running := b } else s.thread u :=
  s.setThread_apply (fun th => { th with running := b }) t u

theorem setCpu_thread (t u : Tid) (cpu : Nat) : (s.setCpu t cpu).thread u =
    if u = t then { s.thread u with cpu := cpu } else s.thread u :=
  s.setThread_apply (fun th => { th with cpu := cpu }) t u

theorem setRunnable_thread (t u : Tid) (b : Bool) : (s.setRunnable t b).thread u =
    if u = t then { s.thread u with runnable := b } else s.thread u :=
  s.setThread_apply (fun th => { th with runnable := b }) t u

theorem setRunnable_eq {b : Bool} (h : (s.thread t).runnable = b) (u : Tid) :
    s.thread u = if u = t then { s.thread u with runnable := b } else s.thread u := by
  split
  · rename_i hu
    rw [hu, ← h]
  · rfl

theorem block_thread (t u : Tid) : (s.block t).thread u =
    if u = t then { s.thread u with runnable := false } else s.thread u := by
  unfold block
  split
  · split <;> exact s.setRunnable_thread t u false
  · rename_i hrun
    exact s.setRunnable_eq (Bool.eq_false_iff.mpr hrun) u

theorem dbWake_thread (t u : Tid) : (s.dbWake t).thread u =
    if u = t then { s.thread u with runnable := true } else s.thread u := by
  unfold dbWake
  split
  · exact s.setRunnable_thread t u true
  · split
    · exact s.setRunnable_eq ‹_› u
    · exact s.setRunnable_thread t u true

@[simp] theorem block_upcallsActive (t : Tid) : (s.block t).upcallsActive = s.upcallsActive := by
  unfold block
  split
  · split <;> rfl
  · rfl

@[simp] theorem dbWake_upcallsActive (t : Tid) : (s.dbWake t).upcallsActive = s.upcallsActive := by
  unfold dbWake
  split
  · rfl
  · split <;> rfl

theorem block_appScheduled (t : Tid) : (s.block t).appScheduled = s.appScheduled := by
  funext x
  rw [appScheduled, block_upcallsActive, block_thread, appScheduled]
  split <;> rfl

theorem dbWake_appScheduled (t : Tid) : (s.dbWake t).appScheduled = s.appScheduled := by
  funext x
  rw [appScheduled, dbWake_upcallsActive, dbWake_thread, appScheduled]
  split <;> rfl

theorem setThread_appScheduled {th : Thread} (h : th.appsched = (s.thread t).appsched) :
    (s.setThread t th).appScheduled = s.appScheduled := by
  funext x
  simp only [appScheduled, setThread_thread]
  split
  case isTrue hx => rw [h, hx]; rfl
  case isFalse => rfl

theorem gukWake_thread {r : Ready} (h : s.gukWake t = some r)
    (hsusp : (s.thread t).debugSuspend = false) (hreq : (s.thread t).reqDebugSuspend = false)
    (u : Tid) :
    r.thread u = if u = t then { s.thread u with runnable := true } else s.thread u := by
  simp only [gukWake, hsusp, hreq, Bool.false_eq_true, if_false] at h
  split at h
  · cases h
  · split at h <;> cases h
    · exact s.dbWake_thread t u
    · rename_i hrun
      simp only [Bool.or_eq_true, Bool.not_eq_true', not_or, Bool.not_eq_false] at hrun
      exact s.setRunnable_eq hrun.1 u

@[simp] theorem rotate_thread (prev idle : Tid) : (s.rotate prev idle).thread = s.thread := by
  unfold rotate
  split <;> rfl

@[simp] theorem rotate_upcallsActive (prev idle : Tid) :
    (s.rotate prev idle).upcallsActive = s.upcallsActive := by
  unfold rotate
  split <;> rfl

theorem mem_rotate {prev idle : Tid} (h : t ∈ (s.rotate prev idle).readyQueue) :
    t ∈ s.readyQueue ∨ (t = prev ∧ prev ≠ idle) := by
  unfold rotate at h
  split at h
  · rename_i hcond
    rcases List.mem_append.mp h with h | h
    · exact .inl (List.mem_of_mem_filter h)
    · simp only [Bool.and_eq_true, bne_iff_ne, ne_eq] at hcond
      exact .inr ⟨List.mem_singleton.mp h, hcond.2⟩
  · exact .inl h

end Ready

end Guk.Sched
