import Guk.Runs
import Guk.Sched

/-!
# Threads in the debugger (`db-back.c`)

The debugger asks a thread to stop by `REQ_DEBUG_SUSPEND`. The request becomes
`DEBUG_SUSPEND` when the thread comes to the suspension point of
`preempt_schedule` or `preempt_schedule_irq`, which also blocks it, or when
somebody calls `guk_wake` on it. The debugger is one thread, which handles one
request after the other and waits in `suspend_thread` and `single_step_thread`.

A suspension point, from the test of the request to `block`, is one step.
-/
namespace Guk.DebugSuspend

open Runs Sched Function

inductive Debugger where
  | idle
  /-- in the loop of `dispatch_suspend_all` -/
  | suspendAll
  /-- in the busy wait of `suspend_thread`, called from that loop or not -/
  | suspending (t : Tid) (all : Bool)
  /-- in the first loop of `dispatch_resume_all` -/
  | resumeAll
  /-- in the busy wait of `single_step_thread`, called from that loop or not -/
  | stepping (t : Tid) (all : Bool)
  deriving DecidableEq, Repr

structure State extends Ready where
  stepped : Tid → Bool
  watchpoint : Tid → Bool
  isAppThread : Tid → Bool
  threadList : List Tid
  debugger : Debugger

inductive Label where
  /-- `guk_wake`, by anybody -/
  | wake (t : Tid)
  | block (t : Tid)
  | pick (prev idle : Tid) (cpu : Nat)
  | switchOut (t : Tid)
  /-- a breakpoint, the end of a single step, another trap or a watchpoint -/
  | trap (t : Tid) (watch : Bool)
  | suspensionPoint (t : Tid)
  | suspendThread (t : Tid)
  | suspendAll
  | resumeThread (t : Tid)
  | resumeAll
  | singleStepThread (t : Tid)
  | debugger

section

variable (s : State)

def stopped (t : Tid) : Bool := !(s.thread t).runnable && !(s.thread t).running

def setReqDebugSuspend (t : Tid) (b : Bool) : State :=
  { s with toReady := s.setThread t { s.thread t with reqDebugSuspend := b } }

def setStepped (t : Tid) (b : Bool) : State := { s with stepped := update s.stepped t b }

def suspensionPoint (t : Tid) : State :=
  if (s.thread t).reqDebugSuspend then
    let r := s.setThread t { s.thread t with reqDebugSuspend := false, debugSuspend := true }
    { s with toReady := r.block t }
  else s

def suspendThread (t : Tid) (all : Bool) : State :=
  if !(s.thread t).runnable then
    let s := if !(s.thread t).debugSuspend then setReqDebugSuspend s t true else s
    { s with debugger := if all then .suspendAll else .idle }
  else { setReqDebugSuspend s t true with debugger := .suspending t all }

def toSuspend : Option Tid :=
  s.threadList.find? fun t =>
    s.isAppThread t && !((s.thread t).debugSuspend || (s.thread t).reqDebugSuspend)

def clearAllReqDebugSuspend : State := s.threadList.foldl (setReqDebugSuspend · · false) s

def release (t : Tid) : State :=
  { s with toReady := (s.setThread t { s.thread t with debugSuspend := false }).dbWake t }

def resumeThread (t : Tid) : State :=
  let s := clearAllReqDebugSuspend s
  if (s.thread t).debugSuspend && stopped s t then release s t else s

def singleStepThread (t : Tid) (all : Bool) : State :=
  let s := setStepped s t true
  { s with toReady := s.dbWake t, debugger := .stepping t all }

def stepDone (t : Tid) (all : Bool) : State :=
  let s := setStepped s t false
  if all then
    { setReqDebugSuspend s t false with
      watchpoint := update s.watchpoint t false, debugger := .resumeAll }
  else { s with debugger := .idle }

def toStep : Option Tid := s.threadList.find? fun t => s.isAppThread t && s.watchpoint t

def resumeOne (t : Tid) : State :=
  if s.isAppThread t && (s.thread t).debugSuspend then release s t else s

def stepDebugger : Option State :=
  match s.debugger with
  | .idle => none
  | .suspendAll =>
    match toSuspend s with
    | some t => some (suspendThread s t true)
    | none => some { s with debugger := .idle }
  | .suspending t all =>
    if stopped s t then some { s with debugger := if all then .suspendAll else .idle } else none
  | .resumeAll =>
    match toStep s with
    | some t => some (singleStepThread s t true)
    | none => some { s.threadList.foldl resumeOne s with debugger := .idle }
  | .stepping t all => if stopped s t then some (stepDone s t all) else none

def step : Label → Option State
  | .wake t => (s.gukWake t).map fun r => { s with toReady := r }
  | .block t => if (s.thread t).running then some { s with toReady := s.block t } else none
  | .pick prev idle cpu => some { s with toReady := (s.pickThread prev idle cpu).1 }
  | .switchOut t => some { s with toReady := s.setRunning t false }
  | .trap t watch =>
    if (s.thread t).running then
      some { setReqDebugSuspend s t true with
        watchpoint := if watch then update s.watchpoint t true else s.watchpoint }
    else none
  | .suspensionPoint t => if (s.thread t).running then some (suspensionPoint s t) else none
  | .suspendThread t => if s.debugger = .idle then some (suspendThread s t false) else none
  | .suspendAll => if s.debugger = .idle then some { s with debugger := .suspendAll } else none
  | .resumeThread t => if s.debugger = .idle then some (resumeThread s t) else none
  | .resumeAll =>
    if s.debugger = .idle then some { clearAllReqDebugSuspend s with debugger := .resumeAll }
      else none
  | .singleStepThread t =>
    if s.debugger = .idle ∧ (s.thread t).debugSuspend ∧ stopped s t then
      some (singleStepThread s t false)
    else none
  | .debugger => stepDebugger s

structure Initial : Prop where
  debugSuspend : ∀ t, (s.thread t).debugSuspend = false
  queued : ∀ t ∈ s.readyQueue, (s.thread t).runnable = true ∧ s.appScheduled t = false
  debugger : s.debugger = .idle

def Held : Prop :=
  ∀ t, (s.thread t).debugSuspend = true → s.stepped t = false →
    (s.thread t).runnable = false ∧ t ∉ s.readyQueue

def blockedWakeStep : Label → Prop
  | .wake t => (s.thread t).reqDebugSuspend = true → (s.thread t).debugSuspend = false →
    s.stepped t = false → (s.thread t).runnable = false
  | _ => True

end

/-! ## Flags and the queue -/

structure Inv (r : Ready) (stepped : Tid → Bool) : Prop where
  held : ∀ t, (r.thread t).debugSuspend = true → stepped t = false → (r.thread t).runnable = false
  queued : ∀ t ∈ r.readyQueue, (r.thread t).runnable = true ∧ r.appScheduled t = false

variable {r : Ready} {stepped : Tid → Bool} {s u : State} {t x : Tid} {th : Thread}

theorem held_of_inv (h : Inv s.toReady s.stepped) : Held s := by
  intro t hsusp hstep
  have hrun := h.held t hsusp hstep
  refine ⟨hrun, fun hq => ?_⟩
  rw [(h.queued t hq).1] at hrun
  cases hrun

theorem queued_setThread
    (h : ∀ x ∈ r.readyQueue, (r.thread x).runnable = true ∧ r.appScheduled x = false)
    (hrun : th.runnable = (r.thread t).runnable) (happ : th.appsched = (r.thread t).appsched) :
    ∀ x ∈ (r.setThread t th).readyQueue,
      ((r.setThread t th).thread x).runnable = true ∧
        (r.setThread t th).appScheduled x = false := by
  intro x hx
  have hbefore := h x hx
  rw [r.setThread_appScheduled happ, Ready.setThread_thread]
  split
  · rename_i hxt
    rw [hrun, ← hxt]
    exact hbefore
  · exact hbefore

theorem inv_setThread (h : Inv r stepped)
    (hrun : th.runnable = (r.thread t).runnable) (happ : th.appsched = (r.thread t).appsched)
    (hheld : th.debugSuspend = true → stepped t = false → th.runnable = false) :
    Inv (r.setThread t th) stepped := by
  constructor
  · intro x
    rw [Ready.setThread_thread]
    split
    · rename_i hx
      rw [hx]
      exact hheld
    · exact h.held x
  · exact queued_setThread h.queued hrun happ

theorem mem_block
    (h : ∀ x ∈ r.readyQueue, (r.thread x).runnable = true ∧ r.appScheduled x = false)
    (hx : x ∈ (r.block t).readyQueue) : x ∈ r.readyQueue ∧ x ≠ t := by
  unfold Ready.block at hx
  split at hx
  · rename_i hrun
    split at hx
    · rename_i happ
      refine ⟨hx, ?_⟩
      rintro rfl
      rw [(h x hx).2] at happ
      cases happ
    · simpa using hx
  · rename_i hrun
    refine ⟨hx, ?_⟩
    rintro rfl
    exact hrun (h x hx).1

theorem mem_dbWake (hx : x ∈ (r.dbWake t).readyQueue) :
    x ∈ r.readyQueue ∨ x = t ∧ r.appScheduled t = false := by
  unfold Ready.dbWake at hx
  split at hx
  · exact .inl hx
  · rename_i happ
    split at hx
    · exact .inl hx
    · rcases List.mem_append.mp hx with hx | hx
      · exact .inl hx
      · exact .inr ⟨List.mem_singleton.mp hx, Bool.eq_false_iff.mpr happ⟩

theorem inv_block (t : Tid)
    (hheld : ∀ x, x ≠ t → (r.thread x).debugSuspend = true → stepped x = false →
      (r.thread x).runnable = false)
    (hqueued : ∀ x ∈ r.readyQueue, (r.thread x).runnable = true ∧ r.appScheduled x = false) :
    Inv (r.block t) stepped := by
  constructor
  · intro x
    rw [Ready.block_thread]
    split
    · intros
      rfl
    · exact hheld x ‹_›
  · intro x hx
    obtain ⟨hx, hne⟩ := mem_block hqueued hx
    rw [Ready.block_appScheduled, Ready.block_thread, if_neg hne]
    exact hqueued x hx

section

variable (h : Inv r stepped)

include h

theorem inv_dbWake (ht : (r.thread t).debugSuspend = true → stepped t = true) :
    Inv (r.dbWake t) stepped := by
  constructor
  · intro x
    rw [Ready.dbWake_thread]
    split
    · rename_i hx
      subst hx
      intro hsusp hstep
      rw [ht hsusp] at hstep
      cases hstep
    · exact h.held x
  · intro x hx
    rw [Ready.dbWake_appScheduled, Ready.dbWake_thread]
    rcases mem_dbWake hx with hx | ⟨rfl, happ⟩
    · obtain ⟨hrun, happ⟩ := h.queued x hx
      split
      · exact ⟨rfl, happ⟩
      · exact ⟨hrun, happ⟩
    · rw [if_pos rfl]
      exact ⟨rfl, happ⟩

theorem inv_setRunning (t : Tid) (b : Bool) : Inv (r.setRunning t b) stepped :=
  inv_setThread h rfl rfl (h.held t)

theorem inv_pickThread (prev idle : Tid) (cpu : Nat) :
    Inv (r.pickThread prev idle cpu).1 stepped := by
  have hrotate : Inv (r.rotate prev idle) stepped := by
    constructor
    · rw [Ready.rotate_thread]
      exact h.held
    · intro x hx
      rw [Ready.appScheduled, Ready.rotate_thread, Ready.rotate_upcallsActive]
      unfold Ready.rotate at hx
      split at hx
      · rename_i hcond
        rcases List.mem_append.mp hx with hx | hx
        · exact h.queued x (List.mem_of_mem_filter hx)
        · simp only [Bool.and_eq_true, Bool.not_eq_true'] at hcond
          rw [List.mem_singleton.mp hx]
          exact ⟨hcond.1.2, hcond.1.1⟩
      · exact h.queued x hx
  unfold Ready.pickThread
  simp only
  split
  · exact inv_setRunning hrotate _ true
  · exact hrotate

theorem inv_gukWake {r' : Ready} (hw : r.gukWake t = some r')
    (hok : (r.thread t).reqDebugSuspend = true → (r.thread t).debugSuspend = false →
      stepped t = false → (r.thread t).runnable = false) : Inv r' stepped := by
  unfold Ready.gukWake at hw
  split at hw
  · cases hw
    exact h
  · rename_i hsusp
    split at hw
    · cases hw
      exact inv_setThread h rfl rfl fun _ => hok ‹_› (Bool.eq_false_iff.mpr hsusp)
    · split at hw
      · cases hw
      · split at hw <;> cases hw
        · exact inv_dbWake h fun hs => absurd hs hsusp
        · exact h

end

/-! ## Steps of the debugger -/

theorem inv_setStepped (h : Inv r stepped) {b : Bool}
    (hb : b = false → (r.thread t).runnable = false) : Inv r (update stepped t b) := by
  refine ⟨?_, h.queued⟩
  intro x hsusp hstep
  rw [update_apply] at hstep
  split at hstep
  · rename_i hx
    rw [hx]
    exact hb hstep
  · exact h.held x hsusp hstep

theorem inv_setReqDebugSuspend (h : Inv s.toReady s.stepped) (t : Tid) (b : Bool) :
    Inv (setReqDebugSuspend s t b).toReady (setReqDebugSuspend s t b).stepped :=
  inv_setThread h rfl rfl (h.held t)

theorem inv_foldl {f : State → Tid → State}
    (hf : ∀ s t, Inv s.toReady s.stepped → Inv (f s t).toReady (f s t).stepped) (l : List Tid)
    (h : Inv s.toReady s.stepped) : Inv (l.foldl f s).toReady (l.foldl f s).stepped := by
  induction l generalizing s with
  | nil => exact h
  | cons t l ih => exact ih (hf s t h)

section

variable (h : Inv s.toReady s.stepped)

include h

theorem inv_clearAllReqDebugSuspend :
    Inv (clearAllReqDebugSuspend s).toReady (clearAllReqDebugSuspend s).stepped :=
  inv_foldl (fun _ t hs => inv_setReqDebugSuspend hs t false) s.threadList h

theorem inv_release (t : Tid) : Inv (release s t).toReady (release s t).stepped := by
  apply inv_dbWake
  · exact inv_setThread h rfl rfl (fun hs => by cases hs)
  · intro hs
    rw [Ready.setThread_thread, if_pos rfl] at hs
    cases hs

theorem inv_suspensionPoint (t : Tid) :
    Inv (suspensionPoint s t).toReady (suspensionPoint s t).stepped := by
  unfold suspensionPoint
  split
  · apply inv_block
    · intro x hx
      rw [Ready.setThread_thread, if_neg hx]
      exact h.held x
    · exact queued_setThread h.queued rfl rfl
  · exact h

theorem inv_suspendThread (t : Tid) (all : Bool) :
    Inv (suspendThread s t all).toReady (suspendThread s t all).stepped := by
  unfold suspendThread
  split
  · simp only
    split
    · exact inv_setReqDebugSuspend h t true
    · exact h
  · exact inv_setReqDebugSuspend h t true

theorem inv_resumeThread (t : Tid) : Inv (resumeThread s t).toReady (resumeThread s t).stepped := by
  have hclear := inv_clearAllReqDebugSuspend h
  unfold resumeThread
  simp only
  split
  · exact inv_release hclear t
  · exact hclear

theorem inv_singleStepThread (t : Tid) (all : Bool) :
    Inv (singleStepThread s t all).toReady (singleStepThread s t all).stepped := by
  apply inv_dbWake
  · exact inv_setStepped h (fun hb => by cases hb)
  · intro _
    exact update_self ..

theorem inv_stepDone (hstop : stopped s t = true) (all : Bool) :
    Inv (stepDone s t all).toReady (stepDone s t all).stepped := by
  have hrun : (s.thread t).runnable = false := by
    simp only [stopped, Bool.and_eq_true, Bool.not_eq_true'] at hstop
    exact hstop.1
  have hclear : Inv (setStepped s t false).toReady (setStepped s t false).stepped :=
    inv_setStepped h fun _ => hrun
  unfold stepDone
  simp only
  split
  · exact inv_setReqDebugSuspend hclear t false
  · exact hclear

theorem inv_stepDebugger (hs : stepDebugger s = some u) : Inv u.toReady u.stepped := by
  unfold stepDebugger at hs
  cases hd : s.debugger with
  | idle =>
    rw [hd] at hs
    cases hs
  | suspendAll =>
    rw [hd] at hs
    simp only at hs
    split at hs <;> cases hs
    · exact inv_suspendThread h _ true
    · exact h
  | suspending t all =>
    rw [hd] at hs
    obtain ⟨-, rfl⟩ := of_when hs
    exact h
  | resumeAll =>
    rw [hd] at hs
    simp only at hs
    split at hs <;> cases hs
    · exact inv_singleStepThread h _ true
    · apply inv_foldl _ s.threadList h
      intro s t h
      unfold resumeOne
      split
      · exact inv_release h t
      · exact h
  | stepping t all =>
    rw [hd] at hs
    obtain ⟨hstop, rfl⟩ := of_when hs
    exact inv_stepDone h hstop all

theorem inv_step {a : Label} (hok : blockedWakeStep s a)
    (hs : step s a = some u) : Inv u.toReady u.stepped := by
  cases a with
  | wake t =>
    obtain ⟨r, hw, hs⟩ := Option.map_eq_some_iff.mp hs
    subst hs
    exact inv_gukWake h hw hok
  | block t =>
    obtain ⟨-, rfl⟩ := of_when hs
    exact inv_block t (fun x _ => h.held x) h.queued
  | pick prev idle cpu =>
    cases hs
    exact inv_pickThread h prev idle cpu
  | switchOut t =>
    cases hs
    exact inv_setRunning h t false
  | trap t watch =>
    obtain ⟨-, rfl⟩ := of_when hs
    exact inv_setReqDebugSuspend h t true
  | suspensionPoint t =>
    obtain ⟨-, rfl⟩ := of_when hs
    exact inv_suspensionPoint h t
  | suspendThread t =>
    obtain ⟨-, rfl⟩ := of_when hs
    exact inv_suspendThread h t false
  | suspendAll =>
    obtain ⟨-, rfl⟩ := of_when hs
    exact h
  | resumeThread t =>
    obtain ⟨-, rfl⟩ := of_when hs
    exact inv_resumeThread h t
  | resumeAll =>
    obtain ⟨-, rfl⟩ := of_when hs
    exact inv_clearAllReqDebugSuspend h
  | singleStepThread t =>
    obtain ⟨-, rfl⟩ := of_when hs
    exact inv_singleStepThread h t false
  | debugger => exact inv_stepDebugger h hs

end

theorem inv_initial (h : Initial s) : Inv s.toReady s.stepped := by
  refine ⟨?_, h.queued⟩
  intro t hs
  rw [h.debugSuspend t] at hs
  cases hs

/-- A thread held by the debugger cannot run as long as `guk_wake` finds every thread that is to be
suspended blocked, and the first call that finds one runnable breaks this. -/
theorem held_until_runnable_woken (s : State) (h : Reach step blockedWakeStep Initial s) :
    Held s ∧ ∀ a u, ¬ blockedWakeStep s a → step s a = some u → ¬ Held u := by
  constructor
  · apply held_of_inv
    apply h.invariant (I := fun s => Inv s.toReady s.stepped) (fun _ => inv_initial)
    intro s a u hi hok hs
    exact inv_step hi hok hs
  · intro a u hbad hs hu
    cases a with
    | wake t =>
      simp only [blockedWakeStep, Classical.not_imp, Bool.not_eq_false] at hbad
      obtain ⟨hreq, hsusp, hstep, hrun⟩ := hbad
      obtain ⟨r, hw, hs⟩ := Option.map_eq_some_iff.mp hs
      subst hs
      simp only [Ready.gukWake, hsusp, hreq, Bool.false_eq_true, if_false, if_true] at hw
      cases hw
      have hblocked := (hu t (by rw [Ready.setThread_thread, if_pos rfl]) hstep).1
      rw [Ready.setThread_thread, if_pos rfl, hrun] at hblocked
      cases hblocked
    | _ => exact hbad trivial

def twoThreads : State where
  thread t := ⟨true, t = .task 0, false, false, false, false, false, false, false, 0⟩
  readyQueue := [.task 0, .task 1]
  upcallsActive := false
  stepped _ := false
  watchpoint _ := false
  isAppThread _ := true
  threadList := [.task 0, .task 1]
  debugger := .idle

theorem twoThreads_initial : Initial twoThreads := by
  refine ⟨fun _ => rfl, ?_, rfl⟩
  intro t _
  exact ⟨rfl, rfl⟩

theorem held_after_suspensionPoint : ∃ s, Reach step blockedWakeStep Initial s ∧
    ((s.thread (.task 0)).debugSuspend = true ∧ s.stepped (.task 0) = false) ∧ Held s := by
  have h₀ : Reach step blockedWakeStep Initial twoThreads := .start twoThreads_initial
  have h₁ := Reach.next (Label.suspendThread (.task 0)) h₀ trivial rfl
  have h₂ := Reach.next (Label.suspensionPoint (.task 0)) h₁ trivial rfl
  have h₃ := Reach.next (Label.wake (.task 0)) h₂ (fun _ hs => by cases hs) rfl
  exact ⟨_, h₃, ⟨rfl, rfl⟩, (held_until_runnable_woken _ h₃).1⟩

/-- A thread that is woken between the request and its suspension point stays in the queue. -/
theorem held_thread_runnable : ¬ ∀ s, Reach step anyStep Initial s → Held s := by
  intro hall
  have h₀ : Reach step anyStep Initial twoThreads := .start twoThreads_initial
  obtain ⟨s, hs, hsusp, hstep, hrunnable⟩ := h₀.runTo
    (P := fun s => (s.thread (.task 1)).debugSuspend = true ∧ s.stepped (.task 1) = false ∧
      (s.thread (.task 1)).runnable = true)
    [.suspendThread (.task 1), .wake (.task 1)] (by decide)
  have hheld := hall s hs (.task 1) hsusp hstep
  rw [hrunnable] at hheld
  cases hheld.1

end Guk.DebugSuspend
