import Guk.Runs
import Guk.Sched

/-!
# `wait_event` and `wake_up` (`wait.h`)

Any number of threads wait on one queue for one condition, and any number of
producers make it true and then call `wake_up`. The stretches of code under the
queue's lock are one step each in a waiter; `wake_up` holds the lock while it
wakes one thread after the other. A waiter that gives up its CPU, in `schedule` or
by preemption, gets one again only when it is runnable.
-/
namespace Guk.WaitEvent

open Runs Sched Function

inductive Pc where
  | outside
  | start
  | enqueue
  | retest
  /-- the condition was true: `wake(current)` -/
  | wakeSelf
  /-- the condition was false: `schedule()` -/
  | sched
  | dequeue
  | done
  deriving DecidableEq, Repr

def Pc.inside (pc : Pc) : Prop := pc ≠ .outside ∧ pc ≠ .done

inductive Producer where
  | idle
  | set
  /-- in `wake_up`, with the lock: the threads that are still to be woken -/
  | waking (rest : List Tid)
  | done
  deriving DecidableEq, Repr

structure State extends Ready where
  cond : Bool
  locked : Bool
  waitQueue : List Tid
  pc : Nat → Pc
  onCpu : Nat → Bool
  producer : Nat → Producer

inductive Label where
  | call (t : Nat)
  | waiter (t : Nat)
  /-- `preempt_schedule` or `preempt_schedule_irq` -/
  | preempt (t : Nat)
  | resume (t : Nat)
  | produce (p : Nat)
  | wakeUp (p : Nat)

def setPc (s : State) (t : Nat) (pc : Pc) : State := { s with pc := update s.pc t pc }

def setOnCpu (s : State) (t : Nat) (b : Bool) : State :=
  { s with onCpu := update s.onCpu t b }

def setProducer (s : State) (p : Nat) (x : Producer) : State :=
  { s with producer := update s.producer p x }

def stepWaiter (s : State) (t : Nat) : Option State :=
  match s.pc t with
  | .outside | .done => none
  | .start => some (setPc s t (if s.cond then .done else .enqueue))
  | .enqueue =>
    if s.locked then none
    else some (setPc { s with
      waitQueue := if .task t ∈ s.waitQueue then s.waitQueue else s.waitQueue ++ [.task t]
      toReady := s.block (.task t) } t .retest)
  | .retest => some (setPc s t (if s.cond then .wakeSelf else .sched))
  | .wakeSelf => (s.gukWake (.task t)).map fun r => setPc { s with toReady := r } t .dequeue
  | .sched => some (setPc (setOnCpu s t false) t .enqueue)
  | .dequeue =>
    if s.locked then none
    else some (setPc { s with waitQueue := s.waitQueue.filter (· ≠ .task t) } t .done)

def stepWakeUp (s : State) (p : Nat) : Option State :=
  match s.producer p with
  | .idle | .done => none
  | .set =>
    if s.locked then none
    else some (setProducer { s with locked := true } p (.waking s.waitQueue))
  | .waking (t :: rest) => (s.gukWake t).map fun r =>
      setProducer { s with toReady := r } p (.waking rest)
  | .waking [] => some (setProducer { s with locked := false } p .done)

def step (s : State) : Label → Option State
  | .call t => if s.onCpu t ∧ s.pc t = .outside then some (setPc s t .start) else none
  | .waiter t => if s.onCpu t then stepWaiter s t else none
  | .preempt t => if s.onCpu t then some (setOnCpu s t false) else none
  | .resume t =>
    if (s.thread (.task t)).runnable ∧ ¬ s.onCpu t then some (setOnCpu s t true) else none
  | .produce p =>
    if s.producer p = .idle then some (setProducer { s with cond := true } p .set) else none
  | .wakeUp p => stepWakeUp s p

def Alive (th : Thread) : Prop :=
  th.dying = false ∧ th.debugSuspend = false ∧ th.reqDebugSuspend = false

structure Initial (s : State) : Prop where
  cond : s.cond = false
  locked : s.locked = false
  waitQueue : s.waitQueue = []
  pc : ∀ t, s.pc t = .outside
  producer : ∀ p, s.producer p = .idle
  alive : ∀ t, Alive (s.thread t)
  runnable : ∀ t, (s.thread (.task t)).runnable = true

def NoLostWakeup (s : State) : Prop :=
  s.cond = true → (∀ p, s.producer p = .idle ∨ s.producer p = .done) →
    ∀ t, (s.pc t).inside → (s.thread (.task t)).runnable = true ∨ s.onCpu t = true

def Pending (s : State) (t : Nat) : Prop :=
  ∃ p, s.producer p = .set ∨ ∃ rest, s.producer p = .waking rest ∧ .task t ∈ rest

def safeStep (s : State) : Label → Prop
  | .preempt t => (s.thread (.task t)).runnable = true ∨ s.cond = false ∨ Pending s t
  | _ => True

/-! ## The invariant -/

def Pc.blocked : Pc → Bool
  | .enqueue | .retest | .wakeSelf | .sched => true
  | .outside | .start | .dequeue | .done => false

structure Inv (s : State) : Prop where
  alive : ∀ t, Alive (s.thread t)
  awake : ∀ t, (s.pc t).blocked = false → (s.thread (.task t)).runnable = true
  queued : ∀ t, (s.thread (.task t)).runnable = false → .task t ∈ s.waitQueue
  /-- Whoever sleeps or is about to sleep with the condition true is going to be woken. -/
  asleep : ∀ t, s.cond = true → (s.thread (.task t)).runnable = false →
    s.onCpu t = false ∨ s.pc t = .sched → Pending s t

variable {s u : State} {t p : Nat}

theorem inv_initial (h : Initial s) : Inv s := by
  refine ⟨h.alive, fun t _ => h.runnable t, ?_, ?_⟩
  · intro t ht
    rw [h.runnable t] at ht
    cases ht
  · intro t hc
    rw [h.cond] at hc
    cases hc

theorem noLostWakeup_of_inv (h : Inv s) : NoLostWakeup s := by
  intro hcond hdone t _
  by_cases hrun : (s.thread (.task t)).runnable = true
  · exact .inl hrun
  · right
    by_contra hcpu
    obtain ⟨p, hp⟩ := h.asleep t hcond (Bool.eq_false_iff.mpr hrun)
      (.inl (Bool.eq_false_iff.mpr hcpu))
    rcases hp with hp | ⟨rest, hp, -⟩ <;> rcases hdone p with hd | hd <;> rw [hp] at hd <;> cases hd

theorem inv_setPc {pc : Pc} (h : Inv s)
    (hawake : pc.blocked = false → (s.thread (.task t)).runnable = true)
    (hsched : pc = .sched → s.cond = true → (s.thread (.task t)).runnable = false → Pending s t) :
    Inv (setPc s t pc) := by
  refine ⟨h.alive, ?_, h.queued, ?_⟩
  · intro u hu
    by_cases hut : u = t
    · subst hut
      exact hawake (by simpa [setPc] using hu)
    · exact h.awake u (by simpa [setPc, hut] using hu)
  · intro u hcond hrun hor
    by_cases hut : u = t
    · subst hut
      rcases hor with hor | hor
      · exact h.asleep u hcond hrun (.inl hor)
      · exact hsched (by simpa [setPc] using hor) hcond hrun
    · exact h.asleep u hcond hrun (by simpa [setPc, hut] using hor)

theorem inv_offCpu (h : Inv s)
    (ht : s.cond = true → (s.thread (.task t)).runnable = false → Pending s t) :
    Inv (setOnCpu s t false) := by
  refine { h with asleep := ?_ }
  intro u hcond hrun hor
  by_cases hut : u = t
  · subst hut
    exact ht hcond hrun
  · exact h.asleep u hcond hrun (by simpa [setOnCpu, hut] using hor)

theorem inv_enqueue {q : List Tid} (h : Inv s) (hcpu : s.onCpu t = true)
    (hq : ∀ u, u = Tid.task t ∨ u ∈ s.waitQueue → u ∈ q) :
    Inv (setPc { s with waitQueue := q, toReady := s.block (.task t) } t .retest) := by
  have hother : ∀ {u}, u ≠ t → (s.block (.task t)).thread (.task u) = s.thread (.task u) := by
    intro u hut
    rw [Ready.block_thread, if_neg (by simpa using hut)]
  constructor
  · intro u
    change Alive ((s.block _).thread u)
    rw [Ready.block_thread]
    split <;> exact h.alive u
  · intro u hu
    by_cases hut : u = t
    · subst hut
      simp [setPc, Pc.blocked] at hu
    · change ((s.block _).thread _).runnable = true
      rw [hother hut]
      exact h.awake u (by simpa [setPc, hut] using hu)
  · intro u hrun
    by_cases hut : u = t
    · exact hq _ (.inl (by rw [hut]))
    · refine hq _ (.inr (h.queued u ?_))
      rw [← hother hut]
      exact hrun
  · intro u hcond hrun hor
    by_cases hut : u = t
    · subst hut
      rcases hor with hor | hor
      · exact absurd (hcpu.symm.trans hor) (by decide)
      · simp [setPc] at hor
    · refine h.asleep u hcond ?_ (by simpa [setPc, hut] using hor)
      rw [← hother hut]
      exact hrun

theorem inv_woken {r : Ready} {x : Tid} (h : Inv s) (hw : s.gukWake x = some r) :
    Inv { s with toReady := r } ∧ ∀ u, (r.thread (.task u)).runnable = false → .task u ≠ x := by
  have hthread := s.toReady.gukWake_thread hw (h.alive x).2.1 (h.alive x).2.2
  have hback : ∀ {u}, (r.thread (.task u)).runnable = false →
      .task u ≠ x ∧ (s.thread (.task u)).runnable = false := by
    intro u hrun
    rw [hthread] at hrun
    split at hrun
    · cases hrun
    · exact ⟨‹_›, hrun⟩
  refine ⟨⟨?_, ?_, ?_, ?_⟩, fun u hrun => (hback hrun).1⟩
  · intro u
    change Alive (r.thread u)
    rw [hthread]
    split <;> exact h.alive u
  · intro u hu
    change (r.thread _).runnable = true
    rw [hthread]
    split
    · rfl
    · exact h.awake u hu
  · intro u hrun
    exact h.queued u (hback hrun).2
  · intro u hcond hrun hor
    exact h.asleep u hcond (hback hrun).2 hor

theorem inv_stepWaiter (h : Inv s) (hcpu : s.onCpu t = true)
    (hs : stepWaiter s t = some u) : Inv u := by
  unfold stepWaiter at hs
  cases hpc : s.pc t with
  | outside | done =>
    rw [hpc] at hs
    cases hs
  | start =>
    rw [hpc] at hs
    cases hs
    apply inv_setPc h (fun _ => h.awake t (by rw [hpc]; rfl))
    intro he
    split at he <;> cases he
  | enqueue =>
    rw [hpc] at hs
    simp only at hs
    split at hs <;> cases hs
    apply inv_enqueue h hcpu
    rintro x (rfl | hx) <;> split <;> simp_all
  | retest =>
    rw [hpc] at hs
    cases hs
    refine inv_setPc h (fun hb => ?_) (fun he hcond => ?_)
    · split at hb <;> cases hb
    · rw [if_pos hcond] at he
      cases he
  | wakeSelf =>
    rw [hpc] at hs
    obtain ⟨r, hw, hs⟩ := Option.map_eq_some_iff.mp hs
    subst hs
    obtain ⟨hi, hrun⟩ := inv_woken h hw
    refine inv_setPc hi (fun _ => ?_) (by simp)
    by_contra hne
    exact hrun t (Bool.eq_false_iff.mpr hne) rfl
  | sched =>
    rw [hpc] at hs
    cases hs
    refine inv_setPc (inv_offCpu h fun hcond hrun => h.asleep t hcond hrun (.inr hpc)) ?_ (by simp)
    intro hb
    cases hb
  | dequeue =>
    rw [hpc] at hs
    simp only at hs
    split at hs <;> cases hs
    have hrun := h.awake t (by rw [hpc]; rfl)
    refine inv_setPc { h with queued := ?_ } (fun _ => hrun) (by simp)
    intro v hv
    refine List.mem_filter.mpr ⟨h.queued v hv, ?_⟩
    have hne : v ≠ t := by
      rintro rfl
      exact absurd (hrun.symm.trans hv) (by decide)
    simpa using hne

theorem inv_setProducer {x : Producer} (h : Inv s)
    (hx : ∀ t, (s.thread (.task t)).runnable = false →
      s.producer p = .set ∨ (∃ rest, s.producer p = .waking rest ∧ .task t ∈ rest) →
      x = .set ∨ ∃ rest, x = .waking rest ∧ .task t ∈ rest) : Inv (setProducer s p x) := by
  refine { h with asleep := ?_ }
  intro t hcond hrun hor
  obtain ⟨q, hq⟩ := h.asleep t hcond hrun hor
  by_cases hqp : q = p
  · subst hqp
    exact ⟨q, by simpa [setProducer] using hx t hrun hq⟩
  · exact ⟨q, by simpa [setProducer, hqp] using hq⟩

theorem inv_stepWakeUp (h : Inv s) (hs : stepWakeUp s p = some u) : Inv u := by
  unfold stepWakeUp at hs
  cases hp : s.producer p with
  | idle | done =>
    rw [hp] at hs
    cases hs
  | set =>
    rw [hp] at hs
    simp only at hs
    split at hs <;> cases hs
    have hi : Inv { s with locked := true } := { h with }
    exact inv_setProducer hi fun t hrun _ => .inr ⟨_, rfl, h.queued t hrun⟩
  | waking rest =>
    cases rest with
    | nil =>
      rw [hp] at hs
      cases hs
      have hi : Inv { s with locked := false } := { h with }
      apply inv_setProducer hi
      rintro t _ (hq | ⟨rest, hq, hmem⟩)
      · cases hp.symm.trans hq
      · cases hp.symm.trans hq
        cases hmem
    | cons x rest =>
      rw [hp] at hs
      obtain ⟨r, hw, hs⟩ := Option.map_eq_some_iff.mp hs
      subst hs
      obtain ⟨hi, hne⟩ := inv_woken h hw
      apply inv_setProducer hi
      rintro t hrun (hq | ⟨rest', hq, hmem⟩)
      · cases hp.symm.trans hq
      · cases hp.symm.trans hq
        rcases List.mem_cons.mp hmem with he | hmem
        · exact absurd he (hne t hrun)
        · exact .inr ⟨rest, rfl, hmem⟩

theorem inv_step (h : Inv s) {a : Label} (hok : safeStep s a) (hs : step s a = some u) :
    Inv u := by
  cases a with
  | call t =>
    obtain ⟨⟨-, hpc⟩, rfl⟩ := of_when hs
    exact inv_setPc h (fun _ => h.awake t (by rw [hpc]; rfl)) (by simp)
  | waiter t =>
    obtain ⟨hcpu, hs⟩ := Option.ite_none_right_eq_some.mp hs
    exact inv_stepWaiter h hcpu hs
  | preempt t =>
    obtain ⟨-, rfl⟩ := of_when hs
    refine inv_offCpu h fun hcond hrun => ?_
    rcases hok with hr | hc | hp
    · exact absurd (hr.symm.trans hrun) (by decide)
    · exact absurd (hc.symm.trans hcond) (by decide)
    · exact hp
  | resume t =>
    obtain ⟨⟨hrun, -⟩, rfl⟩ := of_when hs
    refine { h with asleep := ?_ }
    intro u hcond hu hor
    have hut : u ≠ t := by
      rintro rfl
      exact absurd (hrun.symm.trans hu) (by decide)
    exact h.asleep u hcond hu (by simpa [setOnCpu, hut] using hor)
  | produce p =>
    obtain ⟨-, rfl⟩ := of_when hs
    exact { h with asleep := fun _ _ _ _ => ⟨p, .inl (by simp [setProducer])⟩ }
  | wakeUp p => exact inv_stepWakeUp h hs

/-- No wake-up is lost in the runs in which no waiter is preempted between `block(current)` and its
second test after everybody who could wake it is through. -/
theorem no_lost_wakeup (s : State) (h : Reach step safeStep Initial s) : NoLostWakeup s := by
  refine noLostWakeup_of_inv (h.invariant (fun _ => inv_initial) ?_)
  intro s a u hi hok hs
  exact inv_step hi hok hs

def twoThreads : State where
  thread _ := ⟨true, true, false, false, false, false, false, true, false, 0⟩
  readyQueue := [.task 0, .task 1]
  upcallsActive := false
  cond := false
  locked := false
  waitQueue := []
  pc _ := .outside
  onCpu t := t < 2
  producer _ := .idle

theorem twoThreads_initial : Initial twoThreads :=
  ⟨rfl, rfl, rfl, fun _ => rfl, fun _ => rfl, fun _ => ⟨rfl, rfl, rfl⟩, fun _ => rfl⟩

theorem no_lost_wakeup_sleeping : ∃ s, s.pc 0 = .done ∧ s.cond = true ∧ NoLostWakeup s := by
  have h₀ : Reach step safeStep Initial twoThreads := .start twoThreads_initial
  have h₁ := Reach.next (Label.call 0) h₀ trivial rfl
  have h₂ := Reach.next (Label.waiter 0) h₁ trivial rfl
  have h₃ := Reach.next (Label.waiter 0) h₂ trivial rfl
  have h₄ := Reach.next (Label.preempt 0) h₃ (.inr (.inl rfl)) rfl
  have h₅ := Reach.next (Label.produce 1) h₄ trivial rfl
  have h₆ := Reach.next (Label.wakeUp 1) h₅ trivial rfl
  have h₇ := Reach.next (Label.wakeUp 1) h₆ trivial rfl
  have h₈ := Reach.next (Label.wakeUp 1) h₇ trivial rfl
  have h₉ := Reach.next (Label.resume 0) h₈ trivial rfl
  have h₁₀ := Reach.next (Label.waiter 0) h₉ trivial rfl
  have h₁₁ := Reach.next (Label.waiter 0) h₁₀ trivial rfl
  have h₁₂ := Reach.next (Label.waiter 0) h₁₁ trivial rfl
  exact ⟨_, rfl, rfl, no_lost_wakeup _ h₁₂⟩

/-- The condition becomes true and `wake_up` finds the queue empty, between the first test and the
enqueueing of thread 0; preempted before its second test, the thread never runs again. -/
theorem wakeup_lost : ¬ ∀ s, Reach step anyStep Initial s → NoLostWakeup s := by
  intro hall
  let labels : List Label :=
    [.call 0, .waiter 0, .produce 1, .wakeUp 1, .wakeUp 1, .waiter 0, .preempt 0]
  let view (s : State) := (s.cond, s.pc 0, (s.thread (.task 0)).runnable, s.onCpu 0)
  have heval :
    (run step twoThreads labels).map view = some (true, .retest, false, false) := by decide
  have hdone : ∀ s, run step twoThreads labels = some s → ∀ p, s.producer p = .idle ∨
      s.producer p = .done := by
    intro s hs p
    cases hs
    by_cases hp : p = 1
    · subst hp
      exact .inr rfl
    · refine .inl ?_
      simp [setProducer, setPc, setOnCpu, twoThreads, hp]
  obtain ⟨s, hrun, hs⟩ := Option.map_eq_some_iff.mp heval
  simp only [view, Prod.mk.injEq] at hs
  obtain ⟨hcond, hpc, hrunnable, hcpu⟩ := hs
  have hnone := hall s (Reach.run (.start twoThreads_initial) labels hrun) hcond (hdone s hrun) 0
    (by rw [hpc]; exact ⟨by decide, by decide⟩)
  rw [hrunnable, hcpu] at hnone
  exact absurd hnone (by decide)

end Guk.WaitEvent
