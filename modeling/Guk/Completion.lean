import Guk.WaitEvent

/-!
# Completions (`completion.c`)

Any number of threads call `guk_wait_for_completion` and anybody may call
`guk_complete`, on one completion. Each section under the lock of its wait queue
is one step, `schedule` is another. A thread can be preempted between two steps,
and timers and `guk_interrupt` may wake it at any time; it goes on only when it
is runnable and a CPU has picked it.
-/
namespace Guk.Completion

open Runs Sched Function
open WaitEvent (Alive)

/-- Where a thread is in `guk_wait_for_completion`. -/
inductive Pc where
  | outside
  /-- blocked, the lock is released: `schedule()` comes next -/
  | sched
  /-- `schedule()` has returned: at the lock again -/
  | retest
  deriving DecidableEq, Repr

structure State extends Ready where
  done : Int
  waitQueue : List Tid
  pc : Nat → Pc
  /-- the calls of `guk_complete` so far -/
  completes : Nat
  /-- the calls of `guk_wait_for_completion` that have returned -/
  returned : Nat

inductive Label where
  | wait (t : Nat)
  | schedule (t : Nat)
  | retest (t : Nat)
  | complete
  | preempt (t : Nat)
  | resume (t : Nat)
  | wake (t : Nat)
  | interrupt (t : Nat)
  /-- a thread that is not in `guk_wait_for_completion` blocks for a reason of its own -/
  | blockElsewhere (t : Nat)

def wakeUp (r : Ready) : List Tid → Option Ready
  | [] => some r
  | t :: rest => (r.gukWake t).bind fun r => wakeUp r rest

def gukInterrupt (r : Ready) (t : Tid) : Option Ready :=
  let th := r.thread t
  if th.runnable || th.running || th.dying then some r
  else
    -- a thread that waits for another one to exit leaves that queue
    (r.setThread t { th with joining := false, interrupted := true }).gukWake t

def sleepOn (s : State) (t : Nat) : State :=
  { s with toReady := s.block (.task t), pc := update s.pc t .sched }

def takeSignal (s : State) (t : Nat) : State :=
  { s with done := s.done - 1, returned := s.returned + 1, pc := update s.pc t .outside }

def gukWaitForCompletion (s : State) (t : Nat) : State :=
  if s.done = 0 then sleepOn { s with waitQueue := s.waitQueue ++ [.task t] } t
  else takeSignal s t

def retestDone (s : State) (t : Nat) : State :=
  if s.done = 0 then sleepOn s t
  else takeSignal { s with waitQueue := s.waitQueue.filter (· ≠ .task t) } t

def gukComplete (s : State) : Option State :=
  (wakeUp s.toReady s.waitQueue).map fun r =>
    { s with toReady := r, done := 1, completes := s.completes + 1 }

def leaveCpu (s : State) (t : Nat) : State := { s with toReady := s.setRunning (.task t) false }

/-- The thread runs and is there. -/
def At (s : State) (t : Nat) (pc : Pc) : Prop := (s.thread (.task t)).running = true ∧ s.pc t = pc

instance (s : State) (t : Nat) (pc : Pc) : Decidable (At s t pc) :=
  inferInstanceAs (Decidable (_ ∧ _))

def step (s : State) : Label → Option State
  | .wait t => if At s t .outside then some (gukWaitForCompletion s t) else none
  | .schedule t =>
    if At s t .sched then some { leaveCpu s t with pc := update s.pc t .retest } else none
  | .retest t => if At s t .retest then some (retestDone s t) else none
  | .complete => gukComplete s
  | .preempt t => if (s.thread (.task t)).running then some (leaveCpu s t) else none
  | .resume t =>
    if (s.thread (.task t)).runnable ∧ ¬ (s.thread (.task t)).running then
      some { s with toReady := s.setRunning (.task t) true }
    else none
  | .wake t => (s.gukWake (.task t)).map fun r => { s with toReady := r }
  | .interrupt t => (gukInterrupt s.toReady (.task t)).map fun r => { s with toReady := r }
  | .blockElsewhere t =>
    if At s t .outside then some { s with toReady := s.block (.task t) } else none

structure Initial (s : State) : Prop where
  done : s.done = 0
  waitQueue : s.waitQueue = []
  pc : ∀ t, s.pc t = .outside
  completes : s.completes = 0
  returned : s.returned = 0
  alive : ∀ t, Alive (s.thread t)

/-- What waking does to threads: it kills none and blocks none. -/
structure Wakes (r r' : Ready) : Prop where
  alive : (∀ t, Alive (r.thread t)) → ∀ t, Alive (r'.thread t)
  runnable : ∀ t, (r.thread t).runnable = true → (r'.thread t).runnable = true

theorem Wakes.refl (r : Ready) : Wakes r r := ⟨fun h => h, fun _ h => h⟩

variable {r r' : Ready}

theorem Wakes.trans {r'' : Ready} (h : Wakes r r') (h' : Wakes r' r'') : Wakes r r'' :=
  ⟨fun ha => h'.alive (h.alive ha), fun t ht => h'.runnable t (h.runnable t ht)⟩

theorem wakes_setRunning (r : Ready) (t : Tid) (b : Bool) : Wakes r (r.setRunning t b) := by
  constructor
  · intro h u
    rw [Ready.setRunning_thread]
    split
    · exact h u
    · exact h u
  · intro u hu
    rw [Ready.setRunning_thread]
    split
    · exact hu
    · exact hu

theorem gukWake_isSome {t : Tid} (h : Alive (r.thread t)) : (r.gukWake t).isSome := by
  obtain ⟨hdying, hsusp, hreq⟩ := h
  simp only [Ready.gukWake, hdying, hsusp, hreq, Bool.false_eq_true, if_false]
  split <;> rfl

theorem wakes_gukWake {t : Tid} (hr : r.gukWake t = some r')
    (h : Alive (r.thread t)) : Wakes r r' ∧ (r'.thread t).runnable = true := by
  have hthread := r.gukWake_thread hr h.2.1 h.2.2
  refine ⟨⟨fun ha u => ?_, fun u hu => ?_⟩, by simp [hthread t]⟩
  · rw [hthread u]
    split
    · exact ha u
    · exact ha u
  · rw [hthread u]
    split
    · rfl
    · exact hu

theorem wakeUp_spec (q : List Tid) (r : Ready) (h : ∀ t, Alive (r.thread t)) :
    ∃ r', wakeUp r q = some r' ∧ Wakes r r' ∧ ∀ t ∈ q, (r'.thread t).runnable = true := by
  induction q generalizing r with
  | nil => exact ⟨r, rfl, .refl r, by simp⟩
  | cons t q ih =>
    obtain ⟨r₁, h₁⟩ := Option.isSome_iff_exists.mp (gukWake_isSome (h t))
    obtain ⟨hw, ht⟩ := wakes_gukWake h₁ (h t)
    obtain ⟨r₂, h₂, hw₂, hq⟩ := ih r₁ (hw.alive h)
    refine ⟨r₂, by simp [wakeUp, h₁, h₂], hw.trans hw₂, fun u hu => ?_⟩
    rcases List.mem_cons.mp hu with he | hu
    · rw [he]
      exact hw₂.runnable t ht
    · exact hq u hu

theorem wakes_gukInterrupt {t : Tid} (hr : gukInterrupt r t = some r')
    (h : ∀ t, Alive (r.thread t)) : Wakes r r' := by
  simp only [gukInterrupt] at hr
  split at hr
  · cases hr
    exact .refl r
  · have hset :
        Wakes r (r.setThread t { r.thread t with joining := false, interrupted := true }) := by
      constructor
      · intro ha u
        rw [Ready.setThread_thread]
        split
        · exact ha t
        · exact ha u
      · intro u hu
        rw [Ready.setThread_thread]
        split
        · rename_i he
          rw [← he]
          exact hu
        · exact hu
    exact hset.trans (wakes_gukWake hr (hset.alive h t)).1

/-- No wait returns without a signal, and while there is one nobody in the queue sleeps. -/
structure SignalsKept (s : State) : Prop where
  returned : s.returned ≤ s.completes
  done : 0 ≤ s.done
  awake : s.done ≠ 0 → ∀ t ∈ s.waitQueue,
    (s.thread t).runnable = true ∨ (s.thread t).running = true

/-- `done` is 0 or 1, and the threads of the queue are in a wait. -/
structure Inv (s : State) : Prop where
  alive : ∀ t, Alive (s.thread t)
  done : s.done = 0 ∨ s.done = 1
  /-- every signal is there or has been taken by one wait -/
  count : s.returned + s.done ≤ s.completes
  queued : ∀ x ∈ s.waitQueue, ∃ t, x = .task t ∧ s.pc t ≠ .outside
  awake : s.done ≠ 0 → ∀ x ∈ s.waitQueue, (s.thread x).runnable = true

variable {s : State} {t : Nat}

theorem inv_initial (h : Initial s) : Inv s := by
  refine ⟨h.alive, .inl h.done, ?_, ?_, ?_⟩
  · simp [h.done, h.returned]
  · simp [h.waitQueue]
  · simp [h.waitQueue]

theorem signalsKept_of_inv (h : Inv s) : SignalsKept s := by
  have hcount := h.count
  refine ⟨?_, ?_, fun hd x hx => .inl (h.awake hd x hx)⟩
  · rcases h.done with hd | hd
    · omega
    · omega
  · rcases h.done with hd | hd
    · omega
    · omega

theorem inv_wakes (h : Inv s) (hw : Wakes s.toReady r) : Inv { s with toReady := r } :=
  ⟨hw.alive h.alive, h.done, h.count, h.queued, fun hd x hx => hw.runnable x (h.awake hd x hx)⟩

theorem alive_block (h : ∀ t, Alive (s.thread t)) (x u : Tid) : Alive ((s.block x).thread u) := by
  rw [Ready.block_thread]
  split
  · exact h u
  · exact h u

section

variable (h : Inv s) {q : List Tid} {u : State}

include h

theorem inv_sleepOn (hd : s.done = 0)
    (hq : ∀ x ∈ q, x = .task t ∨ x ∈ s.waitQueue) : Inv (sleepOn { s with waitQueue := q } t) := by
  refine ⟨alive_block h.alive _, h.done, h.count, ?_, fun hne => absurd hd hne⟩
  intro x hx
  have hpc : (sleepOn { s with waitQueue := q } t).pc t ≠ .outside := by simp [sleepOn]
  rcases hq x hx with hxt | hx
  · exact ⟨t, hxt, hpc⟩
  · obtain ⟨u, rfl, hu⟩ := h.queued x hx
    refine ⟨u, rfl, ?_⟩
    by_cases hut : u = t
    · rw [hut]
      exact hpc
    · simpa [sleepOn, hut] using hu

theorem inv_takeSignal (hd : s.done ≠ 0)
    (hq : ∀ x ∈ q, x ∈ s.waitQueue ∧ x ≠ .task t) :
    Inv (takeSignal { s with waitQueue := q } t) := by
  have hone : s.done = 1 := h.done.resolve_left hd
  have hcount := h.count
  refine ⟨h.alive, .inl ?_, ?_, ?_, fun hne => absurd ?_ hne⟩
  · simp [takeSignal, hone]
  · simp only [takeSignal, hone] at hcount ⊢
    omega
  · intro x hx
    obtain ⟨hmem, hne⟩ := hq x hx
    obtain ⟨u, rfl, hu⟩ := h.queued x hmem
    have hut : u ≠ t := fun he => hne (by rw [he])
    exact ⟨u, rfl, by simpa [takeSignal, hut] using hu⟩
  · simp [takeSignal, hone]

theorem inv_gukWaitForCompletion (hpc : s.pc t = .outside) : Inv (gukWaitForCompletion s t) := by
  simp only [gukWaitForCompletion]
  split
  · rename_i hd
    apply inv_sleepOn h hd
    intro x hx
    rw [List.mem_append, List.mem_singleton] at hx
    exact hx.symm
  · rename_i hd
    apply inv_takeSignal h hd
    intro x hx
    refine ⟨hx, fun hxt => ?_⟩
    obtain ⟨u, hu, hne⟩ := h.queued x hx
    cases hxt.symm.trans hu
    exact hne hpc

theorem inv_retestDone : Inv (retestDone s t) := by
  simp only [retestDone]
  split
  · rename_i hd
    exact inv_sleepOn h hd fun x hx => .inr hx
  · rename_i hd
    apply inv_takeSignal h hd
    intro x hx
    simpa using List.mem_filter.mp hx

theorem inv_gukComplete (hs : gukComplete s = some u) : Inv u := by
  obtain ⟨r, hr, hw, hq⟩ := wakeUp_spec s.waitQueue s.toReady h.alive
  rw [gukComplete, hr] at hs
  cases hs
  refine ⟨hw.alive h.alive, .inr rfl, ?_, h.queued, fun _ => hq⟩
  have hcount := h.count
  have hdone := h.done
  change (s.returned : Int) + 1 ≤ ((s.completes + 1 : Nat) : Int)
  omega

theorem inv_step {a : Label} (hs : step s a = some u) : Inv u := by
  cases a with
  | wait t =>
    obtain ⟨hat, rfl⟩ := of_when hs
    exact inv_gukWaitForCompletion h hat.2
  | schedule t =>
    obtain ⟨hat, rfl⟩ := of_when hs
    have hi := inv_wakes h (wakes_setRunning s.toReady (.task t) false)
    refine { hi with queued := ?_ }
    intro x hx
    obtain ⟨u, rfl, hu⟩ := h.queued x hx
    refine ⟨u, rfl, ?_⟩
    by_cases hut : u = t
    · simp [hut]
    · simpa [hut] using hu
  | retest t =>
    obtain ⟨hat, rfl⟩ := of_when hs
    exact inv_retestDone h
  | complete => exact inv_gukComplete h hs
  | preempt t =>
    obtain ⟨-, rfl⟩ := of_when hs
    exact inv_wakes h (wakes_setRunning s.toReady (.task t) false)
  | resume t =>
    obtain ⟨-, rfl⟩ := of_when hs
    exact inv_wakes h (wakes_setRunning s.toReady (.task t) true)
  | wake t =>
    obtain ⟨r, hr, hs⟩ := Option.map_eq_some_iff.mp hs
    cases hs
    exact inv_wakes h (wakes_gukWake hr (h.alive _)).1
  | interrupt t =>
    obtain ⟨r, hr, hs⟩ := Option.map_eq_some_iff.mp hs
    cases hs
    exact inv_wakes h (wakes_gukInterrupt hr h.alive)
  | blockElsewhere t =>
    obtain ⟨hat, rfl⟩ := of_when hs
    refine ⟨alive_block h.alive _, h.done, h.count, h.queued, ?_⟩
    intro hd x hx
    obtain ⟨u, rfl, hu⟩ := h.queued x hx
    have hut : Tid.task u ≠ .task t := by
      intro he
      cases he
      exact hu hat.2
    change ((s.block _).thread _).runnable = true
    rw [Ready.block_thread, if_neg hut]
    exact h.awake hd _ hx

end

theorem reach_inv (h : Reach step anyStep Initial s) : Inv s := by
  apply h.invariant
  · exact fun _ => inv_initial
  · exact fun _ _ _ hi _ hs => inv_step hi hs

/-- In every run each wait that returns has a signal of its own, and no signal passes a waiter by.
-/
theorem completions_keep_signals (s : State) (h : Reach step anyStep Initial s) : SignalsKept s :=
  signalsKept_of_inv (reach_inv h)

def twoThreads : State where
  thread _ := ⟨true, true, false, false, false, false, false, true, false, 0⟩
  readyQueue := [.task 0, .task 1]
  upcallsActive := false
  done := 0
  waitQueue := []
  pc _ := .outside
  completes := 0
  returned := 0

theorem completions_keep_signals_contended : ∃ s, Reach step anyStep Initial s ∧
    (s.returned = 1 ∧ s.waitQueue = [.task 1]) ∧ SignalsKept s := by
  have h₀ : Reach step anyStep Initial twoThreads :=
    .start ⟨rfl, rfl, fun _ => rfl, rfl, rfl, fun _ => ⟨rfl, rfl, rfl⟩⟩
  let labels : List Label := [.wait 0, .wait 1, .schedule 0, .preempt 1, .complete, .resume 0,
    .retest 0, .resume 1, .schedule 1, .resume 1, .retest 1]
  obtain ⟨s, hs, hview⟩ : ∃ s, run step twoThreads labels = some s ∧
      s.returned = 1 ∧ s.waitQueue = [.task 1] := ⟨_, rfl, rfl, rfl⟩
  have hreach := Reach.run h₀ labels hs
  exact ⟨s, hreach, hview, completions_keep_signals s hreach⟩

end Guk.Completion
