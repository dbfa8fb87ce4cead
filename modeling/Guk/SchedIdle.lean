import Guk.Timers

/-!
# The idle thread (`sched.c`)

When a CPU has nothing to run, its idle thread asks `blocking_time` how long it may
sleep and `runnable_threads` whether a thread has become ready in the meantime, and then
blocks the virtual CPU. `blocking_time` looks at the first object of the sleep queue
only. `runnable_threads` goes through the ready queue as `pick_thread` does, with a
condition of its own.

Both read the flags and the CPU of threads in the state of the scheduler.
-/
namespace Guk.SchedIdle

open Runs Sched SleepQueue List

def maxSleep : Int := 10 * 1000000000

def looksAfter (r : Ready) (cpu : Nat) (t : Tid) : Bool :=
  (r.thread t).ukernel || (r.thread t).cpu == cpu

def blockingTime (r : Ready) (s : State) (orig now : Int) (cpu : Nat) : Int :=
  let limit := s64 (now + maxSleep)
  let wakeup := match s.sleepQueue with
    | [] => limit
    | sq :: _ => if looksAfter r cpu (s.entry sq).thread then wakeupTime s sq else limit
  if wakeup < orig then -1 else wakeup

def canRun (r : Ready) (cpu : Nat) (t : Tid) : Bool :=
  (r.thread t).runnable && !(r.thread t).running && looksAfter r cpu t

def runnableThreads (r : Ready) (cpu : Nat) (upcall : Bool) : Bool :=
  r.readyQueue.any (canRun r cpu) || (r.upcallsActive && upcall)

def pickFromIdle (r : Ready) (cpu : Nat) (upcall : Option Tid) : Tid :=
  match (r.pickThread (.idle cpu) (.idle cpu) cpu).2 with
  | some next => next
  | none => (if r.upcallsActive then upcall else none).getD (.idle cpu)

def idleBlocks (r : Ready) (s : State) (orig now : Int) (cpu : Nat) (upcall : Bool) : Option Int :=
  let limit := blockingTime r s orig now cpu
  if 0 < limit ∧ runnableThreads r cpu upcall = false then some limit else none

variable {r : Ready} {s : State} {cpu sq : Nat} {orig now : Int} {t : Tid} {l : List Nat}
  {current : Nat → Tid}

/-! ## How long -/

def Awaited (r : Ready) (s : State) (cpu sq : Nat) : Prop :=
  sq ∈ s.sleepQueue ∧ (s.entry sq).expired = false ∧ looksAfter r cpu (s.entry sq).thread = true

def HeadOwn (r : Ready) (s : State) (cpu : Nat) : Prop :=
  ∃ sq, s.sleepQueue.head? = some sq ∧ looksAfter r cpu (s.entry sq).thread = true

def InTime (r : Ready) (s : State) (cpu : Nat) (time : Int) : Prop :=
  time < 0 ∨ ∀ sq, Awaited r s cpu sq → time ≤ wakeupTime s sq

theorem blockingTime_own (hq : Queued s) (h : HeadOwn r s cpu) :
    InTime r s cpu (blockingTime r s orig now cpu) := by
  obtain ⟨sq, hhead, hown⟩ := h
  obtain ⟨l, hl⟩ := head?_eq_some_iff.mp hhead
  simp only [blockingTime, hl, hown, if_true]
  split
  · exact .inl (by decide)
  · refine .inr fun x hx => ?_
    have hmem : x ∈ sq :: l := hl ▸ hx.1
    have hsorted := hq.ordered.sorted
    rw [hl] at hsorted
    rcases mem_cons.mp hmem with rfl | hmem
    · exact Int.le_refl _
    · exact (pairwise_cons.mp hsorted).1 x hmem

theorem blockingTime_other (h : ¬ HeadOwn r s cpu) :
    blockingTime r s orig now cpu = if s64 (now + maxSleep) < orig then -1 else s64
      (now + maxSleep) := by
  unfold blockingTime
  cases hl : s.sleepQueue with
  | nil => rfl
  | cons sq l =>
    have hnot : looksAfter r cpu (s.entry sq).thread = false := by
      apply Bool.eq_false_iff.mpr
      intro hown
      exact h ⟨sq, by rw [hl]; rfl, hown⟩
    simp [hnot]

/-- `blocking_time` is in time if and only if the first object of the queue is one that the CPU
looks after, or no such object is due within ten seconds, or the clock is about to overflow. -/
theorem blocking_time_in_time_iff (s : State) (h : Reach step anyStep Initial s) (r : Ready)
    (orig now : Int) (cpu : Nat) : InTime r s cpu (blockingTime r s orig now cpu) ↔
      HeadOwn r s cpu ∨ s64 (now + maxSleep) < max 0 orig ∨
        ∀ sq, Awaited r s cpu sq → s64 (now + maxSleep) ≤ wakeupTime s sq := by
  by_cases hown : HeadOwn r s cpu
  · exact iff_of_true (blockingTime_own (queued_reach h) hown) (.inl hown)
  · rw [blockingTime_other hown, or_iff_right hown]
    by_cases hwrap : s64 (now + maxSleep) < orig
    · rw [if_pos hwrap]
      exact iff_of_true (.inl (by decide)) (.inl (Int.lt_of_lt_of_le hwrap (Int.le_max_right ..)))
    · rw [if_neg hwrap, InTime]
      have hneg : s64 (now + maxSleep) < max 0 orig ↔ s64 (now + maxSleep) < 0 := by omega
      rw [hneg]

def twoCpus (q : List Tid) : Ready :=
  ⟨fun t =>
    ⟨t ∈ q, false, false, false, false, false, false, false, false, if t = .task 1 then 1 else 0⟩,
    q, false⟩

theorem blocking_time_in_time_second : ∃ s, s.sleepQueue = [2] ∧
    InTime (twoCpus []) s 0 (blockingTime (twoCpus []) s 0 0 0) := by
  obtain ⟨s, hs, hqueue, hthread⟩ := emptyQueue_reach.runTo
    (P := fun s => s.sleepQueue = [2] ∧ (s.entry 2).thread = .task 2) [.add 2 (.task 2) 1000000000]
      (by decide)
  refine ⟨s, hqueue, (blocking_time_in_time_iff s hs (twoCpus []) 0 0 0).mpr (.inl ⟨2, ?_, ?_⟩)⟩
  · rw [hqueue]
    rfl
  · rw [hthread]
    decide

theorem blocking_time_too_late : ∃ s, Reach step anyStep Initial s ∧
    ¬ InTime (twoCpus []) s 0 (blockingTime (twoCpus []) s 0 0 0) := by
  obtain ⟨s, hs, htime, hmem, hexp, hthread, hwake⟩ := emptyQueue_reach.runTo
    (P := fun s => blockingTime (twoCpus []) s 0 0 0 = maxSleep ∧ 2 ∈ s.sleepQueue ∧
      (s.entry 2).expired = false ∧ (s.entry 2).thread = .task 2 ∧ wakeupTime s 2 = 1000000000)
    [.add 1 (.task 1) 500000000, .add 2 (.task 2) 1000000000] (by decide)
  refine ⟨s, hs, ?_⟩
  rw [htime]
  rintro (hneg | hall)
  · exact absurd hneg (by decide)
  · have hle := hall 2 ⟨hmem, hexp, by rw [hthread]; decide⟩
    rw [hwake] at hle
    exact absurd hle (by decide)

/-! ## Whether -/

def Waits (r : Ready) (t : Tid) : Prop :=
  t ∈ r.readyQueue ∧ (r.thread t).runnable = true ∧ (r.thread t).running = false

theorem eligible_iff (hcurrent : current cpu = .idle cpu)
    (hrunning : ∀ t, (r.thread t).running = true → current (r.thread t).cpu = t)
    (hup : r.upcallsActive = false) (hidle : .idle cpu ∉ r.readyQueue) (ht : t ∈ r.readyQueue) :
    r.eligible cpu t = true ↔ (r.thread t).runnable = true ∧ (r.thread t).running = false := by
  have hother : (r.thread t).running = true → (r.thread t).cpu ≠ cpu := by
    intro hrun hcpu
    have hself := hrunning t hrun
    rw [hcpu, hcurrent] at hself
    exact hidle (hself ▸ ht)
  cases hrun : (r.thread t).running with
  | false => simp [Ready.eligible, hrun, hup]
  | true => simp [Ready.eligible, hrun, hup, hother hrun]

theorem pickFromIdle_iff (hcurrent : current cpu = .idle cpu)
    (hrunning : ∀ t, (r.thread t).running = true → current (r.thread t).cpu = t)
    (hup : r.upcallsActive = false) (hidle : .idle cpu ∉ r.readyQueue) (upcall : Option Tid) :
    pickFromIdle r cpu upcall = .idle cpu ↔ ∀ t, ¬ Waits r t := by
  -- the idle thread is not moved to the back of the queue
  have hrotate : r.rotate (.idle cpu) (.idle cpu) = r := by simp [Ready.rotate]
  simp only [pickFromIdle, Ready.pickThread, hrotate]
  cases hfind : r.readyQueue.find? (r.eligible cpu) with
  | some next =>
    have hmem := mem_of_find?_eq_some hfind
    have hnext := (eligible_iff hcurrent hrunning hup hidle hmem).mp (find?_some hfind)
    apply iff_of_false
    · rintro rfl
      exact hidle hmem
    · exact fun hall => hall next ⟨hmem, hnext⟩
  | none =>
    simp only [hup, Bool.false_eq_true, if_false, Option.getD_none, true_iff]
    rintro t ⟨hmem, hwaits⟩
    have hnot := find?_eq_none.mp hfind t hmem
    exact hnot ((eligible_iff hcurrent hrunning hup hidle hmem).mpr hwaits)

theorem runnableThreads_iff (hup : r.upcallsActive = false) (upcall : Bool) :
    runnableThreads r cpu upcall = true ↔ ∃ t, Waits r t ∧ looksAfter r cpu t = true := by
  simp only [runnableThreads, hup, Bool.false_and, Bool.or_false, any_eq_true, canRun,
    Bool.and_eq_true, Bool.not_eq_true', Waits, and_assoc]

/-- The check of the idle thread agrees with the scheduler if and only if no thread of the queue
waits, or one of those that wait is a microkernel thread or belongs to this CPU. -/
theorem idle_check_agrees_iff (r : Ready) (cpu : Nat) (current : Nat → Tid)
    (hcurrent : current cpu = .idle cpu)
    (hrunning : ∀ t, (r.thread t).running = true → current (r.thread t).cpu = t)
    (hup : r.upcallsActive = false) (hidle : .idle cpu ∉ r.readyQueue) (answer : Bool)
    (next : Option Tid) :
    (runnableThreads r cpu answer = false ↔ pickFromIdle r cpu next = .idle cpu) ↔
      (∀ t, ¬ Waits r t) ∨ ∃ t, Waits r t ∧ looksAfter r cpu t = true := by
  rw [pickFromIdle_iff hcurrent hrunning hup hidle, ← Bool.not_eq_true, runnableThreads_iff hup]
  constructor
  · intro h
    by_cases hown : ∃ t, Waits r t ∧ looksAfter r cpu t = true
    · exact .inr hown
    · exact .inl (h.mp hown)
  · rintro (hnone | ⟨t, hwaits, hown⟩)
    · exact iff_of_true (fun ⟨t, hwaits, _⟩ => hnone t hwaits) hnone
    · exact iff_of_false (fun h => h ⟨t, hwaits, hown⟩) (fun h => h t hwaits)

theorem idle_check_agrees_own :
    runnableThreads (twoCpus [.task 2]) 0 false = false ↔
      pickFromIdle (twoCpus [.task 2]) 0 none = .idle 0 :=
  (idle_check_agrees_iff (twoCpus [.task 2]) 0 .idle rfl (fun _ h => nomatch h) rfl (by decide)
    false none).mpr
    (.inr ⟨.task 2, by simp [Waits, twoCpus], by decide⟩)

/-- A thread that last ran on CPU 1 waits: CPU 0 could run it and goes to sleep. -/
theorem idle_check_disagrees :
    ¬ (runnableThreads (twoCpus [.task 1]) 0 false = false ↔
      pickFromIdle (twoCpus [.task 1]) 0 none = .idle 0) := by
  decide

/-! ## The sleep -/

theorem idleBlocks_right {time : Int} {upcall : Bool} {next : Option Tid}
    (h : idleBlocks r s orig now cpu upcall = some time)
    (htime : InTime r s cpu (blockingTime r s orig now cpu))
    (hagree : runnableThreads r cpu upcall = false ↔ pickFromIdle r cpu next = .idle cpu) :
    pickFromIdle r cpu next = .idle cpu ∧ ∀ sq, Awaited r s cpu sq → time ≤ wakeupTime s sq := by
  obtain ⟨⟨hpos, hnone⟩, rfl⟩ := of_when h
  exact ⟨hagree.mp hnone, htime.resolve_left (Int.not_lt.mpr (Int.le_of_lt hpos))⟩

end Guk.SchedIdle
