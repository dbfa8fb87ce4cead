import Guk.Runs
import Guk.Sched
import Guk.StableOrder

/-!
# The sleep queue (`sched.c`)

The objects of the sleep queue, `struct sleep_queue`, belong to sleeping threads and to
timers. `guk_sleep_queue_add` keeps the queue in the order of the wake-up times;
`wake_expired` goes through it, marks the objects whose time has come and wakes their
threads, and leaves the removal to the owners.

Everything here runs under `sleep_lock`. An owner fills in an object only while it is
not queued.
-/
namespace Guk.SleepQueue

open Runs Sched StableOrder List

structure Entry where
  active : Bool
  expired : Bool
  wakeupTime : Int
  thread : Tid

/-- `now` is the time that was read last. Two fields are not in the code: `arrivals` are the objects
that have been added and not deleted, in the order of their addition, and `woken` are the threads
for which `wake` has been called. -/
structure State where
  entry : Nat → Entry
  sleepQueue : List Nat
  now : Int
  arrivals : List Nat
  woken : List Tid

def setEntry (s : State) (sq : Nat) (e : Entry) : State :=
  { s with entry := Function.update s.entry sq e }

def wakeupTime (s : State) (sq : Nat) : Int := (s.entry sq).wakeupTime

def initSleepQueue (s : State) (sq : Nat) : State :=
  setEntry s sq { s.entry sq with active := false, expired := false }

def gukSleepQueueAdd (s : State) (sq : Nat) : State :=
  { setEntry s sq { s.entry sq with active := true } with
    sleepQueue := s.sleepQueue.orderedInsert (fun a b => wakeupTime s a < wakeupTime s b) sq }

def gukSleepQueueDel (s : State) (sq : Nat) : State :=
  { setEntry s sq { s.entry sq with active := false } with
    sleepQueue := s.sleepQueue.filter (· ≠ sq) }

def expire (s : State) (sq : Nat) : State :=
  { setEntry s sq { s.entry sq with expired := true } with
    woken := s.woken ++ [(s.entry sq).thread] }

def wakeLoop (now : Int) : List Nat → State → State
  | [], s => s
  | sq :: rest, s =>
    if (s.entry sq).expired then wakeLoop now rest s
    else if wakeupTime s sq ≤ now then wakeLoop now rest (expire s sq)
    else s

def wakeExpired (now : Int) (s : State) : State := wakeLoop now s.sleepQueue s

inductive Label where
  | init (sq : Nat)
  /-- the owner fills in the object and calls `guk_sleep_queue_add` -/
  | add (sq : Nat) (thread : Tid) (wakeupTime : Int)
  | del (sq : Nat)
  | wakeExpired (now : Int)

def fill (s : State) (sq : Nat) (thread : Tid) (wakeupTime : Int) : State :=
  setEntry s sq { s.entry sq with thread, wakeupTime }

/-- The object is the last that has been added. -/
def arrive (arrivals : List Nat) (sq : Nat) (s : State) : State :=
  { s with arrivals := arrivals ++ [sq] }

def step (s : State) : Label → Option State
  | .init sq => if sq ∈ s.sleepQueue then none else some (initSleepQueue s sq)
  | .add sq thread time =>
    if sq ∈ s.sleepQueue then none else some
      (arrive s.arrivals sq (gukSleepQueueAdd (fill s sq thread time) sq))
  | .del sq => some { gukSleepQueueDel s sq with arrivals := s.arrivals.filter (· ≠ sq) }
  | .wakeExpired now => if s.now ≤ now then some { wakeExpired now s with now } else none

def Initial (s : State) : Prop := s.sleepQueue = [] ∧ s.arrivals = []

def due (now : Int) (s : State) (sq : Nat) : Bool :=
  !(s.entry sq).expired && decide (wakeupTime s sq ≤ now)

def allDue (now : Int) (s : State) : List Nat := s.sleepQueue.filter (due now s)

variable {s t : State} {a : Label} {sq : Nat} {l : List Nat} {now : Int} {e : Entry}

/-! ## The queue -/

structure Queued (s : State) : Prop where
  ordered : InOrder (wakeupTime s) s.arrivals s.sleepQueue
  nodup : s.sleepQueue.Nodup
  mem : ∀ sq, sq ∈ s.sleepQueue ↔ sq ∈ s.arrivals

theorem mem_allDue : sq ∈ allDue now s ↔
    sq ∈ s.sleepQueue ∧ (s.entry sq).expired = false ∧ wakeupTime s sq ≤ now := by
  simp [allDue, due]

theorem setEntry_other {x : Nat} (h : x ≠ sq) : (setEntry s sq e).entry x = s.entry x :=
  Function.update_of_ne h ..

theorem wakeupTime_setEntry (h : e.wakeupTime = wakeupTime s sq) :
    wakeupTime (setEntry s sq e) = wakeupTime s := by
  funext x
  by_cases hx : x = sq
  · subst hx
    simp [wakeupTime, setEntry, h]
  · rw [wakeupTime, setEntry_other hx, wakeupTime]

theorem Queued.setEntry (h : Queued s) (he : e.wakeupTime = wakeupTime s sq ∨ sq ∉ s.sleepQueue) :
    Queued (setEntry s sq e) := by
  refine ⟨?_, h.nodup, h.mem⟩
  rcases he with heq | hnot
  · rw [wakeupTime_setEntry heq]
    exact h.ordered
  · apply h.ordered.congr
    intro x hx
    have hne : x ≠ sq := ne_of_mem_of_not_mem hx hnot
    rw [wakeupTime, setEntry_other hne, wakeupTime]

theorem queued_add (h : Queued s) (hnot : sq ∉ s.sleepQueue) :
    Queued (arrive s.arrivals sq (gukSleepQueueAdd s sq)) := by
  have hperm := perm_orderedInsert (fun a b => wakeupTime s a < wakeupTime s b) sq s.sleepQueue
  have htime : wakeupTime (gukSleepQueueAdd s sq) = wakeupTime s :=
    wakeupTime_setEntry (e := { s.entry sq with active := true }) rfl
  refine ⟨?_, hperm.nodup_iff.mpr (List.nodup_cons.mpr ⟨hnot, h.nodup⟩), ?_⟩
  · have hinsert := h.ordered.insert (fun x hx => (h.mem x).mp hx) sq
    exact hinsert.congr fun x _ => congrFun htime x
  · intro x
    refine hperm.mem_iff.trans ?_
    simp only [arrive, mem_cons, mem_append, not_mem_nil, or_false, h.mem x]
    exact or_comm

theorem queued_del (h : Queued s) (sq : Nat) :
    Queued { gukSleepQueueDel s sq with arrivals := s.arrivals.filter (· ≠ sq) } := by
  have htime : wakeupTime (gukSleepQueueDel s sq) = wakeupTime s :=
    wakeupTime_setEntry (e := { s.entry sq with active := false }) rfl
  refine ⟨?_, h.nodup.filter _, ?_⟩
  · exact (h.ordered.remove sq).congr fun x _ => congrFun htime x
  · intro x
    simp only [gukSleepQueueDel, mem_filter, h.mem x]

/-! ## One pass of `wake_expired` -/

theorem expire_entry (s : State) (sq x : Nat) :
    (expire s sq).entry x = if x = sq then { s.entry x with expired := true } else s.entry x := by
  by_cases hx : x = sq
  · subst hx
    simp [expire, setEntry]
  · simp [expire, setEntry, hx]

theorem wakeupTime_expire (s : State) (sq : Nat) : wakeupTime (expire s sq) = wakeupTime s :=
  wakeupTime_setEntry (e := { s.entry sq with expired := true }) rfl

theorem foldl_expire_entry (l : List Nat) (s : State) (x : Nat) :
    (l.foldl expire s).entry x = if x ∈ l then { s.entry x with expired := true } else s.entry
      x := by
  induction l generalizing s with
  | nil => rfl
  | cons sq l ih =>
    rw [foldl_cons, ih, expire_entry]
    by_cases hx : x = sq
    · simp [hx]
    · simp [hx]

theorem foldl_expire_woken (l : List Nat) (s : State) :
    (l.foldl expire s).woken = s.woken ++ l.map fun sq => (s.entry sq).thread := by
  induction l generalizing s with
  | nil => simp
  | cons sq l ih =>
    have hthread : ∀ x, ((expire s sq).entry x).thread = (s.entry x).thread := by
      intro x
      rw [expire_entry]
      split <;> rfl
    have hwoken : (expire s sq).woken = s.woken ++ [(s.entry sq).thread] := rfl
    rw [foldl_cons, ih, hwoken, append_assoc]
    simp only [hthread, map_cons, singleton_append]

theorem foldl_expire_queue (l : List Nat) (s : State) :
    (l.foldl expire s).sleepQueue = s.sleepQueue ∧ (l.foldl expire s).arrivals = s.arrivals ∧
      wakeupTime (l.foldl expire s) = wakeupTime s := by
  induction l generalizing s with
  | nil => exact ⟨rfl, rfl, rfl⟩
  | cons sq l ih =>
    obtain ⟨hqueue, harr, htime⟩ := ih (expire s sq)
    exact ⟨hqueue, harr, htime.trans (wakeupTime_expire s sq)⟩

theorem wakeLoop_eq (l : List Nat) (s : State)
    (hsorted : l.Pairwise fun a b => wakeupTime s a ≤ wakeupTime s b)
    (hnodup : l.Nodup) : wakeLoop now l s = (l.filter (due now s)).foldl expire s := by
  induction l generalizing s with
  | nil => rfl
  | cons sq l ih =>
    obtain ⟨hsq, hl⟩ := List.nodup_cons.mp hnodup
    have htail := (List.pairwise_cons.mp hsorted).2
    rw [wakeLoop]
    split
    case isTrue hexpired =>
      have hnot : ¬ due now s sq = true := by simp [due, hexpired]
      rw [filter_cons_of_neg hnot]
      exact ih s htail hl
    case isFalse hexpired =>
      split
      case isTrue htime =>
        have hdue : due now s sq = true := by simp [due, hexpired, htime]
        -- the other objects of the queue are as they were
        have hsame : l.filter (due now (expire s sq)) = l.filter (due now s) := by
          apply filter_congr
          intro x hx
          have hne : x ≠ sq := ne_of_mem_of_not_mem hx hsq
          simp only [due, wakeupTime_expire, expire_entry, if_neg hne]
        rw [filter_cons_of_pos hdue, foldl_cons, ← hsame]
        apply ih (expire s sq) _ hl
        rw [wakeupTime_expire]
        exact htail
      case isFalse htime =>
        have hnone : (sq :: l).filter (due now s) = [] := by
          apply List.filter_eq_nil_iff.mpr
          intro x hx
          have hlater := above_of_head hsorted (Int.not_le.mp htime) x hx
          simp only [due, Bool.and_eq_true, decide_eq_true_eq, not_and]
          exact fun _ => Int.not_le.mpr hlater
        rw [hnone, foldl_nil]

theorem wakeExpired_eq (h : Queued s) (now : Int) :
    wakeExpired now s = (allDue now s).foldl expire s :=
  wakeLoop_eq s.sleepQueue s h.ordered.sorted h.nodup

theorem queued_wakeExpired (h : Queued s) (now : Int) : Queued (wakeExpired now s) := by
  obtain ⟨hqueue, harr, htime⟩ := foldl_expire_queue (allDue now s) s
  rw [wakeExpired_eq h]
  refine ⟨?_, ?_, ?_⟩
  · rw [htime, hqueue, harr]
    exact h.ordered
  · rw [hqueue]
    exact h.nodup
  · rw [hqueue, harr]
    exact h.mem

theorem queued_step (h : Queued s) (hs : step s a = some t) : Queued t := by
  cases a with
  | init sq =>
    obtain ⟨-, rfl⟩ := of_unless hs
    exact h.setEntry (.inl rfl)
  | add sq thread time =>
    obtain ⟨hnot, rfl⟩ := of_unless hs
    exact queued_add (h.setEntry (.inr hnot)) hnot
  | del sq =>
    cases hs
    exact queued_del h sq
  | wakeExpired now =>
    obtain ⟨-, rfl⟩ := of_when hs
    have hq := queued_wakeExpired h now
    exact { hq with }

theorem queued_reach (h : Reach step anyStep Initial s) : Queued s := by
  apply h.invariant
  · rintro s ⟨hqueue, harr⟩
    refine ⟨?_, ?_, ?_⟩
    · rw [hqueue]
      exact List.Pairwise.nil
    · rw [hqueue]
      exact nodup_nil
    · rw [hqueue, harr]
      exact fun _ => Iff.rfl
  · intro s a t hq _ hs
    exact queued_step hq hs

/-! ## What a run of `wake_expired` does -/

def wakeAll (r : Ready) (threads : List Tid) : Option Ready :=
  threads.foldlM (fun r t => r.gukWake t) r

def Wakeable (r : Ready) (t : Tid) : Prop :=
  (r.thread t).dying = false ∧ (r.thread t).debugSuspend = false ∧
    (r.thread t).reqDebugSuspend = false

theorem gukWake_some {r : Ready} {t : Tid} (h : Wakeable r t) : ∃ r', r.gukWake t = some r' := by
  obtain ⟨hdying, hsusp, hreq⟩ := h
  simp only [Ready.gukWake, hdying, hsusp, hreq, Bool.false_eq_true, if_false]
  split
  · exact ⟨_, rfl⟩
  · exact ⟨_, rfl⟩

theorem wakeAll_runnable (threads : List Tid) (r : Ready) (h : ∀ t ∈ threads, Wakeable r t) :
    ∃ r', wakeAll r threads = some r' ∧ ∀ t, t ∈ threads ∨ (r.thread t).runnable = true →
      (r'.thread t).runnable = true := by
  induction threads generalizing r with
  | nil => exact ⟨r, rfl, fun t ht => ht.resolve_left not_mem_nil⟩
  | cons u threads ih =>
    obtain ⟨hu, hrest⟩ := List.forall_mem_cons.mp h
    obtain ⟨r₁, hr₁⟩ := gukWake_some hu
    have hthread := r.gukWake_thread hr₁ hu.2.1 hu.2.2
    have hwakeable : ∀ t ∈ threads, Wakeable r₁ t := by
      intro t ht
      unfold Wakeable
      rw [hthread]
      split
      · exact hrest t ht
      · exact hrest t ht
    obtain ⟨r', hr', hrun⟩ := ih r₁ hwakeable
    refine ⟨r', ?_, ?_⟩
    · rw [wakeAll, foldlM_cons, hr₁]
      exact hr'
    · intro t ht
      by_cases htu : t = u
      · apply hrun t
        rw [hthread, if_pos htu]
        exact .inr rfl
      · apply hrun t
        rw [hthread, if_neg htu]
        exact ht.imp_left fun hm => (List.mem_cons.mp hm).resolve_left htu

structure Expires (now : Int) (s t : State) : Prop where
  /-- the mark is set for what was due, and kept where it was set -/
  marked : ∀ sq, (t.entry sq).expired = true ↔ (s.entry sq).expired = true ∨
    sq ∈ s.sleepQueue ∧ (s.entry sq).expired = false ∧ wakeupTime s sq ≤ now
  /-- the threads of what was due are woken, in the order of the wake-up times -/
  woken : ∃ l : List Nat, t.woken = s.woken ++ l.map (fun sq => (s.entry sq).thread) ∧ l.Nodup ∧
    (∀ sq, sq ∈ l ↔ sq ∈ s.sleepQueue ∧ (s.entry sq).expired = false ∧ wakeupTime s sq ≤ now) ∧
    InOrder (wakeupTime s) s.arrivals l ∧
    ∀ r : Ready, (∀ sq ∈ l, Wakeable r (s.entry sq).thread) →
      ∃ r', wakeAll r (l.map fun sq => (s.entry sq).thread) = some r' ∧
        ∀ sq ∈ l, (r'.thread (s.entry sq).thread).runnable = true
  queue : t.sleepQueue = s.sleepQueue ∧ t.arrivals = s.arrivals ∧ wakeupTime t = wakeupTime s

theorem expires_wakeExpired (h : Queued s) (now : Int) : Expires now s (wakeExpired now s) := by
  rw [wakeExpired_eq h]
  refine ⟨?_, ?_, foldl_expire_queue (allDue now s) s⟩
  · intro sq
    rw [foldl_expire_entry, ← mem_allDue]
    by_cases hdue : sq ∈ allDue now s
    · simp [hdue]
    · simp [hdue]
  · refine ⟨allDue now s, foldl_expire_woken _ s, h.nodup.filter _, fun sq => mem_allDue,
      h.ordered.filter _, ?_⟩
    intro r hr
    obtain ⟨r', hr', hrun⟩ :=
      wakeAll_runnable ((allDue now s).map fun sq => (s.entry sq).thread) r (by
      intro t ht
      obtain ⟨sq, hsq, rfl⟩ := List.mem_map.mp ht
      exact hr sq hsq)
    exact ⟨r', hr', fun sq hsq => hrun _ (.inl (mem_map_of_mem hsq))⟩

/-- In every run the queue is in order and complete, and `wake_expired` at any time marks what is
due and wakes the threads, and nothing else. -/
theorem sleep_queue_kept (s : State) (h : Reach step anyStep Initial s) :
    Queued s ∧ ∀ now, Expires now s (wakeExpired now s) :=
  ⟨queued_reach h, expires_wakeExpired (queued_reach h)⟩

def emptyQueue : State := ⟨fun _ => ⟨false, false, 0, .task 0⟩, [], 0, [], []⟩

theorem emptyQueue_reach : Reach step anyStep Initial emptyQueue := .start ⟨rfl, rfl⟩

theorem sleep_queue_kept_three : ∃ s, (Queued s ∧ ∀ now, Expires now s (wakeExpired now s)) ∧
    s.sleepQueue = [2, 3, 1] ∧ (wakeExpired 15 s).woken = [.task 2, .task 3] := by
  obtain ⟨s, hs, hrun⟩ := emptyQueue_reach.runTo
    (P := fun s => s.sleepQueue = [2, 3, 1] ∧ (wakeExpired 15 s).woken = [.task 2, .task 3])
    [.add 1 (.task 1) 20, .add 2 (.task 2) 10, .add 3 (.task 3) 10] (by decide)
  exact ⟨s, sleep_queue_kept s hs, hrun⟩

end Guk.SleepQueue
