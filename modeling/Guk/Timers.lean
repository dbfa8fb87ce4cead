import Guk.SleepQueue
import Mathlib.Algebra.Group.Int.Defs

/-!
# Arming a timeout: `guk_nanosleep` and `guk_add_timer` (`sched.c`)

Both compute the wake-up time of their object from the current time and a duration, in
64 bits, and add it to the sleep queue. The duration of `guk_nanosleep` is unsigned,
that of `guk_add_timer` is signed and in milliseconds.
-/
namespace Guk.SleepQueue

open Runs Sched

def s64 (x : Int) : Int := (x + 2 ^ 63) % 2 ^ 64 - 2 ^ 63

theorem s64_range (x : Int) : -2 ^ 63 ≤ s64 x ∧ s64 x < 2 ^ 63 := by
  unfold s64
  omega

theorem s64_eq {x : Int} (hlo : -2 ^ 63 ≤ x) (hhi : x < 2 ^ 63) : s64 x = x := by
  unfold s64
  omega

theorem s64_add_s64 (x y : Int) : s64 (x + s64 y) = s64 (x + y) := by
  unfold s64
  omega

def gukAddTimer (start : Int) (current : Tid) (s : State) (sq : Nat) (timeout : Int) : State :=
  gukSleepQueueAdd { fill s sq current (s64 (start + s64 (timeout * 1000000))) with now := start }
    sq

def gukNanosleep (start : Int) (current : Tid) (s : State) (sq : Nat) (nanosecs : Nat) : State :=
  gukSleepQueueAdd
    { fill (initSleepQueue s sq) sq current (s64 (start + nanosecs)) with now := start } sq

inductive Arming where
  | nanosleep (nanosecs : Nat) (h : nanosecs < 2 ^ 64)
  | addTimer (timeout : Int) (h : 0 ≤ timeout ∧ timeout < 2 ^ 63)

def Arming.duration : Arming → Int
  | .nanosleep nanosecs _ => nanosecs
  | .addTimer timeout _ => timeout * 1000000

def arm (start : Int) (current : Tid) (s : State) (sq : Nat) : Arming → State
  | .nanosleep nanosecs _ => arrive s.arrivals sq (gukNanosleep start current s sq nanosecs)
  | .addTimer timeout _ => arrive s.arrivals sq (gukAddTimer start current s sq timeout)

/-- `guk_nanosleep` initialises its object, `guk_add_timer` takes it as it is. -/
def Arming.initialises : Arming → Bool
  | .nanosleep _ _ => true
  | .addTimer _ _ => false

def leaves (sq : Nat) (_ : State) : Label → Prop
  | .init x | .del x | .add x _ _ => x ≠ sq
  | .wakeExpired now => now < 2 ^ 63

def NeverEarly (start duration : Int) (sq : Nat) (armed : State) : Prop :=
  ∀ s, Reach step (leaves sq) (· = armed) s → ∀ now, s.now ≤ now → now < 2 ^ 63 →
    (s.entry sq).expired = false → ((wakeExpired now s).entry sq).expired = true →
      duration ≤ now - start

variable {s t armed : State} {a : Label} {sq : Nat} {start : Int}

/-! ## The armed object -/

section

variable (start : Int) (current : Tid) (s : State) (sq : Nat) (arming : Arming)

theorem arm_wakeupTime :
    wakeupTime (arm start current s sq arming) sq = s64 (start + arming.duration) := by
  cases arming with
  | nanosleep nanosecs h =>
      simp [arm, arrive, gukNanosleep, gukSleepQueueAdd, fill, wakeupTime, setEntry,
      Arming.duration]
  | addTimer timeout h =>
    simp [arm, arrive, gukAddTimer, gukSleepQueueAdd, fill, wakeupTime, setEntry, Arming.duration,
      s64_add_s64]

theorem arm_expired : ((arm start current s sq arming).entry sq).expired = true ↔
    arming.initialises = false ∧ (s.entry sq).expired = true := by
  cases arming with
  | nanosleep nanosecs h =>
    simp [arm, arrive, gukNanosleep, gukSleepQueueAdd, fill, initSleepQueue, setEntry,
      Arming.initialises]
  | addTimer timeout h =>
      simp [arm, arrive, gukAddTimer, gukSleepQueueAdd, fill, setEntry, Arming.initialises]

theorem arm_now :
    (arm start current s sq arming).now = start := by
  cases arming with
  | nanosleep nanosecs h | addTimer timeout h => rfl

theorem mem_arm :
    sq ∈ (arm start current s sq arming).sleepQueue := by
  cases arming with
  | nanosleep nanosecs h | addTimer timeout h => exact (List.mem_orderedInsert _).mpr (.inl rfl)

end

theorem Queued.fillAdd (h : Queued s) (hnot : sq ∉ s.sleepQueue) (current : Tid) (time : Int) :
    Queued (arrive s.arrivals sq
      (gukSleepQueueAdd { fill s sq current time with now := start } sq)) := by
  have hfill : Queued (fill s sq current time) := h.setEntry (.inr hnot)
  exact queued_add { hfill with } hnot

theorem queued_arm (h : Queued s) (hnot : sq ∉ s.sleepQueue) (start : Int) (current : Tid)
    (arming : Arming) :
    Queued (arm start current s sq arming) := by
  cases arming with
  | nanosleep nanosecs hn =>
    have hinit : Queued (initSleepQueue s sq) := h.setEntry (.inr hnot)
    exact hinit.fillAdd hnot current _
  | addTimer timeout ht => exact h.fillAdd hnot current _

/-! ## Until it is removed -/

structure Waiting (armed : State) (sq : Nat) (s : State) : Prop where
  queued : Queued s
  time : wakeupTime s sq = wakeupTime armed sq
  mark : (armed.entry sq).expired = true → (s.entry sq).expired = true

theorem Waiting.of_entry (h : Waiting armed sq s) (ht : Queued t) (he : t.entry sq = s.entry sq) :
    Waiting armed sq t := by
  refine ⟨ht, ?_, ?_⟩
  · rw [wakeupTime, he]
    exact h.time
  · rw [he]
    exact h.mark

theorem waiting_step (h : Waiting armed sq s) (ha : leaves sq s a) (hs : step s a = some t) :
    Waiting armed sq t := by
  have hq := queued_step h.queued hs
  cases a with
  | init x =>
    obtain ⟨-, rfl⟩ := of_unless hs
    exact h.of_entry hq (setEntry_other (Ne.symm ha))
  | add x thread time =>
    obtain ⟨-, rfl⟩ := of_unless hs
    apply h.of_entry hq
    exact (setEntry_other (Ne.symm ha)).trans (setEntry_other (Ne.symm ha))
  | del x =>
    cases hs
    exact h.of_entry hq (setEntry_other (Ne.symm ha))
  | wakeExpired now =>
    obtain ⟨-, rfl⟩ := of_when hs
    have hexp := expires_wakeExpired h.queued now
    refine ⟨hq, ?_, fun hm => (hexp.marked sq).mpr (.inl (h.mark hm))⟩
    exact (congrFun hexp.queue.2.2 sq).trans h.time

theorem waiting_reach (harmed : Queued armed) (h : Reach step (leaves sq) (· = armed) s) :
    Waiting armed sq s := by
  apply h.invariant
  · rintro s rfl
    exact ⟨harmed, rfl, id⟩
  · intro s a t hw ha hs
    exact waiting_step hw ha hs

/-! ## Early timeouts -/

/-- A timeout never comes early if and only if the sum of start and duration fits into the clock,
unless the object still has the mark of an earlier timeout. -/
theorem timeout_not_early_iff (s : State) (h : Reach step anyStep Initial s) (sq : Nat)
    (hnot : sq ∉ s.sleepQueue)
    (start : Int) (hlo : -2 ^ 63 ≤ start) (hhi : start < 2 ^ 63) (current : Tid) (arming : Arming) :
    NeverEarly start arming.duration sq (arm start current s sq arming) ↔
      (arming.initialises = false ∧ (s.entry sq).expired = true) ∨
        start + arming.duration < 2 ^ 63 := by
  rw [← arm_expired start current]
  have hqueued := queued_arm (queued_reach h) hnot start current arming
  have htime := arm_wakeupTime start current s sq arming
  have hrange := s64_range (start + arming.duration)
  constructor
  · intro hnever
    by_contra hcon
    obtain ⟨hmark, hlong⟩ := not_or.mp hcon
    -- the time wraps, so the object can be marked before start + duration
    have hearly := hnever _ (.start rfl) (max start (s64 (start + arming.duration)))
      (by rw [arm_now]; exact Int.le_max_left ..) (by omega) (Bool.eq_false_iff.mpr hmark) (by
        apply ((expires_wakeExpired hqueued _).marked sq).mpr
        refine .inr ⟨mem_arm start current s sq arming, Bool.eq_false_iff.mpr hmark, ?_⟩
        rw [htime]
        exact Int.le_max_right ..)
    omega
  · rintro hcond s hreach now - - hmark hmarked
    have hwait := waiting_reach hqueued hreach
    rcases hcond with hold | hfits
    · rw [hwait.mark hold] at hmark
      cases hmark
    · have hdur : 0 ≤ arming.duration := by
        cases arming with
        | nanosleep nanosecs hn => exact Int.natCast_nonneg nanosecs
        | addTimer timeout ht => exact Int.mul_nonneg ht.1 (by decide)
      rcases ((expires_wakeExpired hwait.queued now).marked sq).mp hmarked with hold | ⟨-, -, hle⟩
      · rw [hold] at hmark
        cases hmark
      · rw [hwait.time, htime, s64_eq (by omega) hfits] at hle
        omega

theorem timeout_not_early_second :
    NeverEarly 5 1000000000 1 (arm 5 (.task 1) emptyQueue 1 (.nanosleep 1000000000 (by decide))) :=
  (timeout_not_early_iff emptyQueue emptyQueue_reach 1 (by decide) 5 (by decide) (by decide)
    (.task 1)
    (.nanosleep 1000000000 (by decide))).mpr (.inr (by decide))

theorem timeout_early : ¬ NeverEarly 5 (2 ^ 64 - 1) 1
    (arm 5 (.task 1) emptyQueue 1 (.nanosleep (2 ^ 64 - 1) (by decide))) := by
  intro h
  have := h _ (.start rfl) 5 (by decide) (by decide) (by decide) (by decide)
  omega

end Guk.SleepQueue
