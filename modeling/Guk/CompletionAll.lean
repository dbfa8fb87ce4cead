import Guk.Completion

/-!
# Releasing everyone who waits (`completion.c`)

`guk_complete_all` sets the counter so high that everybody who is queued finds it
nonzero when it comes to test it. But `guk_complete` sets the same counter to 1.
-/
namespace Guk.CompletionAll

open Runs Sched Function
open WaitEvent (Alive)
open Completion (Pc At wakeUp wakeUp_spec)

def allDone : Nat := 2147483647

/-- Not in the code: `released` are the threads that were queued when `guk_complete_all` ran and
have not returned from that wait, `waiters` counts them and all waits that have begun since, and
`again` are the threads that blocked again after they had been released. -/
structure State extends Completion.State where
  released : List Tid
  waiters : Nat
  again : List Tid

inductive Label where
  | base (l : Completion.Label)
  | completeAll

def gukCompleteAll (s : State) : Option State :=
  (wakeUp s.toReady s.waitQueue).map fun r =>
    { s with
      toReady := r
      done := allDone
      released := s.waitQueue
      waiters := s.waitQueue.length }

def account (s : State) : Completion.Label → Completion.State → State
  | .wait _, u => { s with toState := u, waiters := s.waiters + 1 }
  | .retest t, u =>
    if s.done = 0 then
      { s with toState := u, again := if .task t ∈ s.released then .task t :: s.again else s.again }
    else { s with toState := u, released := s.released.filter (· ≠ .task t) }
  | _, u => { s with toState := u }

/-- The steps of `Guk.Completion`, and `guk_complete_all`. -/
def step (s : State) : Label → Option State
  | .base l => (Completion.step s.toState l).map (account s l)
  | .completeAll => gukCompleteAll s

structure Initial (s : State) : Prop where
  base : Completion.Initial s.toState
  released : s.released = []
  again : s.again = []

/-- After `guk_complete_all` nobody calls `guk_complete`, and fewer threads wait than it allows. -/
def releasing (s : State) : Label → Prop
  | .base .complete => s.released = []
  | .base (.wait _) => s.released ≠ [] → s.waiters + 1 < allDone
  | .completeAll => s.waitQueue.length < allDone
  | _ => True

/-- Everybody who waits after `guk_complete_all` is among the released, and `done` suffices. -/
structure Inv (s : State) : Prop where
  alive : ∀ t, Alive (s.thread t)
  queued : ∀ t, s.pc t ≠ .outside → .task t ∈ s.waitQueue
  /-- `done` covers all that still wait and may still come -/
  count : s.released ≠ [] → (allDone : Int) + s.released.length ≤ s.done + s.waiters
  few : s.released ≠ [] → s.waiters < allDone
  all : s.released ≠ [] → ∀ t, s.pc t ≠ .outside → .task t ∈ s.released
  again : s.again = []

variable {s u : State} {t : Nat}

theorem inv_initial (h : Initial s) : Inv s := by
  refine ⟨h.base.alive, ?_, ?_, ?_, ?_, h.again⟩
  · intro t ht
    exact absurd (h.base.pc t) ht
  · exact fun hne => absurd h.released hne
  · exact fun hne => absurd h.released hne
  · exact fun hne => absurd h.released hne

section

variable (h : Inv s) {v : Completion.State}

include h

theorem Inv.done_pos (hne : s.released ≠ []) : 0 < s.done := by
  have hcount := h.count hne
  have hfew := h.few hne
  have hlength := List.length_pos_iff.mpr hne
  omega

theorem inv_frame (halive : ∀ t, Alive (v.thread t))
    (hdone : v.done = s.done) (hqueue : v.waitQueue = s.waitQueue)
    (hpc : ∀ t, v.pc t ≠ .outside → s.pc t ≠ .outside) : Inv { s with toState := v } := by
  refine ⟨halive, ?_, ?_, h.few, ?_, h.again⟩
  · intro t ht
    change .task t ∈ v.waitQueue
    rw [hqueue]
    exact h.queued t (hpc t ht)
  · intro hne
    change _ ≤ v.done + _
    rw [hdone]
    exact h.count hne
  · intro hne t ht
    exact h.all hne t (hpc t ht)

theorem inv_wakes {r : Ready} (hw : Completion.Wakes s.toReady r) : Inv { s with toReady := r } :=
  inv_frame (v := { s.toState with toReady := r }) h (hw.alive h.alive) rfl rfl fun _ ht => ht

theorem inv_wait (hok : s.released ≠ [] → s.waiters + 1 < allDone) : Inv { s with
      toState := Completion.gukWaitForCompletion s.toState t
      waiters := s.waiters + 1 } := by
  unfold Completion.gukWaitForCompletion
  split
  case isTrue hd =>
    have hnone : s.released = [] := by
      by_contra hne
      have := h.done_pos hne
      omega
    refine ⟨Completion.alive_block h.alive _, ?_, ?_, ?_, ?_, h.again⟩
    · intro x hx
      change .task x ∈ s.waitQueue ++ [.task t]
      by_cases hxt : x = t
      · simp [hxt]
      · apply List.mem_append_left
        apply h.queued x
        simpa [Completion.sleepOn, hxt] using hx
    · exact fun hne => absurd hnone hne
    · exact fun hne => absurd hnone hne
    · exact fun hne => absurd hnone hne
  case isFalse hd =>
    have hpc' : ∀ x, (Completion.takeSignal s.toState t).pc x ≠ .outside → s.pc x ≠ .outside := by
      intro x hx
      by_cases hxt : x = t
      · simp [Completion.takeSignal, hxt] at hx
      · simpa [Completion.takeSignal, hxt] using hx
    refine ⟨h.alive, fun x hx => h.queued x (hpc' x hx), ?_, hok, fun hne x hx =>
      h.all hne x (hpc' x hx), h.again⟩
    intro hne
    have hcount := h.count hne
    simp only [Completion.takeSignal]
    omega

theorem inv_retest (hpc : s.pc t = .retest) :
    Inv (account s (.retest t) (Completion.retestDone s.toState t)) := by
  have hin : s.pc t ≠ .outside := by simp [hpc]
  unfold Completion.retestDone account
  by_cases hd : s.done = 0
  · have hnone : s.released = [] := by
      by_contra hne
      have := h.done_pos hne
      omega
    have hpc' : ∀ x, (Completion.sleepOn s.toState t).pc x ≠ .outside → s.pc x ≠ .outside := by
      intro x hx
      by_cases hxt : x = t
      · rw [hxt]
        exact hin
      · simpa [Completion.sleepOn, hxt] using hx
    have hnot : Tid.task t ∉ s.released := by simp [hnone]
    simp only [if_pos hd, if_neg hnot]
    exact inv_frame (v := Completion.sleepOn s.toState t) h (Completion.alive_block h.alive _) rfl
      rfl hpc'
  · simp only [if_neg hd]
    have hother : ∀ x, update s.pc t .outside x ≠ .outside → x ≠ t ∧ s.pc x ≠ .outside := by
      intro x hx
      by_cases hxt : x = t
      · simp [hxt] at hx
      · rw [update_of_ne hxt] at hx
        exact ⟨hxt, hx⟩
    have hsome : s.released.filter (· ≠ .task t) ≠ [] → s.released ≠ [] := by
      rintro hne hnil
      rw [hnil] at hne
      exact hne rfl
    refine ⟨h.alive, ?_, ?_, fun hne => h.few (hsome hne), ?_, h.again⟩
    · intro x hx
      obtain ⟨hxt, hx⟩ := hother x hx
      exact List.mem_filter.mpr ⟨h.queued x hx, by simpa using hxt⟩
    · intro hne
      have hcount := h.count (hsome hne)
      have hlt : (s.released.filter (· ≠ .task t)).length < s.released.length := by
        apply List.length_filter_lt_length_iff_exists.mpr
        exact ⟨.task t, h.all (hsome hne) t hin, by simp⟩
      simp only [Completion.takeSignal]
      omega
    · intro hne x hx
      obtain ⟨hxt, hx⟩ := hother x hx
      exact List.mem_filter.mpr ⟨h.all (hsome hne) x hx, by simpa using hxt⟩

theorem inv_completeAll (hok : s.waitQueue.length < allDone)
    (hs : gukCompleteAll s = some u) : Inv u := by
  obtain ⟨r, hr, hw, -⟩ := wakeUp_spec s.waitQueue s.toReady h.alive
  rw [gukCompleteAll, hr] at hs
  cases hs
  exact ⟨hw.alive h.alive, h.queued, fun _ => Int.le_refl _, fun _ => hok, fun _ => h.queued,
    h.again⟩

theorem inv_complete (hok : s.released = [])
    (hs : Completion.gukComplete s.toState = some v) : Inv { s with toState := v } := by
  obtain ⟨r, hr, hw, -⟩ := wakeUp_spec s.waitQueue s.toReady h.alive
  rw [Completion.gukComplete, hr] at hs
  cases hs
  exact { h with alive := hw.alive h.alive, count := fun hne => absurd hok hne }

theorem inv_step {l : Label} (hok : releasing s l) (hs : step s l = some u) : Inv u := by
  cases l with
  | completeAll => exact inv_completeAll h hok hs
  | base l =>
    obtain ⟨v, hv, rfl⟩ := Option.map_eq_some_iff.mp hs
    cases l with
    | wait t =>
      obtain ⟨-, rfl⟩ := of_when hv
      exact inv_wait h hok
    | schedule t =>
      obtain ⟨hat, rfl⟩ := of_when hv
      apply inv_frame (v := { Completion.leaveCpu s.toState t with pc := update s.pc t .retest }) h
        ((Completion.wakes_setRunning s.toReady (.task t) false).alive h.alive) rfl rfl
      intro x hx
      by_cases hxt : x = t
      · simp [hxt, hat.2]
      · simpa [hxt] using hx
    | retest t =>
      obtain ⟨hat, rfl⟩ := of_when hv
      exact inv_retest h hat.2
    | complete => exact inv_complete h hok hv
    | preempt t =>
      obtain ⟨-, rfl⟩ := of_when hv
      exact inv_wakes h (Completion.wakes_setRunning s.toReady (.task t) false)
    | resume t =>
      obtain ⟨-, rfl⟩ := of_when hv
      exact inv_wakes h (Completion.wakes_setRunning s.toReady (.task t) true)
    | wake t =>
      obtain ⟨r, hr, hv⟩ := Option.map_eq_some_iff.mp hv
      cases hv
      exact inv_wakes h (Completion.wakes_gukWake hr (h.alive _)).1
    | interrupt t =>
      obtain ⟨r, hr, hv⟩ := Option.map_eq_some_iff.mp hv
      cases hv
      exact inv_wakes h (Completion.wakes_gukInterrupt hr h.alive)
    | blockElsewhere t =>
      obtain ⟨-, rfl⟩ := of_when hv
      exact inv_frame (v := { s.toState with toReady := s.block (.task t) }) h
        (Completion.alive_block h.alive _) rfl rfl fun _ ht => ht

end

/-- Nobody whom `guk_complete_all` has released blocks again in the same wait. -/
theorem released_not_blocked (s : State) (h : Reach step releasing Initial s) : s.again = [] := by
  have hinv : Inv s := by
    apply h.invariant
    · exact fun _ => inv_initial
    · exact fun _ _ _ hi hok hs => inv_step hi hok hs
  exact hinv.again

def twoThreads : State := { Completion.twoThreads with released := [], waiters := 0, again := [] }

theorem initial_twoThreads : Initial twoThreads :=
  ⟨⟨rfl, rfl, fun _ => rfl, rfl, rfl, fun _ => ⟨rfl, rfl, rfl⟩⟩, rfl, rfl⟩

instance (s : State) (l : Label) : Decidable (releasing s l) :=
  match l with
  | .base .complete => inferInstanceAs (Decidable (s.released = []))
  | .base (.wait _) => inferInstanceAs (Decidable (s.released ≠ [] → s.waiters + 1 < allDone))
  | .completeAll => inferInstanceAs (Decidable (s.waitQueue.length < allDone))
  | .base (.schedule _) | .base (.retest _) | .base (.preempt _) | .base (.resume _) | .base
      (.wake _)
  | .base (.interrupt _) | .base (.blockElsewhere _) => inferInstanceAs (Decidable True)

def bothSleep : List Label :=
  [.base (.wait 0), .base (.wait 1), .base (.schedule 0), .base (.schedule 1)]

def bothTest : List Label :=
  [.base (.resume 0), .base (.retest 0), .base (.resume 1), .base (.retest 1)]

theorem released_not_blocked_both : ∃ s : State, s.returned = 2 ∧ s.completes = 1 ∧ s.again =
    [] := by
  have h₀ : Reach step releasing Initial twoThreads := .start initial_twoThreads
  obtain ⟨s, hs, hview⟩ := h₀.runGuardedTo (P := fun s => s.returned = 2 ∧ s.completes = 1)
    (bothSleep ++ .completeAll :: bothTest ++ [.base .complete]) (by decide +kernel)
  exact ⟨s, hview.1, hview.2, released_not_blocked s hs⟩

theorem released_blocked : ∃ s, Reach step anyStep Initial s ∧ s.again = [.task 1] ∧
    s.waiters < allDone := by
  have h₀ : Reach step anyStep Initial twoThreads := .start initial_twoThreads
  obtain ⟨s, hs, hview⟩ := h₀.runTo (P := fun s => s.again = [.task 1] ∧ s.waiters < allDone)
    (bothSleep ++ .completeAll :: .base .complete :: bothTest) (by decide +kernel)
  exact ⟨s, hs, hview⟩

end Guk.CompletionAll
