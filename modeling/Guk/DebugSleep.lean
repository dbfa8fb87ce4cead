import Guk.DebugPairing

/-!
# The sleep of the debugger's ring thread (`ring_thread` of `db-back.c`)

When the thread has handled all requests it blocks with preemption disabled, looks at the
ring once more and gives up the CPU. Indices keep their unwrapped value (`Guk.Ring`); the
frontend leaves no more requests in the ring than it has slots.
-/
namespace Guk.DebugSleep

open Guk.Ring Runs
open DebugPairing (ringSize)

inductive Front where
  | idle
  /-- `req_prod` has been written over `old` -/
  | check (old : Nat)
  | notify
  deriving DecidableEq, Repr

inductive Pc where
  /-- at `moretodo` -/
  | top
  | loop (rp : Nat)
  /-- in the handler of a request -/
  | handling (rp : Nat)
  /-- at `RING_PUSH_RESPONSES_AND_CHECK_NOTIFY` -/
  | push
  | block
  /-- the first test of `RING_FINAL_CHECK_FOR_REQUESTS` -/
  | final
  | setEvent
  | retest
  | dbWake
  /-- preemption is enabled again -/
  | schedule
  deriving DecidableEq, Repr

structure State where
  reqProd : Nat
  reqCons : Nat
  reqEvent : Nat
  front : Front
  pending : Bool
  pc : Pc
  runnable : Bool

inductive Label where
  /-- the frontend makes `n + 1` requests visible -/
  | push (n : Nat)
  | front
  | event
  | sleep
  | timer
  | thread

section

variable (s : State)

def stepThread : Option State :=
  match s.pc with
  | .top => if s.runnable then some { s with pc := .loop s.reqProd } else none
  | .loop rp =>
    if s.runnable then some { s with pc := if sameIdx s.reqCons rp then .push else .handling rp }
      else none
  | .handling rp =>
    if s.runnable then some { s with reqCons := s.reqCons + 1, pc := .loop rp } else none
  | .push => if s.runnable then some { s with pc := .block } else none
  | .block => if s.runnable then some { s with runnable := false, pc := .final } else none
  | .final => some { s with pc := if sameIdx s.reqProd s.reqCons then .setEvent else .dbWake }
  | .setEvent => some { s with reqEvent := s.reqCons + 1, pc := .retest }
  | .retest => some { s with pc := if sameIdx s.reqProd s.reqCons then .schedule else .dbWake }
  | .dbWake => some { s with runnable := true, pc := .top }
  | .schedule => if s.runnable then some { s with pc := .top } else none

def step : Label → Option State
  | .push n =>
    if s.front = .idle ∧ s.reqProd + (n + 1) ≤ s.reqCons + ringSize then
      some { s with reqProd := s.reqProd + (n + 1), front := .check s.reqProd }
    else none
  | .front =>
    match s.front with
    | .idle => none
    | .check old =>
      some { s with
        front := if subIdx s.reqProd s.reqEvent < subIdx s.reqProd old then .notify else .idle }
    | .notify => some { s with front := .idle, pending := true }
  | .event => if s.pending then some { s with pending := false, runnable := true } else none
  | .sleep =>
    match s.pc with
    | .handling _ => some { s with runnable := false }
    | _ => none
  | .timer =>
    match s.pc with
    | .handling _ => some { s with runnable := true }
    | _ => none
  | .thread => stepThread s

structure Initial : Prop where
  reqProd : s.reqProd = 0
  reqCons : s.reqCons = 0
  reqEvent : s.reqEvent = 1
  front : s.front = .idle
  pc : s.pc = .top

/-- A notification is due or has not been handled yet. -/
def due : Prop :=
  (∃ old, s.front = .check old ∧ subIdx s.reqProd s.reqEvent < subIdx s.reqProd old) ∨
    s.front = .notify ∨ s.pending = true

structure Inv : Prop where
  order : s.reqCons ≤ s.reqProd ∧ s.reqProd ≤ s.reqCons + ringSize
  loop : ∀ rp, s.pc = .loop rp → s.reqCons ≤ rp ∧ rp ≤ s.reqProd
  handling : ∀ rp, s.pc = .handling rp → s.reqCons < rp ∧ rp ≤ s.reqProd
  event : s.pc = .retest ∨ s.pc = .schedule → s.reqEvent = s.reqCons + 1
  asleep : s.pc = .schedule → s.runnable = false → s.reqProd = s.reqCons ∨ due s

end

variable {s u : State}

theorem same_iff {a b : Nat} (hba : b ≤ a) (hab : a ≤ b + ringSize) : sameIdx a b ↔ a = b := by
  have hsize : ringSize < idxMod := by decide
  exact sameIdx_iff (by omega) (by omega)

/-- The invariant says nothing about these places. -/
def Pc.plain : Pc → Bool
  | .loop _ | .handling _ | .retest | .schedule => false
  | _ => true

theorem inv_goto {pc : Pc} {b : Bool} (h : Inv s) (hpc : pc.plain = true) :
    Inv { s with pc := pc, runnable := b } := by
  cases pc with
  | loop rp | handling rp | retest | schedule => cases hpc
  | top | push | block | final | setEvent | dbWake => exact ⟨h.order, nofun, nofun, nofun, nofun⟩

theorem inv_stepThread (h : Inv s) (hs : stepThread s = some u) : Inv u := by
  obtain ⟨hle, hroom⟩ := h.order
  unfold stepThread at hs
  split at hs
  case h_1 =>
    obtain ⟨-, rfl⟩ := of_when hs
    refine { h with loop := ?_, handling := nofun, event := nofun, asleep := nofun }
    rintro rp ⟨⟩
    exact ⟨hle, le_rfl⟩
  case h_2 rp hpc =>
    obtain ⟨-, rfl⟩ := of_when hs
    obtain ⟨hlow, hhigh⟩ := h.loop rp hpc
    split
    · exact inv_goto h rfl
    · rename_i hne
      refine { h with loop := nofun, handling := ?_, event := nofun, asleep := nofun }
      rintro rp ⟨⟩
      exact ⟨Nat.lt_of_le_of_ne hlow fun he => hne (congrArg (· % idxMod) he), hhigh⟩
  case h_3 rp hpc =>
    obtain ⟨-, rfl⟩ := of_when hs
    obtain ⟨hlow, hhigh⟩ := h.handling rp hpc
    refine ⟨?_, ?_, nofun, nofun, nofun⟩
    · simp only
      omega
    · rintro rp ⟨⟩
      exact ⟨hlow, hhigh⟩
  case h_6 =>
    cases hs
    split <;> exact inv_goto h rfl
  case h_7 =>
    cases hs
    exact ⟨h.order, nofun, nofun, fun _ => rfl, nofun⟩
  case h_8 hpc =>
    cases hs
    split
    · rename_i hsame
      refine ⟨h.order, nofun, nofun, fun _ => h.event (.inl hpc), fun _ _ => .inl ?_⟩
      exact (same_iff hle hroom).mp hsame
    · exact inv_goto h rfl
  case h_9 =>
    cases hs
    exact inv_goto h rfl
  all_goals
    obtain ⟨-, rfl⟩ := of_when hs
    exact inv_goto h rfl

theorem inv_push {n : Nat} (h : Inv s) (hidle : s.front = .idle)
    (hn : s.reqProd + (n + 1) ≤ s.reqCons + ringSize) :
    Inv { s with reqProd := s.reqProd + (n + 1), front := .check s.reqProd } := by
  have hsize : ringSize < idxMod := by decide
  obtain ⟨hle, hroom⟩ := h.order
  refine ⟨⟨?_, hn⟩, fun rp hpc => ?_, fun rp hpc => ?_, h.event, fun hpc hrun => .inr ?_⟩
  · simp only
    omega
  · obtain ⟨hlow, hhigh⟩ := h.loop rp hpc
    exact ⟨hlow, Nat.le_add_right_of_le hhigh⟩
  · obtain ⟨hlow, hhigh⟩ := h.handling rp hpc
    exact ⟨hlow, Nat.le_add_right_of_le hhigh⟩
  · rcases h.asleep hpc hrun with heq | ⟨_, hdue, -⟩ | hdue | hdue
    · -- the push crosses `req_event`, which is next to the last request
      refine .inl ⟨s.reqProd, rfl, ?_⟩
      simp only [h.event (.inr hpc)]
      rw [subIdx_eq (by omega) (by omega), subIdx_eq (by omega) (by omega)]
      omega
    · simp [hidle] at hdue
    · simp [hidle] at hdue
    · exact .inr (.inr hdue)

theorem inv_step {a : Label} (h : Inv s) (hs : step s a = some u) : Inv u := by
  cases a with
  | push n =>
    obtain ⟨⟨hidle, hn⟩, rfl⟩ := of_when hs
    exact inv_push h hidle hn
  | front =>
    change (match s.front with | .idle => _ | .check old => _ | .notify => _) = some u at hs
    split at hs <;> cases hs
    · rename_i old hfront
      refine { h with asleep := fun hpc hrun => ?_ }
      rcases h.asleep hpc hrun with heq | ⟨old', hold, hcross⟩ | hdue | hdue
      · exact .inl heq
      · rw [hfront] at hold
        cases hold
        exact .inr (.inr (.inl (if_pos hcross)))
      · simp_all
      · exact .inr (.inr (.inr hdue))
    · exact { h with asleep := fun _ _ => .inr (.inr (.inr rfl)) }
  | event =>
    obtain ⟨-, rfl⟩ := of_when hs
    exact { h with asleep := by simp }
  | sleep | timer =>
    change (match s.pc with | .handling _ => _ | _ => _) = some u at hs
    split at hs <;> cases hs
    exact { h with asleep := by simp_all }
  | thread => exact inv_stepThread h hs

/-- When all notifications have been handled, the thread that has blocked at the end of its loop has
consumed every request. -/
theorem ring_thread_asleep_consumed (s : State) (h : Reach step anyStep Initial s)
    (hfront : s.front = .idle) (hpending : s.pending = false) (hpc : s.pc = .schedule)
    (hrunnable : s.runnable = false) : s.reqCons = s.reqProd := by
  have hinv : Inv s := by
    apply h.invariant
    · intro s hs
      constructor <;> simp [hs.pc, hs.reqProd, hs.reqCons]
    · intro s a u hi _ hs
      exact inv_step hi hs
  rcases hinv.asleep hpc hrunnable with heq | ⟨_, hdue, -⟩ | hdue | hdue
  · exact heq.symm
  · simp [hfront] at hdue
  · simp [hfront] at hdue
  · simp [hpending] at hdue

/-- The first request comes between `block` and the last test, the second one when the thread has
gone to sleep. -/
theorem ring_thread_asleep_two : ∃ s, Reach step anyStep Initial s ∧
    (s.pc = .schedule ∧ s.runnable = false ∧ s.reqProd = 2) ∧ s.reqCons = s.reqProd := by
  have h₀ : Reach step anyStep Initial ⟨0, 0, 1, .idle, false, .top, true⟩ :=
    .start ⟨rfl, rfl, rfl, rfl, rfl⟩
  obtain ⟨s, hs, hfront, hpending, hpc, hrun, hprod⟩ := h₀.runTo
    (P := fun s => s.front = .idle ∧ s.pending = false ∧ s.pc = .schedule ∧ s.runnable = false ∧
      s.reqProd = 2)
    (List.replicate 4 .thread ++ [.push 0, .thread, .front, .front, .event] ++ List.replicate 10
      .thread ++
      [.push 0, .front, .front, .event] ++ List.replicate 10 .thread) (by decide)
  exact ⟨s, hs, ⟨hpc, hrun, hprod⟩, ring_thread_asleep_consumed s hs hfront hpending hpc hrun⟩

end Guk.DebugSleep
