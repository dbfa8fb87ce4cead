import Guk.Ring
import Guk.Runs

/-!
# A thread that reads from the console (`guk_console_readbytes`)

The thread looks whether there is input, under `xencons_lock`, and otherwise
enters `console_queue` and blocks. The backend puts input into the ring and sends
an event, whose handler wakes the threads of the queue. A section under a lock is
one step, and so is the call of `block` at the end of the loop, which is under no
lock.
-/
namespace Guk.ConsoleRead

open Guk.Ring Runs

/-- Where the thread is in `guk_console_readbytes`. -/
inductive Pc where
  | outside
  /-- before the test of the ring -/
  | test (len : Nat)
  /-- the ring was empty; before `add_waiter` -/
  | enqueue (len : Nat)
  /-- before `schedule`, or in it -/
  | schedule (len : Nat)
  /-- before `xencons_ring_recv` in the loop -/
  | recv (len : Nat)
  /-- nothing was received; before `block(current)` -/
  | block (len : Nat)
  /-- before `remove_waiter` -/
  | leave (data : List UInt8)
  /-- the call has returned, with so many bytes -/
  | returned (data : List UInt8)
  deriving DecidableEq, Repr

structure State where
  inRing : Nat → UInt8
  inProd : Nat
  inCons : Nat
  pc : Pc
  runnable : Bool
  /-- the thread is in `console_queue` -/
  queued : Bool
  /-- input has come whose event was not sent yet -/
  owed : Bool
  /-- the event is pending -/
  pending : Bool
  /-- `handle_input` is about to call `wake_up` -/
  handling : Bool

inductive Label where
  | call (len : Nat)
  | run
  /-- the backend writes bytes and then moves `in_prod` -/
  | arrive (bytes : List UInt8)
  | notify
  | event
  | wakeUp

section

variable (size : Nat)

def recvFrom (s : State) : (n filled : Nat) → List UInt8
  | 0, _ => []
  | n + 1, filled =>
    if sameIdx (s.inCons + filled) s.inProd then []
    else s.inRing ((s.inCons + filled) % size) :: recvFrom s n (filled + 1)

def xenconsRingAvail (s : State) : Nat := subIdx s.inProd s.inCons

def xenconsRingRecv (s : State) (len : Nat) : List UInt8 × State :=
  let data := recvFrom size s len 0
  (data, { s with inCons := s.inCons + data.length })

def overfull (s : State) : Bool := decide (subIdx s.inProd s.inCons > size)

def stepReader (s : State) : Option State :=
  match s.pc with
  | .outside => none
  | .test len =>
    if overfull size s then none
    else if xenconsRingAvail s ≠ 0 then
      let (data, s) := xenconsRingRecv size s len
      some { s with pc := .returned data }
    else some { s with pc := .enqueue len }
  | .enqueue len => some { s with queued := true, runnable := false, pc := .schedule len }
  | .schedule len => some { s with pc := .recv len }
  | .recv len =>
    if overfull size s then none
    else
      let (data, s) := xenconsRingRecv size s len
      some { s with pc := if data = [] then .block len else .leave data }
  | .block len => some { s with runnable := false, pc := .schedule len }
  | .leave data => some { s with queued := false, pc := .returned data }
  | .returned _ => some { s with pc := .outside }

def putBytes (ring : Nat → UInt8) (prod : Nat) : List UInt8 → Nat → UInt8
  | [] => ring
  | b :: bytes => putBytes (Function.update ring (prod % size) b) (prod + 1) bytes

def step (s : State) : Label → Option State
  | .call len => if s.pc = .outside ∧ 0 < len then some { s with pc := .test len } else none
  -- a thread that is not runnable does not run
  | .run => if s.runnable then stepReader size s else none
  | .arrive bytes =>
    if bytes ≠ [] ∧ subIdx s.inProd s.inCons + bytes.length ≤ size then
      some { s with
        inRing := putBytes size s.inRing s.inProd bytes
        inProd := s.inProd + bytes.length
        owed := true }
    else none
  | .notify => if s.owed then some { s with owed := false, pending := true } else none
  | .event => if s.pending then some { s with pending := false, handling := true } else none
  | .wakeUp =>
    if s.handling then some { s with handling := false, runnable := s.runnable || s.queued }
      else none

end

/-- There is input that the thread has not read. -/
def HasInput (s : State) : Prop := ¬ sameIdx s.inCons s.inProd

instance (s : State) : Decidable (HasInput s) := inferInstanceAs (Decidable (¬ _))

/-- The event for the input has not been handled to its end. -/
def EventToCome (s : State) : Prop := s.owed = true ∨ s.pending = true ∨ s.handling = true

instance (s : State) : Decidable (EventToCome s) := inferInstanceAs (Decidable (_ ∨ _))

structure Initial (s : State) : Prop where
  pc : s.pc = .outside
  runnable : s.runnable = true

/-- The thread is not left asleep with input in the ring. -/
def NoSleepOnInput (s : State) : Prop := ¬ (HasInput s ∧ ¬ EventToCome s ∧ s.runnable = false)

def Pc.blocks : Pc → Bool
  | .enqueue _ | .block _ => true
  | _ => false

/-- The queue is not woken while the thread is about to block and there is input. -/
def quietGap (s : State) : Label → Prop
  | .wakeUp => s.pc.blocks = true → ¬ HasInput s
  | _ => True

instance (s : State) : (a : Label) → Decidable (quietGap s a)
  | .wakeUp => inferInstanceAs (Decidable (_ → _))
  | .call _ | .run | .arrive _ | .notify | .event => isTrue trivial

def Pc.len : Pc → Option Nat
  | .test len | .enqueue len | .schedule len | .recv len | .block len => some len
  | _ => none

def Pc.inLoop : Pc → Bool
  | .schedule _ | .recv _ | .block _ => true
  | _ => false

/-- A blocked thread is in the queue, and input for it is announced by an event. -/
structure Inv (s : State) : Prop where
  asleep : s.runnable = false → s.pc.inLoop = true
  queue : s.pc.inLoop = true → s.queued = true
  announced : s.runnable = false ∨ s.pc.blocks = true → HasInput s → EventToCome s
  asked : ∀ len, s.pc.len = some len → 0 < len

variable {size len c : Nat} {s u : State} {pc : Pc}

theorem avail_eq_zero_iff (s : State) : xenconsRingAvail s = 0 ↔ ¬ HasInput s := by
  unfold xenconsRingAvail HasInput sameIdx subIdx idxMod
  omega

theorem recvFrom_eq_nil (hlen : 0 < len) (h : recvFrom size s len 0 = []) : ¬ HasInput s := by
  cases len with
  | zero => exact absurd hlen (lt_irrefl 0)
  | succ n =>
    intro hin
    rw [recvFrom, Nat.add_zero, if_neg hin] at h
    cases h

theorem inv_initial (h : Initial s) : Inv s := by
  have hpc := h.pc
  have hrun := h.runnable
  constructor <;> simp [hpc, hrun, Pc.blocks, Pc.inLoop, Pc.len]

theorem inv_goto (h : s.runnable = true) (hblocks : pc.blocks = false)
    (hqueue : pc.inLoop = true → s.queued = true) (hlen : ∀ len, pc.len = some len → 0 < len) :
    Inv { s with inCons := c, pc := pc } := by
  refine ⟨?_, hqueue, ?_, hlen⟩
  · intro hnot
    rw [h] at hnot
    cases hnot
  · rintro (hnot | hgap)
    · rw [h] at hnot
      cases hnot
    · rw [hblocks] at hgap
      cases hgap

theorem inv_out (h : s.runnable = true) (hblocks : pc.blocks = false)
    (hloop : pc.inLoop = false) (hlen : pc.len = none) : Inv { s with inCons := c, pc := pc } := by
  refine inv_goto h hblocks ?_ ?_
  · intro hin
    rw [hloop] at hin
    cases hin
  · intro len hsome
    rw [hlen] at hsome
    cases hsome

theorem inv_empty (h : s.runnable = true) (hempty : ¬ HasInput s)
    (hqueue : pc.inLoop = true → s.queued = true) (hlen : ∀ len, pc.len = some len → 0 < len) :
    Inv { s with pc := pc } := by
  refine ⟨?_, hqueue, fun _ hin => absurd hin hempty, hlen⟩
  intro hnot
  rw [h] at hnot
  cases hnot

theorem inv_block (h : Inv s) (hgap : s.pc.blocks = true) (hlen : s.pc.len = some len) :
    Inv { s with queued := true, runnable := false, pc := .schedule len } := by
  refine ⟨fun _ => rfl, fun _ => rfl, fun _ hin => h.announced (.inr hgap) hin, ?_⟩
  intro n hn
  cases hn
  exact h.asked len hlen

theorem inv_run (h : Inv s) (hrun : s.runnable = true) (hs : stepReader size s = some u) :
    Inv u := by
  unfold stepReader at hs
  cases hpc : s.pc with
  | outside =>
    rw [hpc] at hs
    cases hs
  | test len =>
    have hlen : 0 < len := h.asked len (by rw [hpc]; rfl)
    rw [hpc] at hs
    obtain ⟨-, hs⟩ := Option.ite_none_left_eq_some.mp hs
    split at hs
    · cases hs
      exact inv_out hrun rfl rfl rfl
    · rename_i havail
      cases hs
      have hempty := (avail_eq_zero_iff s).mp (Classical.not_not.mp havail)
      refine inv_empty hrun hempty ?_ ?_
      · intro hin
        cases hin
      · intro n hn
        cases hn
        exact hlen
  | enqueue len =>
    rw [hpc] at hs
    cases hs
    exact inv_block h (by rw [hpc]; rfl) (by rw [hpc]; rfl)
  | schedule len =>
    rw [hpc] at hs
    cases hs
    refine inv_goto (c := s.inCons) hrun rfl (fun _ => h.queue (by rw [hpc]; rfl)) ?_
    intro n hn
    cases hn
    exact h.asked len (by rw [hpc]; rfl)
  | recv len =>
    have hlen : 0 < len := h.asked len (by rw [hpc]; rfl)
    have hqueued := h.queue (by rw [hpc]; rfl)
    rw [hpc] at hs
    obtain ⟨-, rfl⟩ := of_unless hs
    by_cases hdata : recvFrom size s len 0 = []
    · -- `in_cons` is where it was
      have hblock : Inv { s with pc := .block len } := by
        refine inv_empty hrun (recvFrom_eq_nil hlen hdata) (fun _ => hqueued) ?_
        intro n hn
        cases hn
        exact hlen
      simp only [hdata, List.length_nil, Nat.add_zero, if_true]
      exact hblock
    · simp only [hdata, if_false]
      exact inv_out hrun rfl rfl rfl
  | block len =>
    have hqueued := h.queue (by rw [hpc]; rfl)
    rw [hpc] at hs
    cases hs
    have hblock := inv_block h (by rw [hpc]; rfl) (by rw [hpc]; rfl)
    rw [← hqueued] at hblock
    exact hblock
  | leave data =>
    rw [hpc] at hs
    cases hs
    exact inv_out (s := { s with queued := false }) (c := s.inCons) hrun rfl rfl rfl
  | returned data =>
    rw [hpc] at hs
    cases hs
    exact inv_out (c := s.inCons) hrun rfl rfl rfl

theorem inv_event (h : Inv s) (hpc : u.pc = s.pc) (hrun : u.runnable = s.runnable)
    (hqueued : u.queued = s.queued)
    (hcome : (HasInput s → EventToCome s) → HasInput u → EventToCome u) : Inv u := by
  constructor
  · rw [hrun, hpc]
    exact h.asleep
  · rw [hpc, hqueued]
    exact h.queue
  · rw [hrun, hpc]
    intro hblocks
    exact hcome (h.announced hblocks)
  · rw [hpc]
    exact h.asked

theorem inv_wakeUp (h : Inv s) (hok : s.pc.blocks = true → ¬ HasInput s) :
    Inv { s with handling := false, runnable := s.runnable || s.queued } := by
  have hwake : (s.runnable || s.queued) = true := by
    cases hrun : s.runnable with
    | true => rfl
    | false => exact h.queue (h.asleep hrun)
  constructor
  · intro hnot
    rw [hwake] at hnot
    cases hnot
  · exact h.queue
  · rintro (hnot | hgap) hin
    · rw [hwake] at hnot
      cases hnot
    · exact absurd hin (hok hgap)
  · exact h.asked

theorem inv_step {a : Label} (h : Inv s) (hok : quietGap s a) (hs : step size s a = some u) :
    Inv u := by
  cases a with
  | call len =>
    obtain ⟨⟨hout, hlen⟩, rfl⟩ := of_when hs
    have hrun : s.runnable = true := by
      by_contra hnot
      have hloop := h.asleep (Bool.eq_false_iff.mpr hnot)
      rw [hout] at hloop
      cases hloop
    refine inv_goto (c := s.inCons) hrun rfl ?_ ?_
    · intro hin
      cases hin
    · intro n hn
      cases hn
      exact hlen
  | run =>
    obtain ⟨hrun, hs⟩ := Option.ite_none_right_eq_some.mp hs
    exact inv_run h hrun hs
  | arrive bytes =>
    obtain ⟨-, rfl⟩ := of_when hs
    exact inv_event h rfl rfl rfl fun _ _ => .inl rfl
  | notify =>
    obtain ⟨-, rfl⟩ := of_when hs
    exact inv_event h rfl rfl rfl fun _ _ => .inr (.inl rfl)
  | event =>
    obtain ⟨-, rfl⟩ := of_when hs
    exact inv_event h rfl rfl rfl fun _ _ => .inr (.inr rfl)
  | wakeUp =>
    obtain ⟨-, rfl⟩ := of_when hs
    exact inv_wakeUp h hok

/-- The thread does not sleep on input in the runs in which no `wake_up` for input falls between its
look at the ring and `block`. -/
theorem no_sleep_on_input (size : Nat) (s : State) (h : Reach (step size) quietGap Initial s) :
    NoSleepOnInput s := by
  have hinv : Inv s := h.invariant (fun _ => inv_initial) fun _ _ _ => inv_step
  rintro ⟨hin, hnone, hrun⟩
  exact hnone (hinv.announced (.inl hrun) hin)

/-! ## A wakeup that is lost -/

def nobodyReads : State := ⟨fun _ => 0, 0, 0, .outside, true, false, false, false, false⟩

theorem nobodyReads_initial : Initial nobodyReads := ⟨rfl, rfl⟩

theorem no_sleep_on_input_woken : ∃ s, Reach (step 1024) quietGap Initial s ∧ HasInput s ∧
    ¬ EventToCome s ∧ s.pc = .schedule 8 ∧ s.runnable = true ∧ NoSleepOnInput s := by
  have h₀ : Reach (step 1024) quietGap Initial nobodyReads := .start nobodyReads_initial
  obtain ⟨s, hs, hin, hcome, hpc, hrun⟩ := h₀.runGuardedTo
    (P := fun s => HasInput s ∧ ¬ EventToCome s ∧ s.pc = .schedule 8 ∧ s.runnable = true)
    [.call 8, .run, .run, .arrive [104, 105], .notify, .event, .wakeUp] (by decide +kernel)
  exact ⟨s, hs, hin, hcome, hpc, hrun, no_sleep_on_input 1024 s hs⟩

theorem sleeps_on_input :
    ¬ ∀ s, Reach (step 1024) anyStep Initial s → NoSleepOnInput s := by
  intro hall
  have h₀ : Reach (step 1024) anyStep Initial nobodyReads := .start nobodyReads_initial
  obtain ⟨s, hs, hsleeps⟩ := h₀.runTo
    (P := fun s => HasInput s ∧ ¬ EventToCome s ∧ s.runnable = false)
    [.call 8, .run, .arrive [104, 105], .notify, .event, .wakeUp, .run] (by decide +kernel)
  exact hall s hs hsleeps

end Guk.ConsoleRead
