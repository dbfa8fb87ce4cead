import Guk.Ring
import Guk.Runs

/-!
# Suspending the block devices (`blk_front.c`)

`blk_suspend` goes through the devices, and for each one that is ready `drain_io` polls
a ring until every request on it has its response.

Threads submit requests and events run the handler, under the lock of their device; the
backend answers at any time. Of a ring there are the indices, which keep their unwrapped
value (`Guk.Ring`). `Guk.BlkRing` has what is on it, and that there are always fewer
requests than slots.
-/
namespace Guk.BlkSuspend

open Guk.Ring Runs Function Option

def MAX_DEVICES : Nat := 8
def MAX_POLL : Nat := 12
def BLK_RING_SIZE : Nat := 32

inductive DevState where
  | unknown
  | ready
  | suspending
  | suspended
  | resuming
  deriving DecidableEq, Repr

/-- Who holds the lock of a device. -/
inductive Holder where
  | suspend
  | thread (t : Nat)
  | event
  deriving DecidableEq, Repr

/-- A device: its state, the indices of its ring and its lock. -/
structure Dev where
  state : DevState
  reqProdPvt : Nat
  rspProd : Nat
  rspCons : Nat
  lock : Option Holder
  deriving DecidableEq, Repr

/-- Where `__blk_front_handler` is. -/
inductive Handler where
  | again
  /-- in the loop over the responses up to `prod` -/
  | pull (prod : Nat)
  deriving DecidableEq, Repr

/-- Where `blk_suspend` is. -/
inductive Pc where
  | idle
  | lock (i : Nat)
  /-- before the test of the state -/
  | test (i : Nat)
  /-- before `ring_has_unprocessed_resp` -/
  | unprocessed (i k : Nat)
  | handler (i k : Nat) (h : Handler)
  /-- before the `ring_has_incomp_req` of the loop -/
  | incomplete (i k : Nat)
  | release (i k : Nat)
  /-- asleep, or waiting for the lock -/
  | sleep (i k : Nat)
  /-- behind the loop, with `i == MAX_POLL` -/
  | warn (i : Nat)
  | unlock (i : Nat)
  | finish
  | returned
  deriving DecidableEq, Repr

/-- `inside` is the device whose lock a thread has in `guk_blk_read` or `guk_blk_write`, `event`
where the handler of an event is. Not in the code: `was`, the devices that were ready when
`blk_suspend` was called, and `unprotected`, the rings that it looked at or drained without their
lock. -/
structure State where
  dev : Nat → Dev
  pc : Pc
  inIrq : Bool
  warned : Bool
  inside : Nat → Option Nat
  event : Nat → Option Handler
  was : Nat → Bool
  unprotected : List Nat

inductive Label where
  | suspend
  /-- `wait_for_device_ready` returns with the lock -/
  | enter (t d : Nat)
  /-- `guk_blk_do_io` -/
  | submit (t : Nat)
  | leave (t : Nat)
  /-- `__blk_front_handler` -/
  | event (d : Nat)
  /-- the backend produces a response -/
  | respond (d : Nat)
  /-- `post_connect` of a new device -/
  | connect (d : Nat)

def setDev (s : State) (d : Nat) (v : Dev) : State := { s with dev := update s.dev d v }

def setLock (s : State) (d : Nat) (l : Option Holder) : State :=
  setDev s d { s.dev d with lock := l }

def handlerStep (v : Dev) : Handler → Option (Dev × Option Handler)
  | .again => some (v, some (.pull v.rspProd))
  | .pull prod =>
    if v.rspCons ≤ prod then
      some ({ v with rspCons := prod },
        if ¬ sameIdx prod v.reqProdPvt ∧ ¬ sameIdx v.rspProd prod then some .again else none)
    else none

def examine (s : State) : State :=
  if (s.dev 0).lock = some .suspend then s else { s with unprotected := 0 :: s.unprotected }

def nextPoll (i k : Nat) : Pc := if k + 1 < MAX_POLL then .unprocessed i (k + 1) else .warn i

def suspendStep (s : State) : Option State :=
  match s.pc with
  | .idle => some { s with pc := .lock 0, was := fun d => (s.dev d).state = .ready }
  | .lock i =>
    if i < MAX_DEVICES then
      if (s.dev i).lock = none then some { setLock s i (some .suspend) with pc := .test i }
        else none
    else some { s with pc := .finish }
  | .test i =>
    if (s.dev i).state ≠ .ready then some { setLock s i none with pc := .lock (i + 1) }
    else some { setDev s i { s.dev i with state := .suspending } with pc := .unprocessed i 0 }
  | .unprocessed i k =>
    some { examine s with
      pc := if sameIdx (s.dev 0).rspCons (s.dev 0).rspProd then .incomplete i k else .handler i k
        .again }
  | .handler i k h =>
    (handlerStep (s.dev 0) h).map fun (v, next) =>
      { setDev (examine s) 0 v with
        pc := match next with
          | some h => .handler i k h
          | none => .incomplete i k }
  | .incomplete i k =>
    some { examine s with
      pc :=
        if sameIdx (s.dev 0).reqProdPvt (s.dev 0).rspProd then .unlock i
        else if s.inIrq then nextPoll i k
        else .release i k }
  | .release i k => some { setLock s 0 none with pc := .sleep i k }
  | .sleep i k =>
    if (s.dev 0).lock = none then some { setLock s 0 (some .suspend) with pc := nextPoll i k }
      else none
  | .warn i =>
    some { examine s with
      warned := s.warned || ¬ sameIdx (s.dev 0).reqProdPvt (s.dev 0).rspProd
      pc := .unlock i }
  | .unlock i => some { setLock s i none with pc := .lock (i + 1) }
  | .finish =>
    some { s with
      dev := fun d =>
        if d < MAX_DEVICES ∧ (s.dev d).state = .suspending then { s.dev d with state := .suspended }
        else s.dev d
      pc := .returned }
  | .returned => none

def step (s : State) : Label → Option State
  | .suspend => suspendStep s
  | .enter t d =>
    if s.inside t = none ∧ (s.dev d).lock = none ∧ (s.dev d).state = .ready then
      some { setLock s d (some (.thread t)) with inside := update s.inside t (some d) }
    else none
  | .submit t =>
    (s.inside t).bind fun d =>
      if (s.dev d).state = .ready ∧
        (s.dev d).reqProdPvt + 1 < (s.dev d).rspCons + BLK_RING_SIZE then
        some (setDev s d { s.dev d with reqProdPvt := (s.dev d).reqProdPvt + 1 })
      else none
  | .leave t =>
    (s.inside t).map fun d => { setLock s d none with inside := update s.inside t none }
  | .event d =>
    match s.event d with
    | none =>
      if (s.dev d).lock = none then
        if (s.dev d).state = .ready then
          some { setLock s d (some .event) with event := update s.event d (some .again) }
        else some s
      else none
    | some h =>
      (handlerStep (s.dev d) h).map fun (v, next) =>
        { setDev s d { v with lock := if next = none then none else v.lock } with
          event := update s.event d next }
  | .respond d =>
    if (s.dev d).rspProd < (s.dev d).reqProdPvt then
      some (setDev s d { s.dev d with rspProd := (s.dev d).rspProd + 1 })
    else none
  | .connect d =>
    if (s.dev d).lock = none ∧ (s.dev d).state = .unknown then
      some (setDev s d { s.dev d with state := .ready })
    else none

/-- The indices of a ring are in order, with fewer requests than slots. -/
def Dev.Ordered (v : Dev) : Prop :=
  v.rspCons ≤ v.rspProd ∧ v.rspProd ≤ v.reqProdPvt ∧ v.reqProdPvt < v.rspCons + BLK_RING_SIZE

structure Initial (s : State) : Prop where
  order : ∀ d, (s.dev d).Ordered
  lock : ∀ d, (s.dev d).lock = none
  pc : s.pc = .idle
  warned : s.warned = false
  inside : ∀ t, s.inside t = none
  event : ∀ d, s.event d = none
  was : ∀ d, s.was d = false
  unprotected : s.unprotected = []

/-- When `blk_suspend` has returned, each device that was ready is suspended and has drained. -/
structure Drained (s : State) : Prop where
  drained : s.pc = .returned → s.warned = false → ∀ d < MAX_DEVICES, s.was d = true →
    (s.dev d).state = .suspended ∧ (s.dev d).reqProdPvt = (s.dev d).rspProd ∧
      (s.dev d).rspProd = (s.dev d).rspCons
  locked : s.unprotected = []

def unwatched : Pc → Bool
  | .incomplete _ _ => true
  | .release _ k => ¬ k + 1 < MAX_POLL
  | .sleep _ k => ¬ k + 1 < MAX_POLL
  | .warn _ => true
  | _ => false

def tested : Pc → Option Nat
  | .test i => some i
  | _ => none

/-- Only device 0 is found ready, and its last answer does not come behind the last look for one. -/
def onlyFirst (s : State) : Label → Prop
  | .suspend => ∀ i ∈ tested s.pc, (s.dev i).state = .ready → i = 0
  | .respond d => d = 0 → unwatched s.pc = true → (s.dev 0).rspProd + 1 ≠ (s.dev 0).reqProdPvt
  | _ => True

instance (s : State) : (l : Label) → Decidable (onlyFirst s l)
  | .suspend => inferInstanceAs (Decidable (∀ i ∈ tested s.pc, _))
  | .enter .. | .submit _ | .leave _ | .event _ | .connect _ => inferInstanceAs (Decidable True)
  | .respond _ => inferInstanceAs (Decidable (_ → _ → _))

/-- `drain_io` works on the device. -/
def Draining (v : Dev) : Prop := v.lock = some .suspend ∧ v.state = .suspending

/-- There is no response to handle, or there is a request to wait for. -/
def Caught (v : Dev) : Prop := v.rspCons = v.rspProd ∨ v.rspProd ≠ v.reqProdPvt

/-- A device that was ready is in `state`, and drained unless there was a warning. -/
def Settled (v : Dev) (state : DevState) (was warned : Bool) : Prop :=
  was = true → v.state = state ∧ (warned = false → v.reqProdPvt = v.rspProd ∧ v.rspProd = v.rspCons)

def Handler.Sound (v : Dev) : Handler → Prop
  | .again => True
  | .pull prod => v.rspCons ≤ prod ∧ prod ≤ v.rspProd

def Phase (v : Dev) (was warned : Bool) : Pc → Prop
  | .idle => was = false
  | .lock i => (i = 0 → was = true → v.state = .ready) ∧ (i ≠ 0 → Settled v .suspending was warned)
  | .test i =>
    (i = 0 → v.lock = some .suspend ∧ (was = true → v.state = .ready)) ∧
      (i ≠ 0 → Settled v .suspending was warned)
  | .unprocessed i _ => i = 0 ∧ Draining v
  | .handler i _ h => i = 0 ∧ Draining v ∧ h.Sound v
  | .incomplete i _ => i = 0 ∧ Draining v ∧ Caught v
  | .release i k => i = 0 ∧ Draining v ∧ (¬ k + 1 < MAX_POLL → Caught v)
  | .sleep i k => i = 0 ∧ v.state = .suspending ∧ (¬ k + 1 < MAX_POLL → Caught v)
  | .warn i => i = 0 ∧ Draining v ∧ Caught v
  | .unlock i => i = 0 ∧ Draining v ∧ Settled v .suspending was warned
  | .finish => Settled v .suspending was warned
  | .returned => Settled v .suspended was warned

/-- The first device that `blk_suspend` has not tested. -/
def untested : Pc → Nat
  | .idle => 0
  | .lock i => i
  | .test i => i
  | .finish => MAX_DEVICES
  | .returned => MAX_DEVICES
  | _ => 1

/-- `Drained` for device 0 at every point of `blk_suspend`; it has not reached the other ready
ones. -/
structure Inv (s : State) : Prop where
  order : (s.dev 0).Ordered
  inside : ∀ t, s.inside t = some 0 → (s.dev 0).lock = some (.thread t) ∧ (s.dev 0).state = .ready
  event : ∀ h, s.event 0 = some h →
    (s.dev 0).lock = some .event ∧ (s.dev 0).state = .ready ∧ h.Sound (s.dev 0)
  phase : Phase (s.dev 0) (s.was 0) s.warned s.pc
  others : ∀ d, d ≠ 0 → s.was d = true → (s.dev d).state = .ready ∧ untested s.pc ≤ d
  unprotected : s.unprotected = []

variable {s u : State} {v w : Dev} {was warned : Bool} {pc : Pc} {d t i k : Nat}
  {next : Option Handler}

theorem Phase.ready (h : Phase v was warned pc) (hlock : v.lock ≠ some .suspend)
    (hstate : v.state = .ready ∨ v.state = .unknown) (hready : w.state = .ready) :
    Phase w was warned pc := by
  have hsusp : v.state ≠ .suspending := by rcases hstate with h | h <;> simp [h]
  have hdone : v.state ≠ .suspended := by rcases hstate with h | h <;> simp [h]
  have hnot : ¬ Draining v := fun hd => hlock hd.1
  have hsettled : Settled v .suspending was warned → Settled w .suspending was warned :=
    fun hs hw => absurd (hs hw).1 hsusp
  cases pc with
  | idle => exact h
  | lock i => exact ⟨fun _ _ => hready, fun hi => hsettled (h.2 hi)⟩
  | test i => exact ⟨fun hi => absurd (h.1 hi).1 hlock, fun hi => hsettled (h.2 hi)⟩
  | unprocessed i k => exact absurd h.2 hnot
  | handler i k h' | incomplete i k | release i k | warn i | unlock i => exact absurd h.2.1 hnot
  | sleep i k => exact absurd h.2.1 hsusp
  | finish => exact hsettled h
  | returned => exact fun hw => absurd (h hw).1 hdone

theorem Settled.respond {state : DevState} (h : Settled v state was warned)
    (hlt : v.rspProd < v.reqProdPvt) :
    Settled { v with rspProd := v.rspProd + 1 } state was warned := by
  intro hw
  refine ⟨(h hw).1, ?_⟩
  intro hwarned
  have := ((h hw).2 hwarned).1
  omega

theorem Phase.respond (h : Phase v was warned pc) (hlt : v.rspProd < v.reqProdPvt)
    (hok : unwatched pc = true → v.rspProd + 1 ≠ v.reqProdPvt) :
    Phase { v with rspProd := v.rspProd + 1 } was warned pc := by
  cases pc with
  | idle | unprocessed i k => exact h
  | lock i | test i => exact ⟨h.1, fun hi => (h.2 hi).respond hlt⟩
  | handler i k h' =>
    refine ⟨h.1, h.2.1, ?_⟩
    cases h' with
    | again => trivial
    | pull prod => exact ⟨h.2.2.1, Nat.le_succ_of_le h.2.2.2⟩
  | incomplete i k | warn i => exact ⟨h.1, h.2.1, .inr (hok rfl)⟩
  | release i k | sleep i k => exact ⟨h.1, h.2.1, fun hk => .inr (hok (decide_eq_true hk))⟩
  | unlock i => exact ⟨h.1, h.2.1, h.2.2.respond hlt⟩
  | finish | returned => exact Settled.respond h hlt

theorem Dev.Ordered.same {a b : Nat} (h : v.Ordered) (ha : v.rspCons ≤ a ∧ a ≤ v.reqProdPvt)
    (hb : v.rspCons ≤ b ∧ b ≤ v.reqProdPvt) : sameIdx a b ↔ a = b := by
  have hsize : BLK_RING_SIZE < idxMod := by decide
  have hroom := h.2.2
  exact sameIdx_iff (by omega) (by omega)

theorem Dev.Ordered.answered (h : v.Ordered) : sameIdx v.reqProdPvt v.rspProd ↔
    v.reqProdPvt = v.rspProd :=
  h.same ⟨le_trans h.1 h.2.1, le_rfl⟩ ⟨h.1, h.2.1⟩

theorem inv_initial (h : Initial s) : Inv s := by
  refine ⟨h.order 0, ?_, ?_, ?_, ?_, h.unprotected⟩
  · intro t ht
    rw [h.inside t] at ht
    cases ht
  · intro h' he
    rw [h.event 0] at he
    cases he
  · rw [h.pc]
    exact h.was 0
  · intro d _ hd
    rw [h.was d] at hd
    cases hd

section

variable (h : Inv s) {b : Bool}

include h

theorem inv_env {inside : Nat → Option Nat} {event : Nat → Option Handler}
    (hother : d ≠ 0 → ((s.dev d).state = .ready → w.state = .ready) ∧
      (∀ t, inside t = some 0 → s.inside t = some 0) ∧ event 0 = s.event 0)
    (hown : d = 0 → w.Ordered ∧
      (∀ t, inside t = some 0 → w.lock = some (.thread t) ∧ w.state = .ready) ∧
      (∀ h, event 0 = some h → w.lock = some .event ∧ w.state = .ready ∧ h.Sound w) ∧
      Phase w (s.was 0) s.warned s.pc) :
    Inv { s with dev := update s.dev d w, inside := inside, event := event } := by
  by_cases hd : d = 0
  · subst hd
    obtain ⟨horder, hin, hev, hphase⟩ := hown rfl
    refine ⟨?_, ?_, ?_, ?_, ?_, h.unprotected⟩ <;> simp only [update_self]
    · exact horder
    · exact hin
    · exact hev
    · exact hphase
    · intro e he hwas
      rw [update_of_ne he]
      exact h.others e he hwas
  · obtain ⟨hready, hin, hev⟩ := hother hd
    refine ⟨?_, ?_, ?_, ?_, ?_, h.unprotected⟩ <;> simp only [update_of_ne (Ne.symm hd)]
    · exact h.order
    · exact fun t ht => h.inside t (hin t ht)
    · exact fun h' he => h.event h' (hev ▸ he)
    · exact h.phase
    · intro e he hwas
      obtain ⟨hstate, hle⟩ := h.others e he hwas
      refine ⟨?_, hle⟩
      by_cases hed : e = d
      · subst hed
        rw [update_self]
        exact hready hstate
      · rwa [update_of_ne hed]

theorem inv_goto
    (hother : i ≠ 0 → w.state = (s.dev i).state ∧ Phase (s.dev 0) (s.was 0) b pc)
    (hown : i = 0 → ((s.dev 0).lock = none ∨ (s.dev 0).lock = some .suspend) ∧
      w.Ordered ∧ Phase w (s.was 0) b pc)
    (hnext : ∀ d, d ≠ 0 → (s.dev d).state = .ready → untested s.pc ≤ d → untested pc ≤ d) :
    Inv { s with dev := update s.dev i w, warned := b, pc := pc } := by
  have hothers : ∀ d, d ≠ 0 → s.was d = true →
      (update s.dev i w d).state = .ready ∧ untested pc ≤ d := by
    intro d hd hwas
    obtain ⟨hstate, hle⟩ := h.others d hd hwas
    refine ⟨?_, hnext d hd hstate hle⟩
    by_cases hdi : d = i
    · subst hdi
      rw [update_self, (hother hd).1, hstate]
    · rwa [update_of_ne hdi]
  by_cases hi : i = 0
  · subst hi
    obtain ⟨hlock, horder, hphase⟩ := hown rfl
    refine ⟨?_, fun t ht => ?_, fun h' he => ?_, ?_, hothers, h.unprotected⟩
    · simpa only [update_self] using horder
    · have := (h.inside t ht).1
      rcases hlock with hlock | hlock <;> simp [hlock] at this
    · have := (h.event h' he).1
      rcases hlock with hlock | hlock <;> simp [hlock] at this
    · simpa only [update_self] using hphase
  · have hzero : update s.dev i w 0 = s.dev 0 := update_of_ne (Ne.symm hi) ..
    refine ⟨?_, ?_, ?_, ?_, hothers, h.unprotected⟩ <;> simp only [hzero]
    · exact h.order
    · exact h.inside
    · exact h.event
    · exact (hother hi).2

theorem Inv.here (hpc : s.pc = pc) : Phase (s.dev 0) (s.was 0) s.warned pc := hpc ▸ h.phase

theorem inv_pc (hphase : Phase (s.dev 0) (s.was 0) b pc)
    (hnext : ∀ d, d ≠ 0 → untested s.pc ≤ d → untested pc ≤ d) :
    Inv { s with warned := b, pc := pc } :=
  { h with
    phase := hphase
    others := fun d hd hwas => ⟨(h.others d hd hwas).1, hnext d hd (h.others d hd hwas).2⟩ }

theorem Inv.not_inside (hlock : ∀ t, (s.dev 0).lock ≠ some (.thread t)) (t : Nat) :
    s.inside t ≠ some 0 :=
  fun ht => hlock t (h.inside t ht).1

theorem Inv.no_event (hlock : (s.dev 0).lock ≠ some .event) (h' : Handler) : s.event 0 ≠ some h' :=
  fun he => hlock (h.event h' he).1

end

theorem update_eq_some {f : Nat → Option Nat} {o : Option Nat} {x d : Nat}
    (h : update f t o x = some d) :
    x = t ∧ o = some d ∨ x ≠ t ∧ f x = some d := by
  by_cases hx : x = t
  · subst hx
    rw [update_self] at h
    exact .inl ⟨rfl, h⟩
  · rw [update_of_ne hx] at h
    exact .inr ⟨hx, h⟩

theorem inv_enter (h : Inv s) (hs : step s (.enter t d) = some u) : Inv u := by
  obtain ⟨⟨-, hlock, hready⟩, rfl⟩ := of_when hs
  refine inv_env h (fun hd => ⟨id, fun x hx => ?_, rfl⟩) ?_
  · rcases update_eq_some hx with ⟨-, hx⟩ | ⟨-, hx⟩
    · exact absurd (some.inj hx) hd
    · exact hx
  · rintro rfl
    refine ⟨h.order, fun x hx => ?_, fun h' he => absurd he (h.no_event (by simp [hlock]) h'),
      h.phase.ready (by simp [hlock]) (.inl hready) hready⟩
    rcases update_eq_some hx with ⟨rfl, -⟩ | ⟨-, hx⟩
    · exact ⟨rfl, hready⟩
    · exact absurd hx (h.not_inside (by simp [hlock]) x)

theorem inv_submit (h : Inv s) (hs : step s (.submit t) = some u) : Inv u := by
  obtain ⟨d, hin, hs⟩ := bind_eq_some_iff.mp hs
  obtain ⟨⟨hready, hroom⟩, rfl⟩ := of_when hs
  refine inv_env h (fun _ => ⟨id, fun _ => id, rfl⟩) ?_
  rintro rfl
  have hlock := (h.inside t hin).1
  exact ⟨⟨h.order.1, Nat.le_succ_of_le h.order.2.1, hroom⟩, h.inside,
    fun h' he => absurd he (h.no_event (by simp [hlock]) h'),
    h.phase.ready (by simp [hlock]) (.inl hready) hready⟩

theorem inv_leave (h : Inv s) (hs : step s (.leave t) = some u) : Inv u := by
  obtain ⟨d, hin, rfl⟩ := map_eq_some_iff.mp hs
  refine inv_env h (fun _ => ⟨id, fun x hx => ?_, rfl⟩) ?_
  · rcases update_eq_some hx with ⟨-, hx⟩ | ⟨-, hx⟩
    · cases hx
    · exact hx
  · rintro rfl
    obtain ⟨hlock, hready⟩ := h.inside t hin
    refine ⟨h.order, fun x hx => ?_, fun h' he => absurd he (h.no_event (by simp [hlock]) h'),
      h.phase.ready (by simp [hlock]) (.inl hready) hready⟩
    rcases update_eq_some hx with ⟨-, hx⟩ | ⟨hxt, hx⟩
    · cases hx
    · have hx := (h.inside x hx).1
      rw [hlock] at hx
      cases hx
      exact absurd rfl hxt

theorem inv_respond (h : Inv s) (hok : onlyFirst s (.respond d))
    (hs : step s (.respond d) = some u) : Inv u := by
  obtain ⟨hlt, rfl⟩ := of_when hs
  refine inv_env h (fun _ => ⟨id, fun _ => id, rfl⟩) ?_
  rintro rfl
  refine ⟨⟨Nat.le_succ_of_le h.order.1, hlt, h.order.2.2⟩, h.inside, fun h' he => ?_,
    h.phase.respond hlt (hok rfl)⟩
  obtain ⟨hlock, hready, hsound⟩ := h.event h' he
  refine ⟨hlock, hready, ?_⟩
  cases h' with
  | again => trivial
  | pull prod => exact ⟨hsound.1, Nat.le_succ_of_le hsound.2⟩

theorem inv_connect (h : Inv s) (hs : step s (.connect d) = some u) : Inv u := by
  obtain ⟨⟨hlock, hunknown⟩, rfl⟩ := of_when hs
  refine inv_env h (fun _ => ⟨fun _ => rfl, fun _ => id, rfl⟩) ?_
  rintro rfl
  exact ⟨h.order, fun t ht => absurd ht (h.not_inside (by simp [hlock]) t),
    fun h' he => absurd he (h.no_event (by simp [hlock]) h'),
    h.phase.ready (by simp [hlock]) (.inr hunknown) rfl⟩

theorem handlerStep_frame {h : Handler} (hs : handlerStep v h = some (w, next)) :
    w.lock = v.lock ∧ w.state = v.state := by
  cases h with
  | again =>
    cases hs
    exact ⟨rfl, rfl⟩
  | pull prod =>
    obtain ⟨-, hs⟩ := ite_none_right_eq_some.mp hs
    cases hs
    exact ⟨rfl, rfl⟩

theorem handlerStep_spec {h : Handler} (hsound : h.Sound v)
    (horder : v.Ordered) (hs : handlerStep v h = some (w, next)) :
    w.Ordered ∧ (∀ h', next = some h' → h'.Sound w) ∧
      (next = none → w.rspCons = w.rspProd) := by
  cases h with
  | again =>
    cases hs
    refine ⟨horder, ?_, nofun⟩
    intro h' hh'
    cases hh'
    exact ⟨horder.1, le_rfl⟩
  | pull prod =>
    obtain ⟨-, hs⟩ := ite_none_right_eq_some.mp hs
    cases hs
    have hsound : v.rspCons ≤ prod ∧ prod ≤ v.rspProd := hsound
    have ⟨hle, hlast, hroom⟩ := horder
    refine ⟨⟨hsound.2, hlast, by simp only; omega⟩, ?_, ?_⟩
    · intro h' hh'
      obtain ⟨-, rfl⟩ := of_when hh'
      trivial
    · intro hnone
      have hend : ¬ (¬ sameIdx prod v.reqProdPvt ∧ ¬ sameIdx v.rspProd prod) := fun hmore => by
        rw [if_pos hmore] at hnone
        cases hnone
      have hprod : v.rspCons ≤ prod ∧ prod ≤ v.reqProdPvt := ⟨hsound.1, le_trans hsound.2 hlast⟩
      rw [horder.same hprod ⟨by omega, le_rfl⟩, horder.same ⟨hle, hlast⟩ hprod] at hend
      simp only
      omega

theorem Handler.Sound.lock {h : Handler} {l : Option Holder} (hs : h.Sound v) :
    h.Sound { v with lock := l } := by
  cases h with
  | again => trivial
  | pull prod => exact hs

theorem inv_event (h : Inv s) (hs : step s (.event d) = some u) : Inv u := by
  simp only [step] at hs
  split at hs
  case h_1 hnone =>
    obtain ⟨hlock, hs⟩ := ite_none_right_eq_some.mp hs
    split at hs
    case isFalse =>
      cases hs
      exact h
    case isTrue hready =>
      cases hs
      refine inv_env h (fun hd => ⟨id, fun _ => id, update_of_ne (Ne.symm hd) ..⟩) ?_
      rintro rfl
      refine ⟨h.order, fun x hx => absurd hx (h.not_inside (by simp [hlock]) x), fun h' he => ?_,
        h.phase.ready (by simp [hlock]) (.inl hready) hready⟩
      obtain rfl := some.inj ((update_self 0 _ s.event).symm.trans he)
      exact ⟨rfl, hready, trivial⟩
  case h_2 h' hsome =>
    obtain ⟨⟨v, next⟩, hstep, rfl⟩ := map_eq_some_iff.mp hs
    obtain ⟨hl, hr⟩ := handlerStep_frame hstep
    refine inv_env h (fun hd => ⟨hr.trans, fun _ => id, update_of_ne (Ne.symm hd) ..⟩) ?_
    rintro rfl
    obtain ⟨hlock, hready, hsound⟩ := h.event h' hsome
    obtain ⟨horder, hnext, -⟩ := handlerStep_spec hsound h.order hstep
    refine ⟨horder, fun x hx => absurd hx (h.not_inside (by simp [hlock]) x), fun h'' he => ?_,
      h.phase.ready (by simp [hlock]) (.inl hready) (hr.trans hready)⟩
    have he : next = some h'' := (update_self 0 _ s.event).symm.trans he
    refine ⟨?_, hr.trans hready, (hnext h'' he).lock⟩
    simp only [he, reduceCtorEq, if_false]
    exact hl.trans hlock

theorem Caught.settled (h : Caught v) (hstate : v.state = .suspending)
    (hnone : warned = false → v.reqProdPvt = v.rspProd) : Settled v .suspending was warned := by
  refine fun _ => ⟨hstate, ?_⟩
  intro hwarned
  have heq := hnone hwarned
  exact ⟨heq, (h.resolve_right fun hne => hne heq.symm).symm⟩

theorem Phase.nextPoll (hd : Draining v) (hc : ¬ k + 1 < MAX_POLL → Caught v) :
    Phase v was warned (nextPoll 0 k) := by
  unfold BlkSuspend.nextPoll
  split
  case isTrue => exact ⟨rfl, hd⟩
  case isFalse hk => exact ⟨rfl, hd, hc hk⟩

theorem untested_nextPoll (i k : Nat) : untested (nextPoll i k) = 1 := by
  unfold nextPoll
  split <;> rfl

theorem examine_draining (h : Draining (s.dev 0)) : examine s = s := if_pos h.1

section

variable (h : Inv s) (hs : suspendStep s = some u)
include h hs

theorem inv_lock (hpc : s.pc = .lock i) : Inv u := by
  have hphase := h.here hpc
  simp only [suspendStep, hpc] at hs
  split at hs
  case isTrue =>
    obtain ⟨hlock, rfl⟩ := of_when hs
    refine inv_goto h (fun hi => ⟨rfl, fun h0 => absurd h0 hi, hphase.2⟩) ?_
      (by simp [hpc, untested])
    rintro rfl
    exact ⟨.inl hlock, h.order, fun _ => ⟨rfl, hphase.1 rfl⟩, fun hne => absurd rfl hne⟩
  case isFalse hi =>
    cases hs
    have hne : i ≠ 0 := by
      unfold MAX_DEVICES at hi
      omega
    refine inv_pc h (hphase.2 hne) ?_
    rw [hpc]
    exact fun d _ hle => le_trans (not_lt.mp hi) hle

theorem inv_test (hok : onlyFirst s .suspend) (hpc : s.pc = .test i) : Inv u := by
  have hphase := h.here hpc
  simp only [suspendStep, hpc] at hs
  split at hs
  case isTrue hstate =>
    cases hs
    refine inv_goto h
      (fun hi => ⟨rfl, fun h1 => absurd h1 (Nat.succ_ne_zero i), fun _ => hphase.2 hi⟩) ?_ ?_
    · rintro rfl
      obtain ⟨hlock, hwas⟩ := hphase.1 rfl
      exact ⟨.inr hlock, h.order, fun h1 => absurd h1 (Nat.succ_ne_zero 0),
        fun _ hw => absurd (hwas hw) hstate⟩
    · rw [hpc]
      intro e _ hready hle
      exact Nat.lt_of_le_of_ne hle fun he => hstate (he ▸ hready)
  case isFalse hstate =>
    cases hs
    obtain rfl := hok i (by rw [hpc]; rfl) (not_not.mp hstate)
    obtain ⟨hlock, -⟩ := hphase.1 rfl
    refine inv_goto h (fun h0 => absurd rfl h0) (fun _ => ⟨.inr hlock, h.order, rfl, hlock, rfl⟩) ?_
    exact fun d hd _ _ => Nat.one_le_iff_ne_zero.mpr hd

theorem inv_unprocessed (hpc : s.pc = .unprocessed i k) : Inv u := by
  obtain ⟨rfl, hd⟩ := h.here hpc
  obtain ⟨hle, hlast, -⟩ := h.order
  simp only [suspendStep, hpc, examine_draining hd] at hs
  cases hs
  apply inv_pc h
  · split
    case isTrue hsame =>
      exact ⟨rfl, hd, .inl ((h.order.same ⟨le_rfl, by omega⟩ ⟨hle, hlast⟩).mp hsame)⟩
    case isFalse => exact ⟨rfl, hd, trivial⟩
  · rw [hpc]
    split <;> exact fun _ _ hle => hle

theorem inv_handler {h' : Handler} (hpc : s.pc = .handler i k h') : Inv u := by
  obtain ⟨rfl, hd, hsound⟩ := h.here hpc
  simp only [suspendStep, hpc, examine_draining hd] at hs
  obtain ⟨⟨v, next⟩, hstep, rfl⟩ := map_eq_some_iff.mp hs
  obtain ⟨hl, hr⟩ := handlerStep_frame hstep
  obtain ⟨horder, hnext, hend⟩ := handlerStep_spec hsound h.order hstep
  have hdv : Draining v := ⟨hl.trans hd.1, hr.trans hd.2⟩
  refine inv_goto h (fun h0 => absurd rfl h0) (fun _ => ⟨.inr hd.1, horder, ?_⟩) ?_
  · cases next with
    | none => exact ⟨rfl, hdv, .inl (hend rfl)⟩
    | some h'' => exact ⟨rfl, hdv, hnext h'' rfl⟩
  · cases next <;> simp [hpc, untested]

theorem inv_incomplete (hpc : s.pc = .incomplete i k) : Inv u := by
  obtain ⟨rfl, hd, hc⟩ := h.here hpc
  simp only [suspendStep, hpc, examine_draining hd] at hs
  cases hs
  apply inv_pc h
  · split
    case isTrue hsame => exact ⟨rfl, hd, hc.settled hd.2 fun _ => h.order.answered.mp hsame⟩
    case isFalse =>
      split
      case isTrue => exact Phase.nextPoll hd fun _ => hc
      case isFalse => exact ⟨rfl, hd, fun _ => hc⟩
  · intro d _ hle
    rw [hpc] at hle
    split
    · exact hle
    · split
      · exact (untested_nextPoll 0 k).symm ▸ hle
      · exact hle

theorem inv_release (hpc : s.pc = .release i k) : Inv u := by
  obtain ⟨rfl, hd, hc⟩ := h.here hpc
  simp only [suspendStep, hpc] at hs
  cases hs
  exact inv_goto h (fun h0 => absurd rfl h0) (fun _ => ⟨.inr hd.1, h.order, rfl, hd.2, hc⟩)
    (by simp [hpc, untested])

theorem inv_sleep (hpc : s.pc = .sleep i k) : Inv u := by
  obtain ⟨rfl, hstate, hc⟩ := h.here hpc
  simp only [suspendStep, hpc] at hs
  obtain ⟨hlock, rfl⟩ := of_when hs
  exact inv_goto h (fun h0 => absurd rfl h0)
    (fun _ => ⟨.inl hlock, h.order, Phase.nextPoll ⟨rfl, hstate⟩ hc⟩)
    (by rw [hpc, untested_nextPoll]; exact fun _ _ _ hle => hle)

theorem inv_warn (hpc : s.pc = .warn i) : Inv u := by
  obtain ⟨rfl, hd, hc⟩ := h.here hpc
  simp only [suspendStep, hpc, examine_draining hd] at hs
  cases hs
  refine inv_pc h ⟨rfl, hd, hc.settled hd.2 fun hwarned => ?_⟩ (by simp [hpc, untested])
  exact h.order.answered.mp (not_not.mp (of_decide_eq_false (Bool.or_eq_false_iff.mp hwarned).2))

theorem inv_unlock (hpc : s.pc = .unlock i) : Inv u := by
  obtain ⟨rfl, hd, hsettled⟩ := h.here hpc
  simp only [suspendStep, hpc] at hs
  cases hs
  exact inv_goto h (fun h0 => absurd rfl h0)
    (fun _ => ⟨.inr hd.1, h.order, fun h1 => absurd h1 (Nat.succ_ne_zero 0), fun _ => hsettled⟩)
    (by simp [hpc, untested])

theorem inv_finish (hpc : s.pc = .finish) : Inv u := by
  have hsettled : Settled (s.dev 0) .suspending (s.was 0) s.warned := h.here hpc
  simp only [suspendStep, hpc] at hs
  cases hs
  have hready : ∀ d, (s.dev d).state = .ready →
      ¬ (d < MAX_DEVICES ∧ (s.dev d).state = .suspending) := by
    intro d hd hsusp
    rw [hd] at hsusp
    cases hsusp.2
  refine ⟨?_, ?_, ?_, ?_, ?_, h.unprotected⟩
  · simp only
    split <;> exact h.order
  · intro t ht
    simp only [if_neg (hready 0 (h.inside t ht).2)]
    exact h.inside t ht
  · intro h' he
    simp only [if_neg (hready 0 (h.event h' he).2.1)]
    exact h.event h' he
  · intro hw
    simp only [if_pos
      (show 0 < MAX_DEVICES ∧ (s.dev 0).state = .suspending from ⟨by decide, (hsettled hw).1⟩)]
    exact ⟨trivial, (hsettled hw).2⟩
  · intro d hd hw
    obtain ⟨hstate, hle⟩ := h.others d hd hw
    simp only [if_neg (hready d hstate)]
    rw [hpc] at hle
    exact ⟨hstate, hle⟩

theorem inv_suspend (hok : onlyFirst s .suspend) : Inv u := by
  cases hpc : s.pc with
  | idle =>
    simp only [suspendStep, hpc] at hs
    cases hs
    exact { h with
      phase := ⟨fun _ hw => of_decide_eq_true hw, fun hne => absurd rfl hne⟩
      others := fun d _ hw => ⟨of_decide_eq_true hw, Nat.zero_le d⟩ }
  | lock i => exact inv_lock h hs hpc
  | test i => exact inv_test h hs hok hpc
  | unprocessed i k => exact inv_unprocessed h hs hpc
  | handler i k h' => exact inv_handler h hs hpc
  | incomplete i k => exact inv_incomplete h hs hpc
  | release i k => exact inv_release h hs hpc
  | sleep i k => exact inv_sleep h hs hpc
  | warn i => exact inv_warn h hs hpc
  | unlock i => exact inv_unlock h hs hpc
  | finish => exact inv_finish h hs hpc
  | returned =>
    simp only [suspendStep, hpc] at hs
    cases hs

end

theorem inv_step {l : Label} (h : Inv s) (hok : onlyFirst s l) (hs : step s l = some u) :
    Inv u := by
  cases l with
  | suspend => exact inv_suspend h hs hok
  | enter t d => exact inv_enter h hs
  | submit t => exact inv_submit h hs
  | leave t => exact inv_leave h hs
  | event d => exact inv_event h hs
  | respond d => exact inv_respond h hok hs
  | connect d => exact inv_connect h hs

/-- In every run where only device 0 is found ready, and its last response does not come where
`drain_io` does not look for one, what has been suspended without a warning has been drained. -/
theorem suspend_drains (s : State) (h : Reach step onlyFirst Initial s) : Drained s := by
  have hinv : Inv s := h.invariant (fun _ => inv_initial) fun _ _ _ => inv_step
  refine ⟨?_, hinv.unprotected⟩
  intro hpc hwarned d hlt hwas
  have hphase := hinv.here hpc
  by_cases hd : d = 0
  · subst hd
    exact ⟨(hphase hwas).1, (hphase hwas).2 hwarned⟩
  · have hle := (hinv.others d hd hwas).2
    rw [hpc] at hle
    exact absurd hle (not_le.mpr hlt)

def noDevices : State where
  dev := fun _ => ⟨.unknown, 0, 0, 0, none⟩
  pc := .idle
  inIrq := false
  warned := false
  inside := fun _ => none
  event := fun _ => none
  was := fun _ => false
  unprotected := []

theorem initial_noDevices : Initial noDevices :=
  ⟨fun _ => ⟨le_rfl, le_rfl, Nat.succ_pos 31⟩, fun _ => rfl, rfl, rfl, fun _ => rfl, fun _ => rfl,
    fun _ => rfl, rfl⟩

def oneRequest (d : Nat) : List Label := [.connect d, .enter 0 d, .submit 0, .leave 0]

theorem suspend_drains_one_request : ∃ s, Reach step onlyFirst Initial s ∧ Drained s ∧
    s.pc = .returned ∧ s.warned = false ∧ s.was 0 = true := by
  have h₀ : Reach step onlyFirst Initial noDevices := .start initial_noDevices
  obtain ⟨s, hs, hview⟩ := h₀.runGuardedTo
    (P := fun s => s.pc = .returned ∧ s.warned = false ∧ s.was 0 = true)
    (oneRequest 0 ++ List.replicate 6 .suspend ++ [.respond 0] ++ List.replicate 22 .suspend)
      (by decide +kernel)
  exact ⟨s, hs, suspend_drains s hs, hview⟩

/-- The request is on device 1: the ring of device 0 is looked at, and the request stays without a
response. -/
theorem suspend_not_draining : ∃ s, Reach step anyStep Initial s ∧ ¬ Drained s := by
  have h₀ : Reach step anyStep Initial noDevices := .start initial_noDevices
  obtain ⟨s, hs, hpc, hwarned, hwas, hprod⟩ := h₀.runTo
    (P := fun s => s.pc = .returned ∧ s.warned = false ∧ s.was 1 = true ∧
      (s.dev 1).reqProdPvt ≠ (s.dev 1).rspProd)
    (oneRequest 1 ++ List.replicate 22 .suspend) (by decide +kernel)
  exact ⟨s, hs, fun h => hprod (h.drained hpc hwarned 1 (by decide) hwas).2.1⟩

/-- The same with device 0 alone, if the response comes between the two tests of a round. -/
example : ∃ s, Reach step anyStep Initial s ∧ ¬ Drained s := by
  have h₀ : Reach step anyStep Initial noDevices := .start initial_noDevices
  obtain ⟨s, hs, hpc, hwarned, hwas, hcons⟩ := h₀.runTo
    (P := fun s => s.pc = .returned ∧ s.warned = false ∧ s.was 0 = true ∧
      (s.dev 0).rspProd ≠ (s.dev 0).rspCons)
    (oneRequest 0 ++ List.replicate 4 .suspend ++ [.respond 0] ++ List.replicate 18 .suspend)
      (by decide +kernel)
  exact ⟨s, hs, fun h => hcons (h.drained hpc hwarned 0 (by decide) hwas).2.2⟩

end Guk.BlkSuspend
