import Guk.XenbusSuspend

/-!
# Xenbus between suspend and resume

From the return of `xenbus_suspend` to the new page in `xenbus_resume` nobody may use
the ring, and `xenbus_resume` has to let the xenbus thread go on.
-/
namespace Guk.XenbusSuspend

open Runs List
open XenbusReply (NR_REQS)

def Waiting (thread : Thread) : Prop := thread = .enter ∨ thread = .wait

instance (thread : Thread) : Decidable (Waiting thread) := inferInstanceAs (Decidable (_ ∨ _))

def TouchesRing (s : State) : Label → Prop
  | .thread => s.thread = .test ∨ s.thread = .recheck ∨ s.thread = .read
  | .xbWrite _ => True
  | _ => False

/-- From the return of `xenbus_suspend` to the new page the thread is parked, no id is in use and no
step touches the ring; after `complete_all(&resume_comp)` the thread leaves its wait. -/
structure Quiescent (s : State) : Prop where
  parked : s.caller = .suspended → Waiting s.thread ∧ s.resumeDone = 0
  ids : s.caller = .suspended → ∀ id, s.ids.inUse id = false
  ring : s.caller = .suspended → ∀ a t, step s a = some t → ¬ TouchesRing s a
  leaves : s.caller = .completed ∨ s.caller = .running → Waiting s.thread →
    ∃ t, step s .thread = some t ∧ ¬ Waiting t.thread

def PastInit : Caller → Bool
  | .unbind => true
  | .wake => true
  | .waitComp => true
  | .suspended => true
  | .mapped => true
  | _ => false

/-- The thread finds the flag only after `init_completion(&resume_comp)`, no id is taken while it is
set, it is set only when the thread has left its last wait, and a `suspend_comp` left over from an
earlier time is found only when the thread is parked. -/
def quietStep (s : State) : Label → Prop
  | .thread => s.thread = .check → s.suspend = true → PastInit s.caller = true
  | .allocate _ => s.ids.nrLiveReqs < NR_REQS → s.suspend = false
  | .control _ =>
    (s.caller = .running → Parking s.thread = false) ∧
      (s.caller = .waitComp → s.stale = true → Waiting s.thread)
  | _ => True

/-! ## The invariant -/

structure Posted (s : State) : Prop where
  suspend : s.suspend = false
  thread : s.thread ≠ .complete
  done : Waiting s.thread → s.resumeDone ≠ 0
  runnable : s.thread = .wait → s.runnable = true

def Stage (s : State) : Prop :=
  match s.caller with
  | .running | .completed => Posted s
  | .flagged | .draining => s.suspend = true ∧ Parking s.thread = false
  | .relock | .init => s.suspend = true ∧ Parking s.thread = false ∧ s.ids.nrLiveReqs = 0
  | .unbind | .wake | .waitComp => s.suspend = true ∧ s.resumeDone = 0 ∧ s.ids.nrLiveReqs = 0
  | .suspended | .mapped => s.suspend = true ∧ s.resumeDone = 0 ∧ s.ids.nrLiveReqs = 0 ∧
      Waiting s.thread
  | .cleared => s.suspend = false ∧ s.resumeDone = 0 ∧ Waiting s.thread

structure Inv (s : State) : Prop where
  stage : Stage s
  /-- the queue of `resume_comp` is not set up again while the thread is in it -/
  queued : s.thread = .wait → s.resumeQueue = true

variable {s t : State} {rspProd : Nat} {a : Label}

theorem parking_of_waiting {thread : Thread} (h : Waiting thread) : Parking thread = true := by
  rcases h with h | h
  · rw [h]; rfl
  · rw [h]; rfl

/-! ## Steps of the thread -/

section

variable (h : Moves s t)

include h

theorem Moves.resumeDone (hdone : s.resumeDone = 0) : t.resumeDone = 0 := by
  cases h with
  | pass queue hthread hne => exact absurd hdone hne
  | _ => exact hdone

theorem Moves.waiting (hdone : s.resumeDone = 0) (hwait : Waiting s.thread) : Waiting t.thread := by
  cases h with
  | loop thread prod ring replied runnable hold hnew =>
    rw [parking_of_waiting hwait] at hold
    nomatch hold
  | park hthread hsuspend =>
    rw [hthread] at hwait
    exact hwait.elim nofun nofun
  | complete hthread => exact .inl rfl
  | enter hthread _ | again hthread _ => exact .inr rfl
  | pass queue hthread hne => exact absurd hdone hne

theorem Moves.queued (hqueue : s.thread = .wait → s.resumeQueue = true) :
    t.thread = .wait → t.resumeQueue = true := by
  intro hwait
  cases h with
  | loop thread prod ring replied runnable hold hnew =>
    have hpark := parking_of_waiting (.inr hwait)
    rw [hnew] at hpark
    nomatch hpark
  | park hthread hsuspend | complete hthread | pass queue hthread hne => nomatch hwait
  | enter hthread _ => rfl
  | again hthread _ => exact hqueue hthread

theorem Moves.posted (hposted : Posted s) : Posted t := by
  obtain ⟨hsuspend, hthread, hdone, hrunnable⟩ := hposted
  cases h with
  | loop thread prod ring replied runnable hold hnew =>
    have hno : ¬ Waiting thread := by
      intro hwait
      rw [parking_of_waiting hwait] at hnew
      nomatch hnew
    refine ⟨hsuspend, ?_, fun hwait => absurd hwait hno, fun hwait => absurd (.inr hwait) hno⟩
    rintro rfl
    nomatch hnew
  | park _ hset =>
    rw [hsuspend] at hset
    nomatch hset
  | complete hcomplete => exact absurd hcomplete hthread
  | enter henter hzero => exact absurd hzero (hdone (.inl henter))
  | again hwait hzero => exact absurd hzero (hdone (.inr hwait))
  | pass queue _ _ => exact ⟨hsuspend, nofun, fun hwait => hwait.elim nofun nofun, nofun⟩

theorem Moves.not_parking (hok : quietStep s .thread) (hpast : PastInit s.caller = false)
    (hold : Parking s.thread = false) : Parking t.thread = false := by
  by_contra hnew
  rcases h.parking (Bool.not_eq_false _ ▸ hnew) with hpark | hcheck
  · rw [hold] at hpark
    nomatch hpark
  · have hok := hok hcheck.1 hcheck.2
    rw [hpast] at hok
    nomatch hok

end

theorem inv_thread (h : Inv s) (hok : quietStep s .thread) (hs : Moves s t) : Inv t := by
  obtain ⟨hcaller, hsuspend, hids⟩ := hs.caller
  refine ⟨?_, hs.queued h.queued⟩
  have hstage := h.stage
  unfold Stage at hstage ⊢
  rw [hcaller, hsuspend, hids]
  cases hc : s.caller <;> simp only [hc] at hstage ⊢
  case running => exact hs.posted hstage
  case completed => exact hs.posted hstage
  case flagged => exact ⟨hstage.1, hs.not_parking hok (by rw [hc]; rfl) hstage.2⟩
  case draining => exact ⟨hstage.1, hs.not_parking hok (by rw [hc]; rfl) hstage.2⟩
  case relock => exact ⟨hstage.1, hs.not_parking hok (by rw [hc]; rfl) hstage.2.1, hstage.2.2⟩
  case init => exact ⟨hstage.1, hs.not_parking hok (by rw [hc]; rfl) hstage.2.1, hstage.2.2⟩
  case unbind => exact ⟨hstage.1, hs.resumeDone hstage.2.1, hstage.2.2⟩
  case wake => exact ⟨hstage.1, hs.resumeDone hstage.2.1, hstage.2.2⟩
  case waitComp => exact ⟨hstage.1, hs.resumeDone hstage.2.1, hstage.2.2⟩
  case suspended =>
    obtain ⟨hset, hdone, hlive, hwait⟩ := hstage
    exact ⟨hset, hs.resumeDone hdone, hlive, hs.waiting hdone hwait⟩
  case mapped =>
    obtain ⟨hset, hdone, hlive, hwait⟩ := hstage
    exact ⟨hset, hs.resumeDone hdone, hlive, hs.waiting hdone hwait⟩
  case cleared =>
    obtain ⟨hclear, hdone, hwait⟩ := hstage
    exact ⟨hclear, hs.resumeDone hdone, hs.waiting hdone hwait⟩

/-! ## Steps of the others -/

theorem inv_other (h : Inv s) (hok : quietStep s a) (hs : Other s a t) : Inv t := by
  have hdrained : s.suspend = true → s.ids.nrLiveReqs = 0 → t.ids.nrLiveReqs = 0 := by
    intro hsuspend hlive
    apply hs.drained hlive
    rintro u rfl hlt
    rw [hok hlt] at hsuspend
    nomatch hsuspend
  have hposted : Posted s → Posted t := by
    rintro ⟨hsuspend, hthread, hdone, hrunnable⟩
    constructor
    · rw [hs.suspend, hsuspend]
    · rw [hs.thread]
      exact hthread
    · rw [hs.thread, hs.resumeDone]
      exact hdone
    · rw [hs.thread]
      exact fun hwait => hs.runnable (hrunnable hwait)
  refine ⟨?_, ?_⟩
  · have hstage := h.stage
    unfold Stage at hstage ⊢
    rw [hs.caller, hs.suspend, hs.thread, hs.resumeDone]
    cases hc : s.caller <;> simp only [hc] at hstage ⊢
    case running => exact hposted hstage
    case completed => exact hposted hstage
    case flagged => exact hstage
    case draining => exact hstage
    case cleared => exact hstage
    case suspended => exact ⟨hstage.1, hstage.2.1, hdrained hstage.1 hstage.2.2.1, hstage.2.2.2⟩
    case mapped => exact ⟨hstage.1, hstage.2.1, hdrained hstage.1 hstage.2.2.1, hstage.2.2.2⟩
    all_goals exact ⟨hstage.1, hstage.2.1, hdrained hstage.1 hstage.2.2⟩
  · rw [hs.thread, hs.resumeQueue]
    exact h.queued

/-! ## Steps of the caller -/

theorem inv_control (h : Inv s) (hok : s.caller = .running → Parking s.thread = false)
    (hparked : s.caller = .waitComp → s.suspendDone ≠ 0 → Waiting s.thread)
    (hs : controlStep s rspProd = some t) : Inv t := by
  have hstage := h.stage
  unfold Stage at hstage
  unfold controlStep at hs
  cases hc : s.caller <;> simp only [hc] at hstage hs
  case running =>
    cases hs
    exact ⟨⟨rfl, hok hc⟩, h.queued⟩
  case flagged =>
    by_cases hlive : s.ids.nrLiveReqs = 0
    · rw [if_pos hlive] at hs
      cases hs
      exact ⟨⟨hstage.1, hstage.2, hlive⟩, h.queued⟩
    · rw [if_neg hlive] at hs
      cases hs
      exact ⟨hstage, h.queued⟩
  case draining =>
    obtain ⟨hlive, rfl⟩ := of_when hs
    exact ⟨⟨hstage.1, hstage.2, hlive⟩, h.queued⟩
  case relock =>
    cases hs
    exact ⟨hstage, h.queued⟩
  case init =>
    cases hs
    refine ⟨⟨hstage.1, rfl, hstage.2.2⟩, ?_⟩
    -- the thread is not in the queue that is emptied
    intro hwait
    have hpark := parking_of_waiting (.inr hwait)
    rw [hstage.2.1] at hpark
    nomatch hpark
  case unbind =>
    cases hs
    exact ⟨hstage, h.queued⟩
  case wake =>
    cases hs
    exact ⟨hstage, h.queued⟩
  case waitComp =>
    obtain ⟨hdone, rfl⟩ := of_unless hs
    exact ⟨⟨hstage.1, hstage.2.1, hstage.2.2, hparked hc hdone⟩, h.queued⟩
  case suspended =>
    cases hs
    exact ⟨hstage, h.queued⟩
  case mapped =>
    cases hs
    exact ⟨⟨rfl, hstage.2.1, hstage.2.2.2⟩, h.queued⟩
  case cleared =>
    cases hs
    obtain ⟨hclear, -, hwait⟩ := hstage
    have hmax : UINT_MAX / 2 ≠ 0 := by decide
    refine ⟨⟨hclear, ?_, fun _ => hmax, ?_⟩, h.queued⟩
    · intro hcomplete
      rw [hcomplete] at hwait
      exact hwait.elim nofun nofun
    · intro hthread
      simp only [h.queued hthread, Bool.or_true]
  case completed =>
    cases hs
    exact ⟨{ hstage with }, h.queued⟩

/-! ## The handshake of `suspend_comp` -/

def Suspending : Caller → Bool
  | .flagged | .draining | .relock | .init | .unbind | .wake | .waitComp => true
  | _ => false

/-- A `suspend_comp` that was not left over is done by the thread on its way to the wait. -/
def Handshake (s : State) : Prop :=
  Suspending s.caller = true → s.stale = false → s.suspendDone ≠ 0 → Waiting s.thread

theorem Stage.busy (h : Stage s) (hsusp : Suspending s.caller = true) (hwait : Waiting s.thread) :
    s.resumeDone = 0 := by
  have hpark := parking_of_waiting hwait
  unfold Stage at h
  cases hc : s.caller <;> simp_all [Suspending]

theorem Stage.withStale (h : Stage s) (stale : Bool) : Stage { s with stale := stale } := by
  unfold Stage at h ⊢
  cases hc : s.caller <;> simp only [hc] at h ⊢
  case running => exact { h with }
  case completed => exact { h with }
  all_goals exact h

theorem handshake_thread (h : Handshake s) (hstage : Stage s) (hs : Moves s t) : Handshake t := by
  intro hsusp hstale hset
  rw [hs.caller.1] at hsusp
  have hkept : s.suspendDone ≠ 0 → s.stale = false → Waiting t.thread := by
    intro hset hstale
    have hwait := h hsusp hstale hset
    exact hs.waiting (hstage.busy hsusp hwait) hwait
  cases hs with
  | complete hthread => exact .inl rfl
  | _ => exact hkept hset hstale

theorem handshake_control (h : Handshake s) (hs : step s (.control rspProd) = some t) :
    Handshake t := by
  obtain ⟨u, hu, rfl⟩ := Option.map_eq_some_iff.mp hs
  intro hsusp hstale hset
  unfold controlStep at hu
  cases hc : s.caller <;> simp only [hc] at hu hstale
  case running =>
    cases hu
    exact absurd hset (by simpa using hstale)
  case draining =>
    obtain ⟨-, rfl⟩ := of_when hu
    exact h (by rw [hc]; rfl) hstale hset
  case waitComp =>
    obtain ⟨-, rfl⟩ := of_unless hu
    nomatch hsusp
  all_goals
    cases hu
    first
      | exact h (by rw [hc]; rfl) hstale hset
      | nomatch hsusp

theorem handshake_other (h : Handshake s) (hs : Other s a t) : Handshake t := by
  unfold Handshake
  rw [hs.caller, hs.suspendDone.1, hs.suspendDone.2, hs.thread]
  exact h

theorem inv_step (h : Inv s ∧ Handshake s) (hok : quietStep s a)
    (hs : step s a = some t) : Inv t ∧ Handshake t := by
  obtain ⟨hinv, hshake⟩ := h
  cases a with
  | thread =>
    have hmoves := threadStep_moves hs
    exact ⟨inv_thread hinv hok hmoves, handshake_thread hshake hinv.stage hmoves⟩
  | control rspProd =>
    have hparked : s.caller = .waitComp → s.suspendDone ≠ 0 → Waiting s.thread := by
      intro hc hset
      cases hstale : s.stale with
      | false => exact hshake (by rw [hc]; rfl) hstale hset
      | true => exact hok.2 hc hstale
    refine ⟨?_, handshake_control hshake hs⟩
    obtain ⟨u, hu, rfl⟩ := Option.map_eq_some_iff.mp hs
    have hnext := inv_control hinv hok.1 hparked hu
    exact ⟨hnext.stage.withStale _, hnext.queued⟩
  | _ =>
    have hother := step_other hs nofun nofun
    exact ⟨inv_other hinv hok hother, handshake_other hshake hother⟩

theorem inv_initial (h : Initial s) : Inv s := by
  constructor
  · unfold Stage
    rw [h.caller]
    constructor
    · exact h.suspend
    · rw [h.thread]
      nofun
    · rw [h.thread]
      exact fun hwait => hwait.elim nofun nofun
    · rw [h.thread]
      nofun
  · rw [h.thread]
    nofun

theorem leaves_of_posted (h : Posted s) (hwait : Waiting s.thread) :
    ∃ t, step s .thread = some t ∧ ¬ Waiting t.thread := by
  have hdone := h.done hwait
  have hout : ¬ Waiting .bug := by decide
  rcases hwait with henter | hwait
  · refine ⟨{ s with resumeDone := s.resumeDone - 1, thread := .bug }, ?_, hout⟩
    simp only [step, threadStep, henter, if_neg hdone]
  · refine ⟨{ s with resumeQueue := false, resumeDone := s.resumeDone - 1, thread := .bug }, ?_,
      hout⟩
    simp only [step, threadStep, hwait, if_pos (h.runnable hwait), if_neg hdone]

theorem quiescent_of_inv (h : Inv s) (hids : XenbusId.Inv s.ids) : Quiescent s := by
  have hstage := h.stage
  unfold Stage at hstage
  have hfree : s.caller = .suspended → ∀ id, s.ids.inUse id = false := by
    intro hcaller id
    rw [hcaller] at hstage
    by_contra hid
    exact nrLiveReqs_ne_zero hids (Bool.not_eq_false _ ▸ hid) hstage.2.2.1
  constructor
  · intro hcaller
    rw [hcaller] at hstage
    exact ⟨hstage.2.2.2, hstage.2.1⟩
  · exact hfree
  · intro hcaller a t hs htouches
    have hfree := hfree hcaller
    rw [hcaller] at hstage
    have hwait := hstage.2.2.2
    cases a with
    | thread =>
      rcases hwait with henter | hwait
      · simp [TouchesRing, henter] at htouches
      · simp [TouchesRing, hwait] at htouches
    | xbWrite id => simp [step, hfree id] at hs
    | _ => exact htouches
  · intro hcaller hwait
    have hposted : Posted s := by
      rcases hcaller with hcaller | hcaller
      · rwa [hcaller] at hstage
      · rwa [hcaller] at hstage
    exact leaves_of_posted hposted hwait

/-- Between suspend and resume nobody uses xenbus, and the resume ends the wait of the thread. -/
theorem suspended_quiescent (s : State) (h : Reach step quietStep Initial s) : Quiescent s := by
  have hinv : Inv s ∧ Handshake s := by
    apply h.invariant
    · intro s hs
      refine ⟨inv_initial hs, fun hsusp => ?_⟩
      rw [hs.caller] at hsusp
      nomatch hsusp
    · exact fun _ _ _ hinv hok hs => inv_step hinv hok hs
  exact quiescent_of_inv hinv.1 (ids_inv h)

/-! ## The second time -/

def asleep : List Label := replicate 3 .thread

def down : List Label := replicate 5 (.control 0) ++ replicate 6 .thread ++ [.control 0]

def up : List Label := replicate 4 (.control 0) ++ replicate 3 .thread

instance (s : State) : (a : Label) → Decidable (quietStep s a)
  | .thread => inferInstanceAs (Decidable (_ → _ → _))
  | .allocate _ => inferInstanceAs (Decidable (_ → _))
  | .control _ => inferInstanceAs (Decidable (_ ∧ _))
  | .event => .isTrue trivial
  | .awake _ => .isTrue trivial
  | .xbWrite _ => .isTrue trivial
  | .release _ _ => .isTrue trivial
  | .answer _ => .isTrue trivial
  | .fire => .isTrue trivial

theorem suspended_quiescent_twice : ∃ s, Reach step quietStep Initial s ∧
    s.caller = .suspended ∧ s.thread = .wait ∧ Quiescent s := by
  have hstart : Reach step quietStep Initial boot := .start initial_boot
  obtain ⟨s, h, hcaller, hthread⟩ := hstart.runGuardedTo
    (P := fun s => s.caller = .suspended ∧ s.thread = .wait)
    (asleep ++ down ++ up ++ asleep ++ down) (by decide +kernel)
  exact ⟨s, h, hcaller, hthread, suspended_quiescent s h⟩

/-- `suspend_comp` is still done from the first time, and the second `xenbus_suspend` returns while
the xenbus thread has a message of the old ring to take. -/
theorem suspended_not_quiescent : ∃ s, Reach step anyStep Initial s ∧ s.caller = .suspended ∧
    s.thread = .read ∧ s.ring.unread = [.watchEvent] ∧ ¬ Quiescent s := by
  have hstart : Reach step anyStep Initial boot := .start initial_boot
  obtain ⟨s, h, hcaller, hthread, hunread⟩ := hstart.runTo
    (P := fun s => s.caller = .suspended ∧ s.thread = .read ∧ s.ring.unread = [.watchEvent])
    (asleep ++ down ++ up.dropLast ++ [.fire] ++ replicate 6 (.control 0)) (by decide +kernel)
  refine ⟨s, h, hcaller, hthread, hunread, fun hquiet => ?_⟩
  have hwait := (hquiet.parked hcaller).1
  rw [hthread] at hwait
  exact hwait.elim nofun nofun

end Guk.XenbusSuspend
