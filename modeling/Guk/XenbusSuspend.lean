import Guk.XenbusId

/-!
# Suspending xenbus (`xenbus.c`, `completion.c`)

`xenbus_suspend` sets a flag, waits until no request is live and then for the xenbus
thread to park; `xenbus_resume` maps the new ring and lets the thread go on. Threads
may have requests under way at any time. The sections under a lock and the accesses
to a completion are single steps.
-/
namespace Guk.XenbusSuspend

open Runs Function Option List
open XenbusReply (NR_REQS)

def UINT_MAX : Nat := 4294967295

inductive Thread where
  /-- `wait_event`: the first test of its condition -/
  | test
  | block
  /-- the test of the condition after `block` -/
  | recheck
  | sleep
  | check
  /-- before `complete_all(&suspend_comp)` -/
  | complete
  /-- before `wait_for_completion(&resume_comp)` -/
  | enter
  /-- in the `schedule` of `wait_for_completion(&resume_comp)` -/
  | wait
  /-- before `BUG_ON(suspend)` -/
  | bug
  | read
  deriving DecidableEq, Repr

inductive Caller where
  | running
  | flagged
  | draining
  | relock
  /-- before `init_completion(&resume_comp)`; from here to `wake` it has the lock of the ids -/
  | init
  | unbind
  | wake
  /-- in `wait_for_completion(&suspend_comp)` -/
  | waitComp
  | suspended
  /-- the new page is mapped -/
  | mapped
  | cleared
  /-- after `complete_all(&resume_comp)` -/
  | completed
  deriving DecidableEq, Repr

inductive Msg where
  | reply (id : Nat)
  | watchEvent
  deriving DecidableEq, Repr

structure Ring where
  rspProd : Nat
  unread : List Msg
  requests : List Nat

/-- `sent` and `replied` say of an id that its request is in the ring and that its reply has been
handed over. `resumeQueue`: the xenbus thread is in the wait queue of `resume_comp`. Not in the
code is `stale`: `suspend_comp` was done already when `xenbus_suspend` was called. -/
structure State where
  suspend : Bool
  suspendDone : Nat
  resumeDone : Nat
  resumeQueue : Bool
  thread : Thread
  runnable : Bool
  prod : Nat
  ring : Ring
  bound : Bool
  ids : XenbusId.State
  sent : Nat → Bool
  replied : Nat → Bool
  caller : Caller
  stale : Bool

inductive Label where
  | thread
  /-- the caller of `xenbus_suspend` and `xenbus_resume`; a new page may begin anywhere -/
  | control (rspProd : Nat)
  | event
  | allocate (t : Nat)
  /-- `wait_event` of `allocate_xenbus_id` ends -/
  | awake (t : Nat)
  | xbWrite (id : Nat)
  | release (t id : Nat)
  /-- xenstored answers a request it has received -/
  | answer (id : Nat)
  | fire

def pending (s : State) : Bool := s.prod ≠ s.ring.rspProd ∨ s.suspend

def readMsg (s : State) : Option State :=
  let s := { s with prod := s.ring.rspProd }
  match s.ring.unread with
  | [] => some { s with thread := .test }
  | .watchEvent :: unread => some { s with ring := { s.ring with unread := unread } }
  | .reply id :: unread =>
    if s.ids.inUse id then
      some { s with
        ring := { s.ring with unread := unread }
        replied := update s.replied id true }
    else none

def threadStep (s : State) : Option State :=
  match s.thread with
  | .test => some { s with thread := if pending s then .check else .block }
  | .block => some { s with runnable := false, thread := .recheck }
  | .recheck =>
    if pending s then some { s with runnable := true, thread := .check }
    else some { s with thread := .sleep }
  | .sleep => if s.runnable then some { s with thread := .block } else none
  | .check => some { s with thread := if s.suspend then .complete else .read }
  | .complete => some { s with suspendDone := UINT_MAX / 2, thread := .enter }
  | .enter =>
    if s.resumeDone = 0 then some { s with resumeQueue := true, runnable := false, thread := .wait }
    else some { s with resumeDone := s.resumeDone - 1, thread := .bug }
  | .wait =>
    if s.runnable then
      if s.resumeDone = 0 then some { s with runnable := false }
      else some { s with resumeQueue := false, resumeDone := s.resumeDone - 1, thread := .bug }
    else none
  | .bug => if s.suspend then none else some { s with thread := .read }
  | .read => readMsg s

def controlStep (s : State) (rspProd : Nat) : Option State :=
  match s.caller with
  | .running => some { s with suspend := true, caller := .flagged }
  | .flagged => some { s with caller := if s.ids.nrLiveReqs = 0 then .init else .draining }
  | .draining => if s.ids.nrLiveReqs = 0 then some { s with caller := .relock } else none
  | .relock => some { s with caller := .init }
  | .init => some { s with resumeDone := 0, resumeQueue := false, caller := .unbind }
  | .unbind => some { s with bound := false, caller := .wake }
  | .wake => some { s with runnable := true, caller := .waitComp }
  | .waitComp =>
    if s.suspendDone = 0 then none
    else some { s with suspendDone := s.suspendDone - 1, caller := .suspended }
  | .suspended => some { s with ring := ⟨rspProd, [], []⟩, caller := .mapped }
  | .mapped => some { s with suspend := false, caller := .cleared }
  | .cleared =>
    -- `__wake_up` reaches the thread through the queue only
    some { s with
      resumeDone := UINT_MAX / 2, runnable := s.runnable || s.resumeQueue, caller := .completed }
  | .completed => some { s with bound := true, caller := .running }

def unlocked (s : State) : Bool := s.caller ≠ .init ∧ s.caller ≠ .unbind ∧ s.caller ≠ .wake

def step (s : State) : Label → Option State
  | .thread => threadStep s
  | .control rspProd => (controlStep s rspProd).map fun t =>
      { t with stale := if s.caller = .running then s.suspendDone ≠ 0 else s.stale }
  | .event =>
    if s.bound then
      some { s with runnable := s.runnable || s.thread = .recheck || s.thread = .sleep }
    else none
  | .allocate t =>
    if unlocked s then (XenbusId.step s.ids (.allocate t)).map fun ids =>
      { s with ids := ids } else none
  | .awake t =>
    if s.ids.nrLiveReqs < NR_REQS ∧ s.suspend = false then
      (XenbusId.step s.ids (.awake t)).map fun ids => { s with ids := ids }
    else none
  | .xbWrite id =>
    if s.ids.inUse id ∧ s.sent id = false then
      some { s with
        ring := { s.ring with requests := s.ring.requests ++ [id] }
        sent := update s.sent id true }
    else none
  | .release t id =>
    if unlocked s ∧ s.replied id then
      (XenbusId.step s.ids (.release t id)).map fun ids =>
        { s with
          ids := ids
          sent := update s.sent id false
          replied := update s.replied id false }
    else none
  | .answer id =>
    if id ∈ s.ring.requests then
      some { s with
        ring := ⟨s.ring.rspProd + 1, s.ring.unread ++ [.reply id], s.ring.requests.erase id⟩ }
    else none
  | .fire =>
    some { s with ring := ⟨s.ring.rspProd + 1, s.ring.unread ++ [.watchEvent], s.ring.requests⟩ }

structure Initial (s : State) : Prop where
  suspend : s.suspend = false
  suspendDone : s.suspendDone = 0
  resumeDone : s.resumeDone = 0
  thread : s.thread = .test
  ids : XenbusId.Initial s.ids
  sent : ∀ id, s.sent id = false
  replied : ∀ id, s.replied id = false
  caller : s.caller = .running

def Parking : Thread → Bool
  | .complete => true
  | .enter => true
  | .wait => true
  | _ => false

/-! ## What a step of the thread can do -/

inductive Moves (s : State) : State → Prop where
  | loop (thread : Thread) (prod : Nat) (ring : Ring) (replied : Nat → Bool) (runnable : Bool)
      (hold : Parking s.thread = false) (hnew : Parking thread = false) :
      Moves s { s with
        thread := thread, prod := prod, ring := ring, replied := replied, runnable := runnable }
  | park (hthread : s.thread = .check) (hsuspend : s.suspend = true) :
      Moves s { s with thread := .complete }
  | complete (hthread : s.thread = .complete) :
      Moves s { s with suspendDone := UINT_MAX / 2, thread := .enter }
  | enter (hthread : s.thread = .enter) (hdone : s.resumeDone = 0) :
      Moves s { s with resumeQueue := true, runnable := false, thread := .wait }
  | again (hthread : s.thread = .wait) (hdone : s.resumeDone = 0) :
      Moves s { s with runnable := false, thread := .wait }
  | pass (queue : Bool) (hthread : s.thread = .enter ∨ s.thread = .wait) (hdone : s.resumeDone ≠ 0)
      :
      Moves s { s with resumeQueue := queue, resumeDone := s.resumeDone - 1, thread := .bug }

variable {s t : State} {rspProd id : Nat} {a : Label} {l : XenbusId.Label}

theorem readMsg_moves (hthread : s.thread = .read) (h : readMsg s = some t) : Moves s t := by
  have hold : Parking s.thread = false := by rw [hthread]; rfl
  unfold readMsg at h
  rcases hunread : s.ring.unread with _ | ⟨msg, unread⟩
  · simp only [hunread] at h
    cases h
    exact .loop .test _ s.ring s.replied s.runnable hold rfl
  · cases msg with
    | watchEvent =>
      simp only [hunread] at h
      cases h
      exact .loop s.thread _ _ s.replied s.runnable hold hold
    | reply id =>
      simp only [hunread] at h
      obtain ⟨-, rfl⟩ := of_when h
      exact .loop s.thread _ _ _ s.runnable hold hold

theorem threadStep_moves (h : threadStep s = some t) : Moves s t := by
  unfold threadStep at h
  cases hthread : s.thread with
  | test =>
    simp only [hthread] at h
    cases h
    exact .loop _ s.prod s.ring s.replied s.runnable (by rw [hthread]; rfl) (by split <;> rfl)
  | block =>
    simp only [hthread] at h
    cases h
    exact .loop _ s.prod s.ring s.replied _ (by rw [hthread]; rfl) rfl
  | recheck =>
    simp only [hthread] at h
    split at h
    · cases h
      exact .loop _ s.prod s.ring s.replied _ (by rw [hthread]; rfl) rfl
    · cases h
      exact .loop _ s.prod s.ring s.replied s.runnable (by rw [hthread]; rfl) rfl
  | sleep =>
    simp only [hthread] at h
    obtain ⟨-, rfl⟩ := of_when h
    exact .loop _ s.prod s.ring s.replied s.runnable (by rw [hthread]; rfl) rfl
  | check =>
    simp only [hthread] at h
    by_cases hsuspend : s.suspend = true
    · rw [if_pos hsuspend] at h
      cases h
      exact .park hthread hsuspend
    · rw [if_neg hsuspend] at h
      cases h
      exact .loop _ s.prod s.ring s.replied s.runnable (by rw [hthread]; rfl) rfl
  | complete =>
    simp only [hthread] at h
    cases h
    exact .complete hthread
  | enter =>
    simp only [hthread] at h
    by_cases hdone : s.resumeDone = 0
    · rw [if_pos hdone] at h
      cases h
      exact .enter hthread hdone
    · rw [if_neg hdone] at h
      cases h
      exact .pass s.resumeQueue (.inl hthread) hdone
  | wait =>
    simp only [hthread] at h
    obtain ⟨-, h⟩ := ite_none_right_eq_some.mp h
    by_cases hdone : s.resumeDone = 0
    · rw [if_pos hdone] at h
      cases h
      exact .again hthread hdone
    · rw [if_neg hdone] at h
      cases h
      exact .pass false (.inr hthread) hdone
  | bug =>
    simp only [hthread] at h
    obtain ⟨-, rfl⟩ := of_unless h
    exact .loop _ s.prod s.ring s.replied s.runnable (by rw [hthread]; rfl) rfl
  | read =>
    simp only [hthread] at h
    exact readMsg_moves hthread h

theorem Moves.caller (h : Moves s t) : t.caller = s.caller ∧ t.suspend = s.suspend ∧
    t.ids = s.ids := by
  cases h <;> exact ⟨rfl, rfl, rfl⟩

theorem Moves.parking (h : Moves s t) (hpark : Parking t.thread = true) :
    Parking s.thread = true ∨ s.thread = .check ∧ s.suspend = true := by
  cases h with
  | loop thread prod ring replied runnable hold hnew =>
    rw [hnew] at hpark
    nomatch hpark
  | park hthread hsuspend => exact .inr ⟨hthread, hsuspend⟩
  | complete hthread | enter hthread hdone | again hthread hdone =>
    rw [hthread]
    exact .inl rfl
  | pass queue hthread hdone => nomatch hpark

/-! ## What the other steps do -/

structure Other (s : State) (a : Label) (t : State) : Prop where
  caller : t.caller = s.caller
  suspend : t.suspend = s.suspend
  thread : t.thread = s.thread
  resumeDone : t.resumeDone = s.resumeDone
  resumeQueue : t.resumeQueue = s.resumeQueue
  suspendDone : t.suspendDone = s.suspendDone ∧ t.stale = s.stale
  runnable : s.runnable = true → t.runnable = true
  ids : t.ids = s.ids ∨
    ∃ l, XenbusId.step s.ids l = some t.ids ∧ ∀ u, l = .allocate u → a = .allocate u

theorem step_other (h : step s a = some t) (hthread : a ≠ .thread)
    (hcontrol : ∀ rspProd, a ≠ .control rspProd) : Other s a t := by
  cases a with
  | thread => exact absurd rfl hthread
  | control rspProd => exact absurd rfl (hcontrol rspProd)
  | event =>
    obtain ⟨-, rfl⟩ := of_when h
    exact ⟨rfl, rfl, rfl, rfl, rfl, ⟨rfl, rfl⟩, fun hr => by simp [hr], .inl rfl⟩
  | allocate u =>
    obtain ⟨-, h⟩ := ite_none_right_eq_some.mp h
    obtain ⟨ids, hids, rfl⟩ := map_eq_some_iff.mp h
    refine ⟨rfl, rfl, rfl, rfl, rfl, ⟨rfl, rfl⟩, id, .inr ⟨_, hids, ?_⟩⟩
    rintro v heq
    cases heq
    rfl
  | awake u =>
    obtain ⟨-, h⟩ := ite_none_right_eq_some.mp h
    obtain ⟨ids, hids, rfl⟩ := map_eq_some_iff.mp h
    exact ⟨rfl, rfl, rfl, rfl, rfl, ⟨rfl, rfl⟩, id, .inr ⟨_, hids, nofun⟩⟩
  | xbWrite id | answer id =>
    obtain ⟨-, rfl⟩ := of_when h
    exact ⟨rfl, rfl, rfl, rfl, rfl, ⟨rfl, rfl⟩, fun hr => hr, .inl rfl⟩
  | release u id =>
    obtain ⟨-, h⟩ := ite_none_right_eq_some.mp h
    obtain ⟨ids, hids, rfl⟩ := map_eq_some_iff.mp h
    exact ⟨rfl, rfl, rfl, rfl, rfl, ⟨rfl, rfl⟩, fun hr => hr, .inr ⟨_, hids, nofun⟩⟩
  | fire =>
    cases h
    exact ⟨rfl, rfl, rfl, rfl, rfl, ⟨rfl, rfl⟩, fun hr => hr, .inl rfl⟩

theorem nrLiveReqs_le {ids ids' : XenbusId.State} (h : XenbusId.step ids l = some ids')
    (hfull : ∀ u, l = .allocate u → ¬ ids.nrLiveReqs < NR_REQS) :
    ids'.nrLiveReqs ≤ ids.nrLiveReqs := by
  cases l with
  | allocate u =>
    obtain ⟨-, h⟩ := ite_none_left_eq_some.mp h
    rw [XenbusId.allocateXenbusId, if_neg (hfull u rfl)] at h
    cases h
    exact le_rfl
  | awake u =>
    obtain ⟨-, rfl⟩ := of_when h
    exact le_rfl
  | release u id =>
    obtain ⟨-, rfl⟩ := of_when h
    exact Nat.sub_le _ _

theorem Other.drained (h : Other s a t) (hlive : s.ids.nrLiveReqs = 0)
    (hnone : ∀ u, a = .allocate u → ¬ s.ids.nrLiveReqs < NR_REQS) : t.ids.nrLiveReqs = 0 := by
  rcases h.ids with heq | hstep
  · rw [heq, hlive]
  · obtain ⟨l, hl, hallocate⟩ := hstep
    have hle := nrLiveReqs_le hl fun u hu => hnone u (hallocate u hu)
    rw [hlive] at hle
    exact Nat.le_zero.mp hle

theorem Other.inv (h : Other s a t) (hids : XenbusId.Inv s.ids) : XenbusId.Inv t.ids := by
  rcases h.ids with heq | hstep
  · exact heq ▸ hids
  · obtain ⟨l, hl, _⟩ := hstep
    exact XenbusId.inv_step hids hl

theorem controlStep_ids (h : controlStep s rspProd = some t) : t.ids = s.ids := by
  unfold controlStep at h
  cases hcaller : s.caller <;> simp only [hcaller] at h
  case draining =>
    obtain ⟨-, rfl⟩ := of_when h
    rfl
  case waitComp =>
    obtain ⟨-, rfl⟩ := of_unless h
    rfl
  all_goals
    cases h
    rfl

theorem ids_step (h : XenbusId.Inv s.ids) (hs : step s a = some t) : XenbusId.Inv t.ids := by
  cases a with
  | thread => exact (threadStep_moves hs).caller.2.2 ▸ h
  | control rspProd =>
    obtain ⟨u, hu, rfl⟩ := map_eq_some_iff.mp hs
    exact controlStep_ids hu ▸ h
  | _ => exact (step_other hs nofun nofun).inv h

theorem ids_inv {ok : State → Label → Prop} (h : Reach step ok Initial s) : XenbusId.Inv s.ids :=
  h.invariant (I := fun s => XenbusId.Inv s.ids) (fun _ hs => XenbusId.inv_initial hs.ids)
    fun _ _ _ hinv _ hs => ids_step hinv hs

/-! ## The deadlock -/

/-- The thread waits to be resumed and the caller for requests whose replies only the thread takes.
-/
structure Deadlocked (s : State) : Prop where
  thread : s.thread = .wait
  runnable : s.runnable = false
  caller : s.caller = .draining
  live : s.ids.nrLiveReqs ≠ 0

/-- The thread finds the flag only when no request is live, no id is taken while it is set, and it
is set only when the thread has left its last wait. -/
def drainStep (s : State) : Label → Prop
  | .thread => s.thread = .check → s.suspend = true → s.ids.nrLiveReqs = 0
  | .allocate _ => s.ids.nrLiveReqs < NR_REQS → s.suspend = false
  | .control _ => s.caller = .running → Parking s.thread = false
  | _ => True

structure Drained (s : State) : Prop where
  suspend : s.caller = .flagged ∨ s.caller = .draining → s.suspend = true
  live : s.caller = .flagged ∨ s.caller = .draining → Parking s.thread = true → s.ids.nrLiveReqs = 0

theorem drained_thread (h : Drained s) (hok : drainStep s .thread) (hs : Moves s t) :
    Drained t := by
  obtain ⟨hcaller, hsuspend, hids⟩ := hs.caller
  constructor
  · rw [hcaller, hsuspend]
    exact h.suspend
  · rw [hcaller, hids]
    intro hwait hpark
    rcases hs.parking hpark with hold | hcheck
    · exact h.live hwait hold
    · exact hok hcheck.1 hcheck.2

theorem drained_control (h : Drained s) (hok : drainStep s (.control rspProd))
    (hs : controlStep s rspProd = some t) : Drained t := by
  unfold controlStep at hs
  cases hcaller : s.caller <;> simp only [hcaller] at hs
  case running =>
    cases hs
    exact ⟨fun _ => rfl, fun _ hpark => absurd hpark (by simp [hok hcaller])⟩
  case flagged =>
    cases hs
    exact ⟨fun _ => h.suspend (.inl hcaller), fun _ => h.live (.inl hcaller)⟩
  case draining =>
    obtain ⟨-, rfl⟩ := of_when hs
    exact ⟨fun hc => hc.elim nofun nofun, fun hc => hc.elim nofun nofun⟩
  case waitComp =>
    obtain ⟨-, rfl⟩ := of_unless hs
    exact ⟨fun hc => hc.elim nofun nofun, fun hc => hc.elim nofun nofun⟩
  all_goals
    cases hs
    exact ⟨fun hc => hc.elim nofun nofun, fun hc => hc.elim nofun nofun⟩

theorem drained_other (h : Drained s) (hok : drainStep s a) (hs : Other s a t) : Drained t := by
  constructor
  · rw [hs.caller, hs.suspend]
    exact h.suspend
  · rw [hs.caller, hs.thread]
    intro hwait hpark
    apply hs.drained (h.live hwait hpark)
    rintro u rfl hlt
    have hsuspend := h.suspend hwait
    rw [hok hlt] at hsuspend
    nomatch hsuspend

theorem drained_step (h : Drained s) (hok : drainStep s a) (hs : step s a = some t) :
    Drained t := by
  cases a with
  | thread => exact drained_thread h hok (threadStep_moves hs)
  | control rspProd =>
    obtain ⟨u, hu, rfl⟩ := map_eq_some_iff.mp hs
    exact { drained_control h hok hu with }
  | _ => exact drained_other h hok (step_other hs nofun nofun)

/-- The thread and the caller of `xenbus_suspend` do not wait for each other. -/
theorem suspend_no_deadlock (s : State) (h : Reach step drainStep Initial s) : ¬ Deadlocked s := by
  have hdrained : Drained s := by
    apply h.invariant
    · intro s hs
      constructor <;> rw [hs.caller] <;> exact fun hc => hc.elim nofun nofun
    · exact fun _ _ _ hd hok hs => drained_step hd hok hs
  intro hdead
  apply hdead.live
  exact hdrained.live (.inr hdead.caller) (by rw [hdead.thread]; rfl)

/-! ## Suspending with a request in flight -/

def boot : State where
  suspend := false
  suspendDone := 0
  resumeDone := 0
  resumeQueue := false
  thread := .test
  runnable := true
  prod := 0
  ring := ⟨0, [], []⟩
  bound := true
  ids := XenbusId.start
  sent := fun _ => false
  replied := fun _ => false
  caller := .running
  stale := false

theorem initial_boot : Initial boot :=
  ⟨rfl, rfl, rfl, rfl, ⟨rfl, rfl, rfl, rfl, rfl⟩, fun _ => rfl, fun _ => rfl, rfl⟩

def request : List Label := [.allocate 0, .xbWrite 0]

instance (s : State) : (a : Label) → Decidable (drainStep s a)
  | .thread => inferInstanceAs (Decidable (_ → _ → _))
  | .allocate _ | .control _ => inferInstanceAs (Decidable (_ → _))
  | .event => .isTrue trivial
  | .awake _ => .isTrue trivial
  | .xbWrite _ => .isTrue trivial
  | .release _ _ => .isTrue trivial
  | .answer _ => .isTrue trivial
  | .fire => .isTrue trivial

theorem suspend_no_deadlock_drained : ∃ s, Reach step drainStep Initial s ∧
    s.caller = .suspended ∧ s.thread = .wait ∧ ¬ Deadlocked s := by
  have hstart : Reach step drainStep Initial boot := .start initial_boot
  obtain ⟨s, h, hcaller, hthread⟩ := hstart.runGuardedTo
    (P := fun s => s.caller = .suspended ∧ s.thread = .wait)
    (request ++ [.answer 0] ++ replicate 2 .thread ++ replicate 2 (.control 0) ++
      [.thread, .release 0 0] ++ replicate 5 (.control 0) ++ replicate 5 .thread ++ [.control 0])
    (by decide +kernel)
  exact ⟨s, h, hcaller, hthread, suspend_no_deadlock s h⟩

structure Stuck (s : State) : Prop where
  thread : s.thread = .wait
  runnable : s.runnable = false
  caller : s.caller = .draining
  ids : XenbusId.Inv s.ids
  unanswered : ∃ id, s.ids.inUse id = true ∧ s.replied id = false

theorem nrLiveReqs_ne_zero {ids : XenbusId.State} (h : XenbusId.Inv ids)
    (hid : ids.inUse id = true) :
    ids.nrLiveReqs ≠ 0 := by
  obtain ⟨x, hx, hxid⟩ := mem_map.mp ((h.marked id).mp hid)
  have hlt := hxid ▸ h.below x hx
  have hpos := countP_pos_iff.mpr ⟨id, mem_range.mpr hlt, hid⟩
  rw [h.live]
  exact ne_of_gt hpos

theorem Stuck.deadlocked (h : Stuck s) : Deadlocked s := by
  obtain ⟨id, hid, _⟩ := h.unanswered
  exact { h with live := nrLiveReqs_ne_zero h.ids hid }

theorem unanswered_ids {ids ids' : XenbusId.State}
    (h : XenbusId.step ids l = some ids') (hid : ids.inUse id = true)
    (hkeep : ∀ u, l ≠ .release u id) :
    ids'.inUse id = true := by
  cases l with
  | allocate u =>
    obtain ⟨-, h⟩ := ite_none_left_eq_some.mp h
    unfold XenbusId.allocateXenbusId at h
    split at h
    · obtain ⟨id', -, rfl⟩ := map_eq_some_iff.mp h
      by_cases heq : id = id'
      · simp only [heq, update_self]
      · simp only [update_of_ne heq, hid]
    · cases h
      exact hid
  | awake u =>
    obtain ⟨-, rfl⟩ := of_when h
    exact hid
  | release u id' =>
    obtain ⟨-, rfl⟩ := of_when h
    have hne : id ≠ id' := fun heq => hkeep u (heq ▸ rfl)
    simp only [XenbusId.releaseXenbusId, update_of_ne hne, hid]

theorem stuck_step (h : Stuck s) (hs : step s a = some t) : Stuck t := by
  obtain ⟨id, hid, hreplied⟩ := h.unanswered
  have hinv := ids_step h.ids hs
  cases a with
  | thread => simp [step, threadStep, h.thread, h.runnable] at hs
  | control rspProd => simp [step, controlStep, h.caller, nrLiveReqs_ne_zero h.ids hid] at hs
  | event =>
    obtain ⟨-, rfl⟩ := of_when hs
    exact ⟨h.thread, by simp [h.thread, h.runnable], h.caller, h.ids, id, hid, hreplied⟩
  | allocate u | awake u =>
    obtain ⟨-, hs⟩ := ite_none_right_eq_some.mp hs
    obtain ⟨ids, hids, rfl⟩ := map_eq_some_iff.mp hs
    exact ⟨h.thread, h.runnable, h.caller, hinv, id,
      unanswered_ids hids hid nofun, hreplied⟩
  | xbWrite id' | answer id' =>
    obtain ⟨-, rfl⟩ := of_when hs
    exact ⟨h.thread, h.runnable, h.caller, h.ids, id, hid, hreplied⟩
  | release u id' =>
    obtain ⟨⟨-, hreply⟩, hs⟩ := ite_none_right_eq_some.mp hs
    obtain ⟨ids, hids, rfl⟩ := map_eq_some_iff.mp hs
    have hne : id ≠ id' := by
      rintro rfl
      rw [hreplied] at hreply
      nomatch hreply
    refine ⟨h.thread, h.runnable, h.caller, hinv, id, ?_, ?_⟩
    · apply unanswered_ids hids hid
      intro v heq
      cases heq
      exact hne rfl
    · simp only [update_of_ne hne, hreplied]
  | fire =>
    cases hs
    exact ⟨h.thread, h.runnable, h.caller, h.ids, id, hid, hreplied⟩

/-- The event of the reply wakes the xenbus thread, which finds the flag and parks before it takes
the reply. Nothing that happens afterwards ends this. -/
theorem suspend_deadlock : ∃ s, Reach step anyStep Initial s ∧ Deadlocked s ∧
    ∀ t, Leads step s t → Deadlocked t := by
  have hstart : Reach step anyStep Initial boot := .start initial_boot
  obtain ⟨s, h, hthread, hrunnable, hcaller, hinUse, hreplied⟩ := hstart.runTo
    (P := fun s => s.thread = .wait ∧ s.runnable = false ∧ s.caller = .draining ∧
      s.ids.inUse 0 = true ∧ s.replied 0 = false)
    (replicate 3 .thread ++ request ++ replicate 2 (.control 0) ++ [.answer 0, .event] ++
      replicate 6 .thread)
    (by decide +kernel)
  have hstuck : Stuck s := ⟨hthread, hrunnable, hcaller, ids_inv h, 0, hinUse, hreplied⟩
  refine ⟨s, h, hstuck.deadlocked, ?_⟩
  rintro t ⟨labels, hr⟩
  have hself : Reach step anyStep (· = s) s := .start rfl
  have hreach := hself.run labels hr
  apply Stuck.deadlocked
  apply hreach.invariant
  · rintro _ rfl
    exact hstuck
  · exact fun _ _ _ hu _ hs => stuck_step hu hs

end Guk.XenbusSuspend
