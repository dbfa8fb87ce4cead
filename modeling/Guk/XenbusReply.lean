import Guk.Owner
import Guk.Runs
import Guk.XenbusRing

/-!
# Calls and replies of the xenstore (`xenbus_msg_reply`)

Any number of threads call `xenbus_msg_reply`: each takes an id, queues itself to
be woken by the reply, sends its message with `xb_write` and calls `schedule` once.
xenstored answers the requests it has read in any order; the xenbus thread stores
each answer under its id and wakes who waits for that id.

A section under a spinlock is two steps, to take the lock, and to do the work and
release it. A thread runs on where nothing is said about it, also when it is not
runnable; in `schedule` it stays until it is. Requests are numbered, so that a
reply can be told from an older one under the same id. `suspend` is left out, and
no debugger is attached.
-/
namespace Guk.XenbusReply

open Owner Guk.Ring Runs XenbusRing Function

def NR_REQS : Nat := 32

structure Call where
  serial : Nat
  len : Nat
  deriving DecidableEq, Repr

inductive Wait where
  | test
  | enqueue
  | retest
  | wakeSelf
  | schedule
  | asleep
  | dequeue
  deriving DecidableEq, Repr

inductive Pc where
  | idle
  /-- `allocate_xenbus_id`, without and with `req_lock` -/
  | lockReq (c : Call)
  | allocate (c : Call)
  | waitId (c : Call) (w : Wait)
  | initQueue (c : Call) (id : Nat)
  | preemptDisable (c : Call) (id : Nat)
  | addWaiter (c : Call) (id : Nat)
  /-- `xb_write`, without and with `xb_lock`, before or after its `wait_event` -/
  | lockRing (c : Call) (id : Nat) (waited : Bool)
  | write (c : Call) (id : Nat) (waited : Bool)
  | waitSpace (c : Call) (id : Nat) (w : Wait)
  | preemptEnable (c : Call) (id : Nat)
  | schedule (c : Call) (id : Nat)
  | asleep (c : Call) (id : Nat)
  | readReply (c : Call) (id : Nat)
  /-- `release_xenbus_id`, without and with `req_lock` -/
  | lockRelease (c : Call) (id rep : Nat)
  | release (c : Call) (id rep : Nat)
  deriving DecidableEq, Repr

structure Request where
  id : Nat
  serial : Nat
  endIdx : Nat
  deriving DecidableEq, Repr

inductive Queue where
  | req
  | xb
  deriving DecidableEq, Repr

/-- `inUse`, `waitq` and `reply` are the fields of `req_info`; a reply is given by the number of the
request it answers. `handling` is the id of a reply that has been stored while its waiter is still
to be woken. `returned` has the request and the reply of every call that has ended. -/
structure State where
  pc : Nat → Pc
  runnable : Nat → Bool
  preemptCount : Nat → Nat
  lockCount : Nat → Nat
  reqLock : Bool
  xbLock : Bool
  inUse : Nat → Bool
  waitq : Nat → List Nat
  reply : Nat → Option Nat
  nrLiveReqs : Nat
  probe : Nat
  wq : Queue → List Nat
  reqProd : Nat
  reqCons : Nat
  requests : List Request
  handling : Option Nat
  bug : Bool
  nextSerial : Nat
  returned : List (Nat × Nat)

inductive Label where
  | call (t len : Nat)
  | thread (t : Nat)
  | consume (n : Nat)
  /-- the xenbus thread stores the answer to a request -/
  | store (q : Request)
  | wakeWaiter
  /-- `xenbus_evtchn_handler` -/
  | evtchn
  /-- `guk_interrupt` or an expired timer wakes the thread -/
  | interrupt (t : Nat)

def setPc (s : State) (t : Nat) (pc : Pc) : State := { s with pc := update s.pc t pc }

def setRunnable (s : State) (t : Nat) (b : Bool) : State :=
  { s with runnable := update s.runnable t b }

def wakeUp (s : State) (queue : List Nat) : State :=
  { s with runnable := fun t => if t ∈ queue then true else s.runnable t }

def preemptDisable (s : State) (t : Nat) : State :=
  { s with preemptCount := update s.preemptCount t (s.preemptCount t + 1) }

def preemptEnable (s : State) (t : Nat) : State :=
  { s with preemptCount := update s.preemptCount t (s.preemptCount t - 1) }

def spinLock (s : State) (t : Nat) : State :=
  let s := preemptDisable s t
  { s with lockCount := update s.lockCount t (s.lockCount t + 1) }

def spinUnlock (s : State) (t : Nat) : State :=
  let s := preemptEnable s t
  { s with lockCount := update s.lockCount t (s.lockCount t - 1) }

def gukSchedule (s : State) (t : Nat) (pc : Pc) : State :=
  if s.lockCount t ≠ 0 ∨ s.preemptCount t ≠ 0 then { s with bug := true } else setPc s t pc

def waitEvent (s : State) (t : Nat) (q : Queue) (condition : Bool) (inside : Wait → Pc)
    (done : Pc) :
    Wait → Option State
  | .test => some (setPc s t (if condition then done else inside .enqueue))
  | .enqueue => some (setPc (setRunnable { s with
      wq := update s.wq q (if t ∈ s.wq q then s.wq q else s.wq q ++ [t]) } t false) t
        (inside .retest))
  | .retest => some (setPc s t (inside (if condition then .wakeSelf else .schedule)))
  | .wakeSelf => some (setPc (setRunnable s t true) t (inside .dequeue))
  | .schedule => some (gukSchedule s t (inside .asleep))
  | .asleep => if s.runnable t then some (setPc s t (inside .enqueue)) else none
  | .dequeue => some (setPc { s with wq := update s.wq q ((s.wq q).filter (· ≠ t)) } t done)

def probeLoop (inUse : Nat → Bool) (probe : Nat) : Nat → Nat → Option Nat
  | 0, _ => none
  | fuel + 1, oProbe =>
    if !inUse oProbe then some oProbe
    else if (oProbe + 1) % NR_REQS = probe then none
    else probeLoop inUse probe fuel ((oProbe + 1) % NR_REQS)

def hasSpace (r : RingSize) (s : State) (len : Nat) : Bool :=
  subIdx (s.reqProd + len) s.reqCons ≤ r.size

def allocateXenbusId (s : State) (t : Nat) (c : Call) : Option State :=
  if s.nrLiveReqs < NR_REQS then
    (probeLoop s.inUse s.probe NR_REQS s.probe).map fun id =>
      setPc (spinUnlock { s with
        nrLiveReqs := s.nrLiveReqs + 1
        inUse := update s.inUse id true
        probe := (id + 1) % NR_REQS
        reqLock := false } t) t (.initQueue c id)
  else some (setPc (spinUnlock { s with reqLock := false } t) t (.waitId c .test))

def releaseXenbusId (s : State) (t : Nat) (c : Call) (id rep : Nat) : State :=
  let n := s.nrLiveReqs - 1
  let s := { s with nrLiveReqs := n, inUse := update s.inUse id false }
  let s := if n = NR_REQS - 1 ∨ n = 0 then wakeUp s (s.wq .req) else s
  setPc (spinUnlock { s with reqLock := false, returned := (c.serial, rep) :: s.returned } t) t
    .idle

section

variable (r : RingSize)

def xbWrite (s : State) (t : Nat) (c : Call) (id : Nat) (waited : Bool) : Option State :=
  if waited = false ∧ hasSpace r s c.len = false then
    some (setPc (spinUnlock { s with xbLock := false } t) t (.waitSpace c id .test))
  else if (s.reqProd + c.len) % idxMod > (s.reqCons + r.size) % idxMod then none
  else
    some (setPc (spinUnlock { s with
      xbLock := false
      reqProd := s.reqProd + c.len
      requests := s.requests ++ [⟨id, c.serial, s.reqProd + c.len⟩] } t) t (.preemptEnable c id))

def stepThread (s : State) (t : Nat) : Option State :=
  match s.pc t with
  | .idle => none
  | .lockReq c =>
    if s.reqLock then none else some (setPc (spinLock { s with reqLock := true } t) t (.allocate c))
  | .allocate c => allocateXenbusId s t c
  | .waitId c w => waitEvent s t .req (s.nrLiveReqs < NR_REQS) (.waitId c) (.lockReq c) w
  | .initQueue c id =>
    some (setPc { s with waitq := update s.waitq id [] } t (.preemptDisable c id))
  | .preemptDisable c id => some (setPc (preemptDisable s t) t (.addWaiter c id))
  | .addWaiter c id =>
    some (setPc (setRunnable { s with
      waitq := update s.waitq id (s.waitq id ++ [t]) } t false) t (.lockRing c id false))
  | .lockRing c id waited =>
    -- BUG_ON(len > XENSTORE_RING_SIZE) is before the lock
    if s.xbLock ∨ r.size < c.len then none
    else some (setPc (spinLock { s with xbLock := true } t) t (.write c id waited))
  | .write c id waited => xbWrite r s t c id waited
  | .waitSpace c id w =>
    waitEvent s t .xb (hasSpace r s c.len) (.waitSpace c id) (.lockRing c id true) w
  | .preemptEnable c id => some (setPc (preemptEnable s t) t (.schedule c id))
  | .schedule c id => some (gukSchedule s t (.asleep c id))
  | .asleep c id => if s.runnable t then some (setPc s t (.readReply c id)) else none
  | .readReply c id =>
    -- BUG_ON(rep->req_id != id) reads the reply
    (s.reply id).map fun rep => setPc s t (.lockRelease c id rep)
  | .lockRelease c id rep =>
    if s.reqLock ∨ s.inUse id = false then none
    else some (setPc (spinLock { s with reqLock := true } t) t (.release c id rep))
  | .release c id rep => some (releaseXenbusId s t c id rep)

def step (s : State) (l : Label) : Option State :=
  if s.bug then none
  else match l with
  | .call t len =>
    if s.pc t = .idle then
      some (setPc { s with nextSerial := s.nextSerial + 1 } t (.lockReq ⟨s.nextSerial, len⟩))
    else none
  | .thread t => stepThread r s t
  | .consume n => if n ≤ subIdx s.reqProd s.reqCons then some { s with reqCons := s.reqCons + n }
      else none
  | .store q =>
    -- BUG_ON(!req_info[msg.req_id].in_use)
    if q ∈ s.requests ∧ q.endIdx ≤ s.reqCons ∧ s.handling = none ∧ s.xbLock = false ∧
        s.inUse q.id = true then
      some { s with
        xbLock := true
        requests := s.requests.filter (· ≠ q)
        reply := update s.reply q.id (some q.serial)
        handling := some q.id }
    else none
  | .wakeWaiter =>
    match s.handling with
    | none => none
    | some id => some { wakeUp s (s.waitq id) with handling := none, xbLock := false }
  | .evtchn => some (wakeUp s (s.wq .xb))
  | .interrupt t => some (setRunnable s t true)

structure Initial (s : State) : Prop where
  pc : ∀ t, s.pc t = .idle
  preemptCount : ∀ t, s.preemptCount t = 0
  lockCount : ∀ t, s.lockCount t = 0
  reqLock : s.reqLock = false
  xbLock : s.xbLock = false
  inUse : ∀ id, s.inUse id = false
  nrLiveReqs : s.nrLiveReqs = 0
  wq : ∀ q, s.wq q = []
  requests : s.requests = []
  handling : s.handling = none
  bug : s.bug = false
  returned : s.returned = []

structure OwnReply (s : State) : Prop where
  bug : s.bug = false
  reply : ∀ t c id, s.pc t = .readReply c id → s.reply id = some c.serial
  returned : ∀ e ∈ s.returned, e.2 = e.1

def Pc.awaiting : Pc → Bool
  | .lockRing .. | .write .. | .waitSpace .. | .preemptEnable .. | .schedule .. | .asleep .. => true
  | _ => false

def ownReplyStep (s : State) : Label → Prop
  | .thread t =>
    match s.pc t with
    | .waitSpace c _ .test => hasSpace r s c.len = true
    | .write c _ true => hasSpace r s c.len = true
    | _ => True
  | .interrupt t => (s.pc t).awaiting = true → s.runnable t = true
  | _ => True

end

/-! ## Runs that go wrong -/

def start : State where
  pc _ := .idle
  runnable _ := true
  preemptCount _ := 0
  lockCount _ := 0
  reqLock := false
  xbLock := false
  inUse _ := false
  waitq _ := []
  reply _ := none
  nrLiveReqs := 0
  probe := 0
  wq _ := []
  reqProd := 0
  reqCons := 0
  requests := []
  handling := none
  bug := false
  nextSerial := 0
  returned := []

theorem start_initial : Initial start := by
  constructor <;> simp [start]

def untilWrite (t len : Nat) : List Label := .call t len :: List.replicate 7 (.thread t)

/-- Thread 0 has sent 1000 bytes that xenstored has not read, and `xb_write` of thread 1 calls
`schedule` with preemption disabled. With an empty ring, thread 0 is interrupted in `schedule` and
comes back without a reply. -/
theorem reply_not_own :
    (∃ s, Reach (step ring1024) anyStep Initial s ∧ s.bug = true) ∧
      ∃ s, Reach (step ring1024) anyStep Initial s ∧ s.bug = false ∧ ¬ OwnReply s := by
  have h₀ : Reach (step ring1024) anyStep Initial start := .start start_initial
  constructor
  · exact h₀.runTo (untilWrite 0 1000 ++ untilWrite 1 100 ++ List.replicate 4 (.thread 1))
      (by decide +kernel)
  · obtain ⟨s, hs, hbug, hpc, hreply⟩ := h₀.runTo
      (P := fun s => s.bug = false ∧ s.pc 0 = .readReply ⟨0, 100⟩ 0 ∧ s.reply 0 = none)
      (untilWrite 0 100 ++ [.thread 0, .thread 0, .interrupt 0, .thread 0]) (by decide +kernel)
    refine ⟨s, hs, hbug, ?_⟩
    intro hown
    have hsome := hown.reply 0 _ _ hpc
    rw [hreply] at hsome
    cases hsome

end Guk.XenbusReply
