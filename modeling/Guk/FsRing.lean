import Guk.Owner
import Guk.Ring
import Guk.Runs

/-!
# Requests and responses of the FS frontend (`fs-front.c`)

Frontend threads reserve a slot of the shared ring, write their request into
it, block, commit the slot and sleep until `fsfront_handler` wakes them. The
backend consumes committed requests in ring order and answers them in any order
it likes, each at the next response index. Requests and responses share the
slots.

Indices keep their unwrapped value (`Guk.Ring`); every comparison the code makes
is made modulo `2 ^ 32`. The size of the ring divides `2 ^ 32`, as in Xen's ring
macros, so a slot number does not depend on the wrap.
-/
namespace Guk.FsRing

open Owner Guk.Ring Runs Function

inductive Slot where
  | empty
  | request (type id : Nat)
  | response (id retVal : Nat)
  deriving DecidableEq, Repr

def Slot.requestId : Slot → Option Nat
  | .request _ id => some id
  | _ => none

def Slot.answer : Slot → Option (Nat × Nat)
  | .response id retVal => some (id, retVal)
  | _ => none

inductive Pc where
  | idle
  /-- `idx = import->ring.req_prod_pvt` -/
  | reserve (id : Nat)
  /-- `FS_RING_FREE_REQUESTS(&import->ring, idx) == 0` -/
  | check (id idx : Nat)
  /-- `cmpxchg(&import->ring.req_prod_pvt, idx, idx+1)` -/
  | cas (id idx : Nat)
  | fill (id idx : Nat)
  | block (id idx : Nat)
  /-- `cmpxchg(&import->ring.sring->req_prod, idx, idx+1)` -/
  | commit (id idx : Nat)
  /-- in `schedule()` -/
  | waiting (id : Nat)
  /-- the response has been read from `shadow_rsp` -/
  | done (id retVal : Nat)
  deriving DecidableEq, Repr

def Pc.id? : Pc → Option Nat
  | .idle => none
  | .reserve id | .check id _ | .cas id _ | .fill id _ | .block id _ | .commit id _ | .waiting id
  | .done id _ => some id

def Pc.slot? : Pc → Option Nat
  | .fill _ idx | .block _ idx | .commit _ idx => some idx
  | _ => none

inductive Handler where
  | idle
  /-- at `moretodo` -/
  | entry
  | loop (cons rp : Nat)
  /-- at `RING_FINAL_CHECK_FOR_RESPONSES` -/
  | final
  deriving DecidableEq, Repr

/-- The ring, the frontend's and the backend's private indices, the table `requests` and the
threads. Two fields are not in the code: `inUse` are the private ids that operations in progress
took from the free list, and `answer` is what the backend answered to the current request of an
id. -/
structure State where
  ring : Nat → Slot
  reqProd : Nat
  rspProd : Nat
  reqProdPvt : Nat
  rspCons : Nat
  reqCons : Nat
  rspProdPvt : Nat
  pending : List Nat
  reqThread : Nat → Nat
  shadowRsp : Nat → Nat
  thread : Nat → Pc
  runnable : Nat → Bool
  handler : Handler
  inUse : List Nat
  answer : Nat → Option Nat

structure Config where
  ringSize : Nat
  pos : 0 < ringSize
  small : ringSize < idxMod
  dvd : ringSize ∣ idxMod

inductive Label where
  | start (t id : Nat)
  | thread (t type : Nat)
  | consume
  | respond (id retVal : Nat)
  | push
  | irq
  /-- The next step of the handler; `junk` is what it makes of a slot that holds no response. -/
  | handle (junk : Nat × Nat)

def setPc (s : State) (t : Nat) (pc : Pc) : State :=
  { s with thread := update s.thread t pc }

def ringFull (c : Config) (s : State) (idx : Nat) : Prop := subIdx idx s.rspCons = c.ringSize

instance (c : Config) (s : State) (idx : Nat) : Decidable (ringFull c s idx) :=
  inferInstanceAs (Decidable (_ = _))

def stepThread (c : Config) (s : State) (t type : Nat) : Option State :=
  match s.thread t with
  | .idle => none
  | .reserve id => some (setPc s t (.check id s.reqProdPvt))
  | .check id idx =>
    if ringFull c s idx then some (setPc s t (.reserve id)) else some (setPc s t (.cas id idx))
  | .cas id idx =>
    if sameIdx s.reqProdPvt idx then
      some (setPc { s with reqProdPvt := s.reqProdPvt + 1 } t (.fill id s.reqProdPvt))
    else some (setPc s t (.reserve id))
  | .fill id idx =>
    some (setPc { s with ring := update s.ring (idx % c.ringSize) (.request type id) } t
      (.block id idx))
  | .block id idx =>
    some (setPc { s with runnable := update s.runnable t false } t (.commit id idx))
  | .commit id idx =>
    if sameIdx s.reqProd idx then some (setPc { s with reqProd := s.reqProd + 1 } t (.waiting id))
    else some s
  | .waiting id => if s.runnable t then some (setPc s t (.done id (s.shadowRsp id))) else none
  | .done id _ => some (setPc { s with inUse := s.inUse.erase id } t .idle)

def readResponse (junk : Nat × Nat) (slot : Slot) : Nat × Nat := slot.answer.getD junk

def deliver (s : State) (rsp : Nat × Nat) : State :=
  { s with
    shadowRsp := update s.shadowRsp rsp.1 rsp.2
    runnable := update s.runnable (s.reqThread rsp.1) true }

def stepHandler (c : Config) (s : State) (junk : Nat × Nat) : Option State :=
  match s.handler with
  | .idle => none
  | .entry => some { s with handler := .loop s.rspCons s.reqProd }
  | .loop cons rp =>
    if sameIdx cons rp then some { s with rspCons := rp, handler := .final }
    else
      let s := deliver s (readResponse junk (s.ring (cons % c.ringSize)))
      some { s with handler := .loop (cons + 1) rp }
  | .final =>
    if sameIdx s.rspProd s.rspCons then some { s with handler := .idle }
    else some { s with handler := .entry }

def step (c : Config) (s : State) : Label → Option State
  | .start t id =>
    if s.thread t = .idle ∧ s.runnable t = true then
      some (setPc { s with
        inUse := id :: s.inUse
        reqThread := update s.reqThread id t
        answer := update s.answer id none } t (.reserve id))
    else none
  | .thread t type => stepThread c s t type
  | .consume =>
    if s.reqCons < s.reqProd then
      match (s.ring (s.reqCons % c.ringSize)).requestId with
      | some id => some { s with reqCons := s.reqCons + 1, pending := s.pending ++ [id] }
      | none => none
    else none
  | .respond id retVal =>
    if id ∈ s.pending then
      some { s with
        ring := update s.ring (s.rspProdPvt % c.ringSize) (.response id retVal)
        rspProdPvt := s.rspProdPvt + 1
        pending := s.pending.erase id
        answer := update s.answer id (some retVal) }
    else none
  | .push => some { s with rspProd := s.rspProdPvt }
  | .irq => if s.handler = .idle then some { s with handler := .entry } else none
  | .handle junk => stepHandler c s junk

def initial (reqThread shadowRsp : Nat → Nat) : State where
  ring := fun _ => .empty
  reqProd := 0
  rspProd := 0
  reqProdPvt := 0
  rspCons := 0
  reqCons := 0
  rspProdPvt := 0
  pending := []
  reqThread := reqThread
  shadowRsp := shadowRsp
  thread := fun _ => .idle
  runnable := fun _ => true
  handler := .idle
  inUse := []
  answer := fun _ => none

def Initial (s : State) : Prop := ∃ reqThread shadowRsp, s = initial reqThread shadowRsp

def readPos (s : State) : Nat :=
  match s.handler with
  | .loop cons _ => cons
  | _ => s.rspCons

/-- The handler reads below `rsp_prod` only, and what it reads is the answer that the thread it
wakes waits for; a thread returns with the answer to its own request; no reserved slot holds a
response that has not been consumed. -/
structure Matching (c : Config) (s : State) : Prop where
  reads : ∀ cons rp, s.handler = .loop cons rp → ¬ sameIdx cons rp → cons < s.rspProd
  wakes : ∀ cons rp, s.handler = .loop cons rp → ¬ sameIdx cons rp → ∃ id retVal,
    s.ring (cons % c.ringSize) = .response id retVal ∧ s.answer id = some retVal ∧
    s.thread (s.reqThread id) = .waiting id
  woken : ∀ t id, s.thread t = .waiting id → s.runnable t = true →
    s.answer id = some (s.shadowRsp id)
  copied : ∀ t id retVal, s.thread t = .done id retVal → s.answer id = some retVal
  unread : s.reqProdPvt ≤ readPos s + c.ringSize ∧ s.rspCons ≤ s.rspProd

/-- `req_prod_pvt` made no full turn of `2 ^ 32` between the read and the `cmpxchg` that finds it
unchanged. -/
def noTurn (s : State) : Pc → Prop
  | .cas _ idx => sameIdx s.reqProdPvt idx → s.reqProdPvt = idx
  | _ => True

/-- An operation starts with an id that no other one has, `req_prod_pvt` makes no full turn under a
`cmpxchg`, and the handler reads its upper index when every committed request has been answered. -/
def safeStep (s : State) : Label → Prop
  | .start _ id => id ∉ s.inUse
  | .handle _ => s.handler = .entry → s.reqProd = s.rspProd
  | .thread t _ => noTurn s (s.thread t)
  | _ => True

instance (s : State) : (pc : Pc) → Decidable (noTurn s pc)
  | .cas _ _ => inferInstanceAs (Decidable (_ → _))
  | .idle | .reserve _ | .check _ _ | .fill _ _ | .block _ _ | .commit _ _ | .waiting _
  | .done _ _ => .isTrue trivial

instance (s : State) : (a : Label) → Decidable (safeStep s a)
  | .start _ id => inferInstanceAs (Decidable (id ∉ s.inUse))
  | .handle _ => inferInstanceAs (Decidable (_ → _))
  | .thread t _ => inferInstanceAs (Decidable (noTurn s (s.thread t)))
  | .consume | .respond _ _ | .push | .irq => .isTrue trivial

end Guk.FsRing
