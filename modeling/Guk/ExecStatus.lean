import Guk.ExecChannel
import Guk.Runs

/-!
# The status nodes of remote processes (`exec-front.c`, `exec-backend.c`)

A thread of a guest asks the backend for an operation by writing a request node
and then polls a status node until there is one. The backend watches the request
nodes. Its main loop handles one event after the other; only a wait request gets
a thread of its own. A result travels through the `status` field of the request
into the status node, and both sides build the name of this node for themselves.

Every access to a status node and every write of a `status` field is one step.
What the host's calls give (`fork`, `read`, `waitpid`, ...) is part of the label.
An operation has a number and carries the result that the backend has computed
for it; both are there for the statements only. The requests' own values are in
`Guk.ExecChannel`.
-/
namespace Guk.ExecStatus

open Runs Decimal Function
open ExecChannel (scanWord)
open CString (text)

/-! ## Names -/

inductive Kind where
  | exec | wait | read | write | close | destroy
  deriving DecidableEq, Repr

def Kind.request : Kind → List UInt8
  | .exec => text "exec"
  | .wait => text "wait"
  | .read => text "read"
  | .write => text "write"
  | .close => text "close"
  | .destroy => text "destroy"

def statusStrings : Kind → List UInt8
  | .exec => text "execstatus"
  | .wait => text "waitstatus"
  | .read => text "readstatus"
  | .write => text "writestatus"
  | .close => text "closestatus"
  | .destroy => text "destroystatus"

def statusNode (selfId : Nat) (id : Int) (k : Kind) : List UInt8 :=
  text "/local/domain/" ++ decimalInt selfId ++ text "/device/exec/" ++ decimalInt id ++ text "/" ++
    statusStrings k

def watchNode : List UInt8 := text "backend/exec/requests"

def requestPath (selfId : Nat) (id : Int) (k : Kind) : List UInt8 :=
  watchNode ++ text "/" ++ decimalInt selfId ++ text "/" ++ decimalInt id ++ text "/" ++ k.request

def frontendNode (domId requestId : Int) : List UInt8 :=
  text "/local/domain/" ++ decimalInt domId ++ text "/device/exec/" ++ decimalInt requestId

def fullpath (node path : List UInt8) : List UInt8 := node ++ text "/" ++ path

def kindstatus (kind : List UInt8) : List UInt8 := kind ++ text "status"

structure Vars where
  domId : Int
  requestId : Int
  rkind : List UInt8

def skip (lit m : List UInt8) : Option (List UInt8) :=
  if lit.isPrefixOf m then some (m.drop lit.length) else none

def scanRequestPath (path : List UInt8) (v : Vars) : Vars :=
  match (skip (watchNode ++ text "/") path).bind scanInt with
  | none => v
  | some (domId, rest) =>
    let v := { v with domId := domId }
    match (skip (text "/") rest).bind scanInt with
    | none => v
    | some (requestId, rest) =>
      let v := { v with requestId := requestId }
      match (skip (text "/") rest).bind scanWord with
      | none => v
      | some rkind => { v with rkind := rkind }

/-! ## State -/

def EAGAIN : Int := 11

def EBADF : Int := 9

def maxWait : Nat := 50

def maxActiveRequests : Nat := 16

inductive Phase where
  | polling (retry : Nat)
  | removing (read : Option Int)
  | returned (read : Option Int)
  deriving DecidableEq, Repr

structure Op where
  selfId : Nat
  id : Int
  kind : Kind
  phase : Phase
  result : Option Int

def Op.node (op : Op) : List UInt8 := statusNode op.selfId op.id op.kind

structure Request where
  domId : Int
  requestId : Int
  status : Int
  pid : Int
  slot : Int
  stdio : Int → Int

structure Reply where
  op : Nat
  request : Nat
  kind : List UInt8
  requestId : Int
  deriving DecidableEq, Repr

inductive Work where
  | exec | tooMany | read | write | close | destroy | badRequest
  deriving DecidableEq, Repr

inductive Main where
  | idle
  | serving (w : Work) (r : Reply)
  /-- `status` is written, `readbytes` is not -/
  | bytes (r : Reply) (buffer : List UInt8)
  /-- `status` is written, the node is not -/
  | replying (r : Reply)
  /-- in `reap_requests` -/
  | reaping (i : Nat)
  deriving DecidableEq, Repr

inductive Thread where
  | absent
  /-- in `waitpid` -/
  | waiting (request : Nat)
  | replying (request : Nat)
  /-- `pid` is still to be set -/
  | exiting (request : Nat)
  deriving DecidableEq, Repr

structure State where
  /-- the nodes below `device/exec` of all guests -/
  store : List UInt8 → Option (List UInt8)
  /-- what the watch has still to report: a path, and the operation that wrote it -/
  events : List (List UInt8 × Nat)
  /-- requests that `malloc` has given out so far -/
  requests : Nat
  request : Nat → Request
  activeRequests : Nat → Option Nat
  vars : Vars
  main : Main
  thread : Nat → Thread
  issued : Nat
  op : Nat → Op

structure Outcome where
  /-- the call's error, if it fails -/
  errnum : Option Int
  /-- `none` when there was no `fork` -/
  pid : Option Int
  stdio : Int → Int
  buffer : List UInt8

inductive Label where
  | issue (selfId : Nat) (k : Kind) (id : Int)
  /-- `xenbus_read` of `wait_for_status` -/
  | poll (n : Nat)
  | remove (n : Nat)
  /-- the main loop takes an event; `memory` is what `malloc` finds -/
  | take (memory : Request)
  | answer (o : Outcome)
  | writeBytes
  | reply
  | reap
  /-- the thread of operation `n` writes the `status` field -/
  | waited (n : Nat) (status : Int)
  | threadReply (n : Nat)
  | threadExit (n : Nat)

/-! ## Frontend -/

def setPhase (s : State) (n : Nat) (p : Phase) : State :=
  { s with op := update s.op n { s.op n with phase := p } }

def issueOp (s : State) (selfId : Nat) (k : Kind) (id : Int) : State :=
  { s with
    events := s.events ++ [(requestPath selfId id k, s.issued)]
    issued := s.issued + 1
    op := update s.op s.issued ⟨selfId, id, k, .polling maxWait, none⟩ }

def pollOp (s : State) (n retry : Nat) : State :=
  match s.store (s.op n).node with
  | none =>
    -- only an exec ever gives up
    let retry := if (s.op n).kind = .exec then retry - 1 else retry
    setPhase s n (if retry = 0 then .removing none else .polling retry)
  | some status => setPhase s n (.removing (some (((scanInt status).map (·.1)).getD (-EAGAIN))))

def removeNode (s : State) (n : Nat) (read : Option Int) : State :=
  setPhase { s with store := update s.store (s.op n).node none } n (.returned read)

/-! ## Backend -/

def execRequestId (requestId : Int) : Int := requestId.tdiv 3 * 3

def fdFromRequestId (requestId : Int) : Int := requestId.tmod 3

def matching (s : State) (domId requestId : Int) (i : Nat) : Option Nat :=
  match s.activeRequests i with
  | none => none
  | some r =>
    if (s.request r).domId = domId ∧ (s.request r).requestId = requestId then some r else none

def findRequest (s : State) (domId requestId : Int) : Option Nat :=
  (List.range maxActiveRequests).findSome? (matching s domId requestId)

def getRequestSlot (s : State) : Option Nat :=
  (List.range maxActiveRequests).find? fun i => (s.activeRequests i).isNone

def allocate (s : State) (q : Request) (w : Work) (r : Reply) : State :=
  { s with
    requests := s.requests + 1
    request := update s.request s.requests q
    main := .serving w r }

def writeBadRequest (s : State) (domId requestId : Int) (rkind : List UInt8) (n : Nat)
    (memory : Request) :
    State :=
  allocate s { memory with domId := domId, requestId := requestId } .badRequest
    ⟨n, s.requests, rkind, requestId⟩

def checkFindRequest (s : State) (domId requestId : Int) (rkind : List UInt8) (n : Nat)
    (memory : Request) (handle : Nat → State) : State :=
  match findRequest s domId requestId with
  | none => writeBadRequest s domId requestId rkind n memory
  | some r => handle r

def handleExec (s : State) (v : Vars) (n : Nat) (memory : Request) : State :=
  let q := { memory with domId := v.domId, requestId := v.requestId }
  match getRequestSlot s with
  | none => allocate s { q with slot := -1 } .tooMany ⟨n, s.requests, text "exec", v.requestId⟩
  | some i =>
    allocate { s with activeRequests := update s.activeRequests i (some s.requests) }
      { q with slot := i } .exec ⟨n, s.requests, text "exec", v.requestId⟩

def handleConnection (s : State) (v : Vars) (n : Nat) (memory : Request) : State :=
  if v.rkind = text "exec" then handleExec s v n memory
  else if v.rkind = text "wait" then
    checkFindRequest s v.domId v.requestId v.rkind n memory fun r =>
      { s with thread := update s.thread n (.waiting r), main := .reaping 0 }
  else if v.rkind = text "read" then
    checkFindRequest s v.domId (execRequestId v.requestId) v.rkind n memory fun r =>
      { s with main := .serving .read ⟨n, r, text "read", v.requestId⟩ }
  else if v.rkind = text "write" then
    checkFindRequest s v.domId (execRequestId v.requestId) v.rkind n memory fun r =>
      { s with main := .serving .write ⟨n, r, text "write", v.requestId⟩ }
  else if v.rkind = text "close" then
    checkFindRequest s v.domId (execRequestId v.requestId) v.rkind n memory fun r =>
      { s with main := .serving .close ⟨n, r, text "close", v.requestId⟩ }
  else if v.rkind = text "destroy" then
    checkFindRequest s v.domId v.requestId v.rkind n memory fun r =>
      { s with main := .serving .destroy ⟨n, r, text "close", (s.request r).requestId⟩ }
  else { s with main := .reaping 0 }

def takeEvent (s : State) (path : List UInt8) (n : Nat) (memory : Request) : State :=
  if path = watchNode then s
  else
    let v := scanRequestPath path { s.vars with domId := -1 }
    let s := { s with vars := v }
    if 0 ≤ v.domId then handleConnection s v n memory else { s with main := .reaping 0 }

def Work.status (o : Outcome) : Work → Int
  | .tooMany => -EAGAIN
  | .badRequest => -EBADF
  | .destroy => 0
  | .exec | .read | .write | .close =>
    match o.errnum with
    | none => 0
    | some errnum => -errnum

def closeFd (q : Request) (fd : Int) : Request :=
  if fd = -1 then { q with slot := -1 }
  else if fd = -2 then { q with pid := -1 }
  else { q with stdio := update q.stdio fd (-1) }

def Work.effect (o : Outcome) (requestId : Int) (q : Request) : Work → Request
  | .exec =>
    let q := { q with pid := o.pid.getD q.pid }
    if o.errnum = none then { q with stdio := o.stdio } else q
  | .close => closeFd q (fdFromRequestId requestId)
  | _ => q

def setResult (s : State) (n : Nat) (status : Int) : State :=
  { s with op := update s.op n { s.op n with result := some status } }

def setRequest (s : State) (r : Nat) (q : Request) : State :=
  { s with request := update s.request r q }

def answerRequest (s : State) (w : Work) (r : Reply) (o : Outcome) : State :=
  let q := w.effect o r.requestId (s.request r.request)
  let status := w.status o
  let s := setResult (setRequest s r.request { q with status := status }) r.op status
  { s with main := if w = .read ∧ o.errnum = none then .bytes r o.buffer else .replying r }

def replyNode (s : State) (r : Reply) : List UInt8 :=
  fullpath (frontendNode (s.request r.request).domId r.requestId) (kindstatus r.kind)

def writeStatusId (s : State) (r : Reply) : State :=
  { s with
    store := update s.store (replyNode s r) (some (decimalInt (s.request r.request).status)) }

def waitReply (s : State) (n r : Nat) : Reply := ⟨n, r, text "wait", (s.request r).requestId⟩

def bytesNode (s : State) (r : Reply) : List UInt8 :=
  fullpath (frontendNode (s.request r.request).domId r.requestId) (text "readbytes")

def Request.gone (q : Request) : Prop :=
  q.pid = -1 ∧ q.stdio 0 = -1 ∧ q.stdio 1 = -1 ∧ q.stdio 2 = -1

instance (q : Request) : Decidable q.gone := inferInstanceAs (Decidable (_ ∧ _))

def reapRequest (s : State) (i : Nat) : State :=
  match s.activeRequests i with
  | none => s
  | some r =>
    if (s.request r).gone then
      { s with activeRequests := update s.activeRequests i none }
    else s

/-! ## Steps -/

def step (s : State) : Label → Option State
  | .issue selfId k id => some (issueOp s selfId k id)
  | .poll n =>
    if n < s.issued then
      match (s.op n).phase with
      | .polling retry => some (pollOp s n retry)
      | _ => none
    else none
  | .remove n =>
    if n < s.issued then
      match (s.op n).phase with
      | .removing read => some (removeNode s n read)
      | _ => none
    else none
  | .take memory =>
    match s.main, s.events with
    | .idle, (path, n) :: events => some (takeEvent { s with events := events } path n memory)
    | _, _ => none
  | .answer o =>
    match s.main with
    | .serving w r => some (answerRequest s w r o)
    | _ => none
  | .writeBytes =>
    match s.main with
    | .bytes r buffer =>
      some { s with store := update s.store (bytesNode s r) (some buffer), main := .replying r }
    | _ => none
  | .reply =>
    match s.main with
    | .replying r => some { writeStatusId s r with main := .reaping 0 }
    | _ => none
  | .reap =>
    match s.main with
    | .reaping i =>
      if i < maxActiveRequests then some { reapRequest s i with main := .reaping (i + 1) }
      else some { s with main := .idle }
    | _ => none
  | .waited n status =>
    match s.thread n with
    | .waiting r =>
      some { setResult (setRequest s r { s.request r with status := status }) n status with
        thread := update s.thread n (.replying r) }
    | _ => none
  | .threadReply n =>
    match s.thread n with
    | .replying r =>
      some { writeStatusId s (waitReply s n r) with thread := update s.thread n (.exiting r) }
    | _ => none
  | .threadExit n =>
    match s.thread n with
    | .exiting r =>
      some { setRequest s r { s.request r with pid := -1 } with
        thread := update s.thread n .absent }
    | _ => none

structure Initial (s : State) : Prop where
  events : s.events = []
  activeRequests : ∀ i, s.activeRequests i = none
  main : s.main = .idle
  thread : ∀ n, s.thread n = .absent
  issued : s.issued = 0

/-! ## Agreement -/

def Phase.value : Phase → Option Int
  | .polling _ => none
  | .removing read => read
  | .returned read => read

def Phase.isReturned : Phase → Bool
  | .returned _ => true
  | _ => false

def Main.current : Main → Option Reply
  | .serving _ r => some r
  | .bytes r _ => some r
  | .replying r => some r
  | _ => none

def Thread.current : Thread → Option Nat
  | .waiting r => some r
  | .replying r => some r
  | _ => none

def queued (s : State) : List Nat := s.events.map (·.2)

def Writes (s : State) (n : Nat) (node : List UInt8) : Prop :=
  (∃ r, s.main.current = some r ∧ r.op = n ∧ replyNode s r = node) ∨
    ∃ r, (s.thread n).current = some r ∧ replyNode s (waitReply s n r) = node

def Unanswered (s : State) (n : Nat) : Prop :=
  n ∈ queued s ∨ (s.main.current.map (·.op)) = some n ∨ (s.thread n).current.isSome

instance (s : State) (n : Nat) : Decidable (Unanswered s n) := inferInstanceAs (Decidable (_ ∨ _))

def Label.ofBackend : Label → Bool
  | .issue .. | .poll _ | .remove _ => false
  | _ => true

structure Agreement (s : State) : Prop where
  /-- a value read by an operation is the result computed for this operation -/
  own : ∀ n v, n < s.issued → (s.op n).phase.value = some v → (s.op n).result = some v
  /-- only an exec returns without a value -/
  reads : ∀ n, n < s.issued → (s.op n).phase = .returned none → (s.op n).kind = .exec
  /-- a polled node is there, or its operation is not handled yet, or it is about to be written -/
  waits : ∀ n retry, n < s.issued → (s.op n).phase = .polling retry →
    (s.store (s.op n).node).isSome ∨ n ∈ queued s ∨ Writes s n (s.op n).node
  /-- the backend can go on while something is unanswered -/
  proceeds : ∀ n, Unanswered s n → ∃ a t, a.ofBackend = true ∧ step s a = some t

def safeIssue (s : State) (selfId : Nat) (k : Kind) (id : Int) : Prop :=
  s.store (statusNode selfId id k) = none ∧
    ∀ n, n < s.issued → (s.op n).selfId = selfId ∧ (s.op n).id = id ∧ (s.op n).kind = k →
      (s.op n).phase.isReturned = true ∧ ¬ Unanswered s n

instance (s : State) (selfId : Nat) (k : Kind) (id : Int) : Decidable (safeIssue s selfId k id) :=
  inferInstanceAs (Decidable (_ ∧ _))

def safeTake (s : State) (op : Op) : Prop :=
  (op.kind = .destroy → findRequest s op.selfId op.id = none) ∧
    (op.kind = .read ∨ op.kind = .write ∨ op.kind = .close →
      (findRequest s op.selfId (execRequestId op.id)).isSome = true ∨ execRequestId op.id = op.id)

instance (s : State) (op : Op) : Decidable (safeTake s op) := inferInstanceAs (Decidable (_ ∧ _))

def Main.written : Main → Option Reply
  | .bytes r _ => some r
  | .replying r => some r
  | _ => none

def NoThread (s : State) (r : Nat) : Prop := ∀ n, n < s.issued → s.thread n ≠ .replying r

instance (s : State) (r : Nat) : Decidable (NoThread s r) :=
  inferInstanceAs (Decidable (∀ n, n < s.issued → s.thread n ≠ .replying r))

def safeStep (s : State) : Label → Prop
  | .issue selfId k id => safeIssue s selfId k id
  | .take _ => ∀ e ∈ s.events.head?, safeTake s (s.op e.2)
  | .answer _ => ∀ r ∈ s.main.current, NoThread s r.request
  | .waited n _ =>
    ∀ r ∈ (s.thread n).current, (∀ reply ∈ s.main.written, reply.request ≠ r) ∧ NoThread s r
  | _ => True

instance (s : State) : ∀ a, Decidable (safeStep s a)
  | .issue selfId k id => inferInstanceAs (Decidable (safeIssue s selfId k id))
  | .take _ => inferInstanceAs (Decidable (∀ e ∈ s.events.head?, safeTake s (s.op e.2)))
  | .answer _ => inferInstanceAs (Decidable (∀ r ∈ s.main.current, NoThread s r.request))
  | .waited n _ => inferInstanceAs (Decidable (∀ r ∈ (s.thread n).current,
      (∀ reply ∈ s.main.written, reply.request ≠ r) ∧ NoThread s r))
  | .poll _ | .remove _ | .writeBytes | .reply | .reap | .threadReply _ | .threadExit _ =>
      isTrue trivial

/-! ## Where they disagree -/

def Phase.isPolling : Phase → Bool
  | .polling _ => true
  | _ => false

def Forgotten (s : State) (n : Nat) : Prop :=
  n < s.issued ∧ (s.op n).phase.isPolling = true ∧ s.store (s.op n).node = none ∧
    s.main = .idle ∧ s.events = [] ∧ ∀ m, m < s.issued → s.thread m = .absent

instance (s : State) (n : Nat) : Decidable (Forgotten s n) := inferInstanceAs (Decidable (_ ∧ _))

theorem not_agreement_of_forgotten {s : State} {n : Nat} (h : Forgotten s n) : ¬ Agreement s := by
  intro ha
  obtain ⟨hn, hpoll, hnode, hmain, hev, hthread⟩ := h
  cases hp : (s.op n).phase with
  | polling retry =>
    have hwaits := ha.waits n retry hn hp
    rw [hnode] at hwaits
    rcases hwaits with h | h | h | h
    · cases h
    · rw [queued, hev] at h
      cases h
    · obtain ⟨r, hr, -⟩ := h
      rw [hmain] at hr
      cases hr
    · obtain ⟨r, hr, -⟩ := h
      rw [hthread n hn] at hr
      cases hr
  | removing read | returned read =>
    rw [hp] at hpoll
    cases hpoll

def memory : Request := ⟨0, 0, 0, 0, 0, fun _ => 0⟩

def start : State where
  store := fun _ => none
  events := []
  requests := 0
  request := fun _ => memory
  activeRequests := fun _ => none
  vars := ⟨-1, 0, []⟩
  main := .idle
  thread := fun _ => .absent
  issued := 0
  op := fun _ => ⟨0, 0, .exec, .polling 0, none⟩

theorem start_initial : Initial start := ⟨rfl, fun _ => rfl, rfl, fun _ => rfl, rfl⟩

def success : Outcome := ⟨none, some 100, fun fd => fd + 10, []⟩

def reaping : List Label := List.replicate (maxActiveRequests + 1) .reap

def served (k : Kind) (id : Int) : List Label :=
  [.issue 1 k id, .take memory, .answer success, .reply] ++ reaping

def started : List Label := served .exec 0 ++ [.poll 0, .remove 0]

def handed (id : Int) : List Label := [.issue 1 .wait id, .take memory] ++ reaping

/-- A destroy of a running process is answered at the node of a close, and a read of a descriptor of
an unknown process at the node of its first descriptor: their threads poll for ever. A wait returns
the result of a write that comes between the two writes of its thread, and the first of two
waits for one process returns the result of the second. -/
theorem exec_status_disagreement :
    (∃ s, Reach step anyStep Initial s ∧ (s.op 1).kind = .destroy ∧ Forgotten s 1 ∧ ¬ Agreement s) ∧
    (∃ s, Reach step anyStep Initial s ∧ (s.op 0).kind = .read ∧ Forgotten s 0 ∧ ¬ Agreement s) ∧
    (∃ s, Reach step anyStep Initial s ∧ (s.op 1).kind = .wait ∧
      (s.op 1).phase = .returned (some 0) ∧ (s.op 1).result = some 7) ∧
    ∃ s, Reach step anyStep Initial s ∧ (s.op 1).kind = .wait ∧
      (s.op 1).phase = .returned (some 0) ∧ (s.op 1).result = some 7 := by
  have hstart : Reach step anyStep Initial start := .start start_initial
  have hdestroy := hstart.runTo (P := fun s => (s.op 1).kind = .destroy ∧ Forgotten s 1)
    (started ++ served .destroy 0) (by decide +kernel)
  have hread := hstart.runTo (P := fun s => (s.op 0).kind = .read ∧ Forgotten s 0) (served .read 1)
    (by decide +kernel)
  have hwrite := hstart.runTo
    (P := fun s => (s.op 1).kind = .wait ∧ (s.op 1).phase = .returned (some 0) ∧
      (s.op 1).result = some 7)
    (started ++ handed 0 ++ [.issue 1 .write 0, .take memory, .waited 1 7, .answer success,
      .threadReply 1, .poll 1, .remove 1])
    (by decide +kernel)
  have hwait := hstart.runTo
    (P := fun s => (s.op 1).kind = .wait ∧ (s.op 1).phase = .returned (some 0) ∧
      (s.op 1).result = some 7)
    (started ++ handed 0 ++ handed 0 ++ [.waited 1 7, .threadReply 1, .threadExit 1, .waited 2 0,
      .threadReply 2, .poll 1, .remove 1])
    (by decide +kernel)
  obtain ⟨s, hs, hk, hf⟩ := hdestroy
  obtain ⟨u, hu, hku, hfu⟩ := hread
  exact ⟨⟨s, hs, hk, hf, not_agreement_of_forgotten hf⟩,
    ⟨u, hu, hku, hfu, not_agreement_of_forgotten hfu⟩, hwrite, hwait⟩

end Guk.ExecStatus
