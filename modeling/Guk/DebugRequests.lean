import Guk.DebugSuspend

/-!
# Debugger requests that name a thread (`db-back.c`, `db-frontend.c`)

A function of the frontend fills in a request, the backend looks the thread up and
answers, and the function makes its result of the answer. The slots of the ring are
used again: what a function or a handler does not write is left from before.
-/
namespace Guk.DebugRequests

open Sched Function

inductive Reg where
  | r15 | r14 | r13 | r12 | rbp | rbx | r11 | r10 | r9 | r8
  | rax | rcx | rdx | rsi | rdi | rip | flags | rsp
  deriving DecidableEq, Repr

structure DbRegs where
  xmm : Fin 16 → UInt64
  general : Reg → UInt64

structure DbWatchpoint where
  address : UInt64
  kind : UInt16

structure State extends DebugSuspend.State where
  id : Tid → UInt16
  needResched : Tid → Bool
  preemptCount : Tid → Int
  /-- `none` is `NULL`. -/
  regs : Tid → Option (Reg → UInt64)
  fpregs : Tid → Fin 16 → UInt64
  ip : Tid → UInt64
  sp : Tid → UInt64
  stack : Tid → UInt64
  stackSize : Tid → UInt64
  dbData : Tid → DbWatchpoint

inductive Kind where
  | suspendThread
  | resumeThread
  | singleStepThread
  | getRegs
  | setIp
  | getThreadStack
  | wpInfo
  deriving DecidableEq, Repr

structure Request where
  type : Kind
  id : UInt16
  word : UInt64
  word2 : UInt64

structure Response where
  id : UInt16
  retVal : UInt64
  retVal2 : UInt64
  regs : DbRegs

inductive Stop where
  /-- a member of `NULL` is used -/
  | nullThread
  | bug
  /-- a thread that does not stop -/
  | waiting
  /-- an `assert` of the frontend -/
  | assertion
  deriving DecidableEq, Repr

/-! ## The backend -/

section

-- What the other threads make of the state until the thread is neither runnable nor running.
variable (wait : State → Tid → Option State)

def busyWait (s : State) (t : Tid) : Except Stop State :=
  match wait s t with
  | some s => .ok s
  | none => .error .waiting

def requestSuspend (s : State) (t : Tid) : State :=
  { s with
    toState := DebugSuspend.setReqDebugSuspend s.toState t true
    needResched := update s.needResched t true }

def suspendThread (s : State) (t : Tid) : Except Stop State :=
  if !(s.thread t).runnable then
    .ok (if !(s.thread t).debugSuspend then requestSuspend s t else s)
  else
    (busyWait wait (requestSuspend s t) t).bind fun s =>
      if s.preemptCount t ≠ 1 then .error .bug else .ok s

def trapFlag : UInt64 := 0x100

def singleStepThread (s : State) (t : Tid) : Except Stop State :=
  let s := { s with toState := DebugSuspend.setStepped s.toState t true }
  if s.preemptCount t ≠ 1 then .error .bug
  else
    match s.regs t with
    | none => .error .bug
    | some regs =>
      let stepping := update regs .flags (regs .flags ||| trapFlag)
      let s := { s with
        regs := update s.regs t (some stepping)
        toReady := s.dbWake t }
      (busyWait wait s t).map fun s =>
        { s with toState := DebugSuspend.setStepped s.toState t false }

def getThreadById (s : State) (id : UInt16) : Option Tid := s.threadList.find? fun t => s.id t = id

def dispatchFound (req : Request) (rsp : Response) (s : State)
    (found : Tid → Response → Except Stop (State × Response)) : Except Stop (State × Response) :=
  let rsp := { rsp with id := req.id }
  match getThreadById s req.word.toUInt16 with
  | none => .ok (s, { rsp with retVal := -1 })
  | some t => found t rsp

def dispatchSuspendThread (req : Request) (rsp : Response) (s : State) :
    Except Stop (State × Response) :=
  dispatchFound req rsp s fun t rsp =>
    (suspendThread wait s t).map fun s => (s, { rsp with retVal := 0 })

def dispatchSingleStepThread (req : Request) (rsp : Response) (s : State) :
    Except Stop (State × Response) :=
  dispatchFound req rsp s fun t rsp =>
    if !(s.thread t).debugSuspend || (s.thread t).runnable || (s.thread t).running then
      .ok (s, { rsp with retVal := -2 })
    else (singleStepThread wait s t).map fun s => (s, { rsp with retVal := 0 })

def dispatchResumeThread (req : Request) (rsp : Response) (s : State) :
    Except Stop (State × Response) :=
  let s := { s with toState := DebugSuspend.clearAllReqDebugSuspend s.toState }
  let rsp := { rsp with id := req.id }
  match getThreadById s req.word.toUInt16 with
  -- `ret_val` is set to -1, but then the flags of the thread are tested
  | none => .error .nullThread
  | some t =>
    if !(s.thread t).debugSuspend || (s.thread t).runnable || (s.thread t).running then
      .ok (s, { rsp with retVal := -2 })
    else .ok ({ s with toState := DebugSuspend.release s.toState t }, { rsp with retVal := 0 })

def savedRegs (s : State) (t : Tid) : DbRegs :=
  match s.regs t with
  | none => ⟨fun _ => 0, update (update (fun _ => 0) .rip (s.ip t)) .rsp (s.sp t)⟩
  | some regs => ⟨s.fpregs t, regs⟩

def dispatchGetRegs (req : Request) (rsp : Response) (s : State) : Except Stop (State × Response) :=
  dispatchFound req rsp s fun t rsp =>
    if (s.thread t).runnable || (s.thread t).running then .ok (s, { rsp with retVal := -2 })
    else .ok (s, { rsp with retVal := 0, regs := savedRegs s t })

def dispatchSetIp (req : Request) (rsp : Response) (s : State) : Except Stop (State × Response) :=
  dispatchFound req rsp s fun t rsp =>
    if (s.thread t).runnable || (s.thread t).running then .ok (s, { rsp with retVal := -2 })
    else
      match s.regs t with
      | none => .ok (s, { rsp with retVal := -3 })
      | some regs =>
        let regs := update regs .rip req.word2
        .ok ({ s with regs := update s.regs t (some regs) }, { rsp with retVal := 0 })

def dispatchGetThreadStack (req : Request) (rsp : Response) (s : State) :
    Except Stop (State × Response) :=
  let rsp := { rsp with id := req.id }
  match getThreadById s req.word.toUInt16 with
  | some t => .ok (s, { rsp with retVal := s.stack t, retVal2 := s.stackSize t })
  -- -1 is overwritten by 0
  | none => .ok (s, { rsp with retVal := 0 })

def dispatchDbWatchpointInfo (req : Request) (rsp : Response) (s : State) :
    Except Stop (State × Response) :=
  dispatchFound req rsp s fun t rsp =>
    if !s.watchpoint t then .ok (s, { rsp with retVal := -1 })
    else .ok (s, { rsp with retVal := (s.dbData t).address, retVal2 := (s.dbData t).kind.toUInt64 })

def dispatch (req : Request) : Response → State → Except Stop (State × Response) :=
  match req.type with
  | .suspendThread => dispatchSuspendThread wait req
  | .resumeThread => dispatchResumeThread req
  | .singleStepThread => dispatchSingleStepThread wait req
  | .getRegs => dispatchGetRegs req
  | .setIp => dispatchSetIp req
  | .getThreadStack => dispatchGetThreadStack req
  | .wpInfo => dispatchDbWatchpointInfo req

end

/-! ## The frontend -/

inductive Call where
  | suspend (threadId : UInt16)
  | resume (threadId : UInt16)
  | singleStep (threadId : UInt16)
  | getRegs (threadId : UInt16)
  | setIp (threadId : UInt16) (ip : UInt64)
  | getThreadStack (threadId : UInt16)
  | watchpointInfo (threadId : UInt16)
  deriving DecidableEq, Repr

def Call.threadId : Call → UInt16
  | .suspend id => id
  | .resume id => id
  | .singleStep id => id
  | .getRegs id => id
  | .setIp id _ => id
  | .getThreadStack id => id
  | .watchpointInfo id => id

def writeLow (word : UInt64) (v : UInt16) : UInt64 :=
  UInt64.ofNat (word.toNat / 2 ^ 16 * 2 ^ 16 + v.toNat)

def Call.request (slot : Request) : Call → Request
  | .suspend id => { slot with type := .suspendThread, id := 13, word := writeLow slot.word id }
  | .resume id => { slot with type := .resumeThread, id := 13, word := id.toUInt64 }
  -- `db_single_step` uses `u.suspend`
  | .singleStep id =>
      { slot with type := .singleStepThread, id := 13, word := writeLow slot.word id }
  | .getRegs id => { slot with type := .getRegs, id := 13, word := id.toUInt64 }
  | .setIp id ip => { slot with type := .setIp, id := 13, word := id.toUInt64, word2 := ip }
  | .getThreadStack id => { slot with type := .getThreadStack, id := 13, word := id.toUInt64 }
  | .watchpointInfo id => { slot with type := .wpInfo, id := 13, word := id.toUInt64 }

def toInt (v : UInt64) : Int := v.toUInt32.toInt32.toInt

inductive Report where
  | status (ret : Int)
  | regs (regs : Option DbRegs)
  | stack (ret : Int) (stackStart stackSize : UInt64)
  | watchpoint (ret : UInt64) (kind : Int)

def Call.report (rsp : Response) : Call → Report
  | .suspend _ => .status (toInt rsp.retVal)
  | .resume _ => .status (toInt rsp.retVal)
  | .singleStep _ => .status (toInt rsp.retVal)
  | .setIp _ _ => .status (toInt rsp.retVal)
  | .getRegs _ => .regs (if toInt rsp.retVal < 0 then none else some rsp.regs)
  | .getThreadStack _ =>
    if rsp.retVal = -1 then .stack 0 0 0 else .stack 1 rsp.retVal rsp.retVal2
  | .watchpointInfo _ => .watchpoint rsp.retVal (toInt rsp.retVal2)

def Report.Failure : Report → Prop
  | .status ret => ret < 0
  | .regs found => found = none
  | .stack ret _ _ => ret = 0
  | .watchpoint ret _ => ret = -1

def Call.run (wait : State → Tid → Option State) (signedOff : Bool) (slot : Request)
    (rsp : Response) (s : State) (c : Call) : Except Stop (State × Report) :=
  if signedOff ∧ c = .getRegs c.threadId then .ok (s, .regs none)
  else
    (dispatch wait (c.request slot) rsp s).bind fun r =>
      if r.2.id = 13 then .ok (r.1, c.report r.2) else .error .assertion

def Unknown (s : State) (id : UInt16) : Prop := ∀ t ∈ s.threadList, s.id t ≠ id

def RejectedCleanly (wait : State → Tid → Option State) (signedOff : Bool) (slot : Request)
    (rsp : Response) (s : State) (c : Call) : Prop :=
  ∃ report, c.run wait signedOff slot rsp s = .ok (s, report) ∧ report.Failure

/-! ## Unknown threads -/

variable {wait : State → Tid → Option State} {signedOff : Bool} {slot req : Request}
  {rsp r : Response} {s s' : State} {c : Call} {id : UInt16} {report : Report}

theorem toUInt16_writeLow (word : UInt64) (v : UInt16) : (writeLow word v).toUInt16 = v := by
  apply UInt16.toNat.inj
  have hv := v.toNat_lt
  rw [UInt64.toNat_toUInt16, writeLow, UInt64.toNat_ofNat']
  omega

theorem threadId_request (slot : Request) (c : Call) :
    (c.request slot).word.toUInt16 = c.threadId := by
  cases c with
  | suspend id | singleStep id => exact toUInt16_writeLow ..
  | resume id | getRegs id | setIp id ip | getThreadStack id | watchpointInfo id =>
    exact UInt16.toUInt16_toUInt64 id

theorem getThreadById_eq_none_iff : getThreadById s id = none ↔ Unknown s id := by
  simp [getThreadById, Unknown, List.find?_eq_none]

theorem dispatchFound_unknown (rsp : Response)
    (found : Tid → Response → Except Stop (State × Response)) (h : Unknown s req.word.toUInt16) :
    dispatchFound req rsp s found = .ok (s, { rsp with id := req.id, retVal := -1 }) := by
  simp only [dispatchFound, getThreadById_eq_none_iff.mpr h]

theorem clearAllReqDebugSuspend_threadList (l : List Tid) (s : DebugSuspend.State) :
    (l.foldl (DebugSuspend.setReqDebugSuspend · · false) s).threadList = s.threadList := by
  induction l generalizing s with
  | nil => rfl
  | cons t l ih => exact ih (DebugSuspend.setReqDebugSuspend s t false)

theorem dispatchResumeThread_unknown (rsp : Response) (h : Unknown s req.word.toUInt16) :
    dispatchResumeThread req rsp s = .error .nullThread := by
  have hcleared : Unknown { s with toState := DebugSuspend.clearAllReqDebugSuspend s.toState }
      req.word.toUInt16 := by
    intro t ht
    exact h t (clearAllReqDebugSuspend_threadList s.threadList s.toState ▸ ht)
  simp only [dispatchResumeThread, getThreadById_eq_none_iff.mpr hcleared]

theorem dispatchGetThreadStack_unknown (rsp : Response) (h : Unknown s req.word.toUInt16) :
    dispatchGetThreadStack req rsp s = .ok (s, { rsp with id := req.id, retVal := 0 }) := by
  simp only [dispatchGetThreadStack, getThreadById_eq_none_iff.mpr h]

theorem run_eq_report (hsend : ¬ (signedOff ∧ c = .getRegs c.threadId))
    (h : dispatch wait (c.request slot) rsp s = .ok (s', r)) (hid : r.id = 13) :
    c.run wait signedOff slot rsp s = .ok (s', c.report r) := by
  rw [Call.run, if_neg hsend, h]
  exact if_pos hid

theorem dispatch_unknown (h : Unknown s c.threadId) (hresume : c ≠ .resume c.threadId)
    (hstack : c ≠ .getThreadStack c.threadId) :
    dispatch wait (c.request slot) rsp s = .ok (s, { rsp with id := 13, retVal := -1 }) := by
  rw [← threadId_request slot c] at h
  cases c with
  | suspend id =>
    change dispatchSuspendThread wait _ rsp s = _
    exact dispatchFound_unknown rsp _ h
  | resume id => exact absurd rfl hresume
  | singleStep id =>
    change dispatchSingleStepThread wait _ rsp s = _
    exact dispatchFound_unknown rsp _ h
  | getRegs id =>
    change dispatchGetRegs _ rsp s = _
    exact dispatchFound_unknown rsp _ h
  | setIp id ip =>
    change dispatchSetIp _ rsp s = _
    exact dispatchFound_unknown rsp _ h
  | getThreadStack id => exact absurd rfl hstack
  | watchpointInfo id =>
    change dispatchDbWatchpointInfo _ rsp s = _
    exact dispatchFound_unknown rsp _ h

theorem failure_report (h : rsp.retVal = -1) (c : Call) : (c.report rsp).Failure := by
  have hneg : toInt rsp.retVal < 0 := by
    rw [h]
    decide
  cases c with
  | suspend id | resume id | singleStep id | setIp id ip => exact hneg
  | getRegs id => exact if_pos hneg
  | getThreadStack id =>
    rw [Call.report, if_pos h]
    rfl
  | watchpointInfo id => exact h

theorem not_rejected_resume (h : Unknown s id) :
    ¬ RejectedCleanly wait signedOff slot rsp s (.resume id) := by
  rintro ⟨report, hrun, -⟩
  have hword : Unknown s (Call.request slot (.resume id)).word.toUInt16 :=
    (threadId_request slot (.resume id)).symm ▸ h
  have hnull : dispatch wait (Call.request slot (.resume id)) rsp s = .error .nullThread :=
    dispatchResumeThread_unknown rsp hword
  rw [Call.run, if_neg (by simp), hnull] at hrun
  cases hrun

theorem not_rejected_getThreadStack (h : Unknown s id) :
    ¬ RejectedCleanly wait signedOff slot rsp s (.getThreadStack id) := by
  rintro ⟨report, hrun, hfail⟩
  have hword : Unknown s (Call.request slot (.getThreadStack id)).word.toUInt16 :=
    (threadId_request slot (.getThreadStack id)).symm ▸ h
  have hzero : dispatch wait (Call.request slot (.getThreadStack id)) rsp s =
      .ok (s, { rsp with id := 13, retVal := 0 }) := dispatchGetThreadStack_unknown rsp hword
  rw [run_eq_report (by simp) hzero rfl] at hrun
  cases hrun
  cases hfail

/-- An unknown thread is rejected but by the two handlers that do not come to the answer -1. -/
theorem unknown_thread_rejected_iff (wait : State → Tid → Option State) (signedOff : Bool)
    (slot : Request) (rsp : Response) (s : State) (c : Call) (h : Unknown s c.threadId) :
    RejectedCleanly wait signedOff slot rsp s c ↔
      c ≠ .resume c.threadId ∧ c ≠ .getThreadStack c.threadId := by
  constructor
  · intro hclean
    constructor
    · intro hc
      rw [hc] at hclean
      exact not_rejected_resume h hclean
    · intro hc
      rw [hc] at hclean
      exact not_rejected_getThreadStack h hclean
  · rintro ⟨hresume, hstack⟩
    by_cases hoff : signedOff ∧ c = .getRegs c.threadId
    · exact ⟨.regs none, if_pos hoff, rfl⟩
    · exact ⟨_, run_eq_report hoff (dispatch_unknown h hresume hstack) rfl, failure_report rfl c⟩

def oneThread : State where
  thread _ := ⟨true, false, false, false, false, true, false, false, false, noCpu⟩
  readyQueue := [.task 0]
  upcallsActive := false
  stepped _ := false
  watchpoint _ := false
  isAppThread _ := true
  threadList := [.task 0]
  debugger := .idle
  id _ := 5
  needResched _ := true
  preemptCount _ := 1
  regs _ := none
  fpregs _ _ := 0
  ip _ := 0
  sp _ := 0
  stack _ := 0x10000
  stackSize _ := 0x4000
  dbData _ := ⟨0, 0⟩

def usedRequest : Request := ⟨.suspendThread, 13, 5, 0⟩

def usedResponse : Response := ⟨13, 0x10000, 0x4000, ⟨fun _ => 0, fun _ => 0⟩⟩

theorem unknown_oneThread : Unknown oneThread 7 := by
  intro t _ hid
  cases hid

theorem unknown_thread_rejected_suspend :
    Unknown oneThread 7 ∧
      RejectedCleanly (fun _ _ => none) false usedRequest usedResponse oneThread (.suspend 7) :=
  ⟨unknown_oneThread,
    (unknown_thread_rejected_iff _ false usedRequest usedResponse oneThread (.suspend 7)
      unknown_oneThread).mpr (by decide)⟩

/-- The request to resume ends at `NULL`. The thread that is not there has a stack at 0, of the size
that has been in the slot. -/
theorem unknown_thread_taken_for_known :
    Unknown oneThread 7 ∧
      (Call.resume 7).run (fun _ _ => none) false usedRequest usedResponse oneThread =
        .error .nullThread ∧
      (Call.getThreadStack 7).run (fun _ _ => none) false usedRequest usedResponse oneThread =
        .ok (oneThread, .stack 1 0 0x4000) ∧
      ¬ ∀ wait signedOff slot rsp s c, Unknown s c.threadId →
        RejectedCleanly wait signedOff slot rsp s c := by
  refine ⟨unknown_oneThread, rfl, rfl, ?_⟩
  intro hall
  exact not_rejected_getThreadStack unknown_oneThread
    (hall (fun _ _ => none) false usedRequest usedResponse oneThread (.getThreadStack 7)
      unknown_oneThread)

/-! ## Failures of known threads -/

theorem dispatchFound_ok {found : Tid → Response → Except Stop (State × Response)}
    (h : dispatchFound req rsp s found = .ok (s', r)) :
    s' = s ∨ ∃ t, found t { rsp with id := req.id } = .ok (s', r) := by
  unfold dispatchFound at h
  cases hfind : getThreadById s req.word.toUInt16 with
  | none =>
    simp only [hfind] at h
    cases h
    exact .inl rfl
  | some t =>
    simp only [hfind] at h
    exact .inr ⟨t, h⟩

theorem retVal_of_map {x : Except Stop State}
    (h : x.map (fun s => (s, { rsp with retVal := 0 })) = .ok (s', r)) : r.retVal = 0 := by
  cases x with
  | error e => cases h
  | ok a =>
    cases h
    rfl

theorem run_ok (h : c.run wait signedOff slot rsp s = .ok (s', report)) :
    s' = s ∨ ∃ r, dispatch wait (c.request slot) rsp s = .ok (s', r) ∧ report = c.report r := by
  unfold Call.run at h
  split at h
  · cases h
    exact .inl rfl
  · cases hdispatch : dispatch wait (c.request slot) rsp s with
    | error e =>
      rw [hdispatch] at h
      cases h
    | ok r =>
      rw [hdispatch] at h
      simp only [Except.bind] at h
      split at h <;> cases h
      exact .inr ⟨r.2, rfl, rfl⟩

theorem unchanged_of_failure (hresume : c ≠ .resume c.threadId)
    (hrun : c.run wait signedOff slot rsp s = .ok (s', report)) (hfail : report.Failure) :
    s' = s := by
  have hzero : ¬ toInt 0 < 0 := by decide
  rcases run_ok hrun with hsame | ⟨r, hdispatch, hreport⟩
  · exact hsame
  rw [hreport] at hfail
  cases c with
  | suspend id =>
    change dispatchSuspendThread wait _ rsp s = _ at hdispatch
    rcases dispatchFound_ok hdispatch with hsame | ⟨t, hfound⟩
    · exact hsame
    · rw [Call.report, retVal_of_map hfound] at hfail
      exact absurd hfail hzero
  | resume id => exact absurd rfl hresume
  | singleStep id =>
    change dispatchSingleStepThread wait _ rsp s = _ at hdispatch
    rcases dispatchFound_ok hdispatch with hsame | ⟨t, hfound⟩
    · exact hsame
    · split at hfound
      · cases hfound
        rfl
      · rw [Call.report, retVal_of_map hfound] at hfail
        exact absurd hfail hzero
  | getRegs id =>
    change dispatchGetRegs _ rsp s = _ at hdispatch
    rcases dispatchFound_ok hdispatch with hsame | ⟨t, hfound⟩
    · exact hsame
    · split at hfound <;> cases hfound <;> rfl
  | setIp id ip =>
    change dispatchSetIp _ rsp s = _ at hdispatch
    rcases dispatchFound_ok hdispatch with hsame | ⟨t, hfound⟩
    · exact hsame
    · split at hfound
      · cases hfound
        rfl
      · split at hfound
        · cases hfound
          rfl
        · cases hfound
          exact absurd hfail hzero
  | getThreadStack id =>
    change dispatchGetThreadStack _ rsp s = _ at hdispatch
    unfold dispatchGetThreadStack at hdispatch
    split at hdispatch <;> cases hdispatch <;> rfl
  | watchpointInfo id =>
    change dispatchDbWatchpointInfo _ rsp s = _ at hdispatch
    rcases dispatchFound_ok hdispatch with hsame | ⟨t, hfound⟩
    · exact hsame
    · split at hfound <;> cases hfound <;> rfl

end Guk.DebugRequests
