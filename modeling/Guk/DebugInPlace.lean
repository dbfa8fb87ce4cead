import Guk.Overlay

/-!
# The handlers of the debugger in one slot of the ring (`db-back.c`, `dbif.h`)

`get_response` of the backend takes the next response slot, which may be the slot of the
request that is being handled. The fields lie at these offsets:

* request: `type` 0, `id` 2, the words of the union 8, 16 and 24;
* response: `id` 0, `ret_val` 8, `ret_val2` 16, the words of `regs` from 24 on.

What the handlers do with the kernel is left open, but for the order in which it is done.
The kernel does not have the ring page in it: no address of a request points there.
-/
namespace Guk.DebugInPlace

open Overlay Overlay.Prog

variable {κ ε τ ω : Type}

structure Kernel (κ ε τ ω : Type) where
  load (address : Nat) : κ → Except ε (Nat × κ)
  store (address value : Nat) : κ → Except ε (Unit × κ)
  /-- the loops of `dispatch_readbytes` and `dispatch_writebytes`; whether they come to their end -/
  readbytes (address n : Nat) : κ → Except ε (Bool × κ)
  writebytes (address n : Nat) : κ → Except ε (Bool × κ)
  /-- the records of `dispatch_gather_threads`, and their number -/
  gatherThreads : κ → Except ε (Nat × κ)
  /-- `db_exit == DB_EXIT_SET`, which becomes `DB_EXIT_DONE` -/
  exitSet : κ → Except ε (Bool × κ)
  exitFin : κ → Except ε (Unit × κ)
  getThreadById (id : Nat) : κ → Except ε (Option τ × κ)
  suspendThread (t : τ) : κ → Except ε (Unit × κ)
  singleStepThread (t : τ) : κ → Except ε (Unit × κ)
  clearAllReqDebugSuspend : κ → Except ε (Unit × κ)
  /-- the loops of `dispatch_suspend_all` and `dispatch_resume_all` -/
  suspendAll : κ → Except ε (Unit × κ)
  resumeAll : κ → Except ε (Unit × κ)
  /-- `is_runnable(thread) || is_running(thread)` -/
  active (t : τ) : κ → Except ε (Bool × κ)
  /-- `!is_debug_suspend(thread) || is_runnable(thread) || is_running(thread)`, also of `NULL` -/
  notSuspended (t : Option τ) : κ → Except ε (Bool × κ)
  /-- `clear_debug_suspend` and `db_wake` -/
  release (t : Option τ) : κ → Except ε (Unit × κ)
  /-- the words of `struct db_regs` -/
  regs (t : τ) : κ → Except ε (List Nat × κ)
  regsNull (t : τ) : κ → Except ε (Bool × κ)
  setRip (t : τ) (ip : Nat) : κ → Except ε (Unit × κ)
  stack (t : τ) : κ → Except ε ((Nat × Nat) × κ)
  /-- the old level -/
  setDebugLevel (level : Nat) : κ → Except ε (Nat × κ)
  activateWatchpoint (address size kind : Nat) : κ → Except ε (Unit × κ)
  getWatchpoint (address : Nat) : κ → Except ε (Option ω × κ)
  address (wp : ω) : κ → Except ε (Nat × κ)
  listDel (wp : ω) : κ → Except ε (Unit × κ)
  deactivateWatchpoint (wp : ω) : κ → Except ε (Unit × κ)
  /-- address and kind of the watchpoint that the thread is at -/
  watchpoint (t : τ) : κ → Except ε (Option (Nat × Nat) × κ)
  bug : κ → Except ε (Unit × κ)

def copyId (next : Prog κ ε) : Prog κ ε := read 2 2 fun id => write 0 2 id next

def retVal (v : Nat) (next : Prog κ ε) : Prog κ ε := write 8 8 v next

def retVal2 (v : Nat) (next : Prog κ ε) : Prog κ ε := write 16 8 v next

def neg (n : Nat) : Nat := 2 ^ 64 - n

section

variable (f : Kernel κ ε τ ω)

def dispatchReadU64 : Prog κ ε :=
  read 8 8 fun pointer =>
  copyId <|
  call (f.load pointer) fun v =>
  retVal v done

def dispatchWriteU64 : Prog κ ε :=
  read 8 8 fun pointer =>
  read 16 8 fun value =>
  call (f.store pointer value) fun _ =>
  copyId <|
  retVal 0 done

def dispatchBytes (loop : Nat → Nat → κ → Except ε (Bool × κ)) : Prog κ ε :=
  read 8 8 fun pointer =>
  read 16 8 fun n =>
  copyId <|
  retVal (n % 2 ^ 16) <|
  call (loop pointer (n % 2 ^ 16)) fun ok =>
  if ok then done else retVal 0 done

def dispatchGatherThreads : Prog κ ε :=
  call f.gatherThreads fun numThreads =>
  copyId <|
  call f.exitSet fun exit =>
  retVal (if exit then neg 1 else numThreads) done

def dispatchResumeAll : Prog κ ε :=
  copyId <|
  retVal 0 <|
  call f.clearAllReqDebugSuspend fun _ =>
  call f.resumeAll fun _ => done

def dispatchSuspendAll : Prog κ ε :=
  copyId <|
  retVal 0 <|
  call f.suspendAll fun _ => done

def dispatchThread (width : Nat) (found : τ → Prog κ ε) : Prog κ ε :=
  read 8 width fun threadId =>
  call (f.getThreadById (threadId % 2 ^ 16)) fun thread =>
  copyId <|
  match thread with
  | none => retVal (neg 1) done
  | some t => found t

def dispatchSuspendThread : Prog κ ε :=
  dispatchThread f 2 fun t =>
  call (f.suspendThread t) fun _ =>
  retVal 0 done

def dispatchSingleStepThread : Prog κ ε :=
  dispatchThread f 8 fun t =>
  call (f.notSuspended (some t)) fun no =>
  if no then retVal (neg 2) done
  else
    call (f.singleStepThread t) fun _ =>
    retVal 0 done

def dispatchResumeThread : Prog κ ε :=
  read 8 8 fun threadId =>
  call f.clearAllReqDebugSuspend fun _ =>
  call (f.getThreadById (threadId % 2 ^ 16)) fun thread =>
  copyId <|
  -- the handler goes on with `NULL`
  let go := call (f.notSuspended thread) fun no =>
    if no then retVal (neg 2) done
    else
      call (f.release thread) fun _ =>
      retVal 0 done
  match thread with
  | none => retVal (neg 1) go
  | some _ => go

def dispatchGetRegs : Prog κ ε :=
  dispatchThread f 8 fun t =>
  call (f.active t) fun active =>
  if active then retVal (neg 2) done
  else
    retVal 0 <|
    call (f.regs t) fun words =>
    writeWords done 24 words

def dispatchSetIp : Prog κ ε :=
  dispatchThread f 8 fun t =>
  call (f.active t) fun active =>
  if active then retVal (neg 2) done
  else
    call (f.regsNull t) fun null =>
    if null then retVal (neg 3) done
    else
      retVal 0 <|
      read 16 8 fun ip =>
      call (f.setRip t ip) fun _ => done

def dispatchGetThreadStack : Prog κ ε :=
  read 8 8 fun threadId =>
  call (f.getThreadById (threadId % 2 ^ 16)) fun thread =>
  copyId <|
  match thread with
  | some t =>
    call (f.stack t) fun stack =>
    retVal stack.1 <|
    retVal2 stack.2 done
  | none => retVal (neg 1) <| retVal 0 done

def dispatchAppSpecific1 : Prog κ ε := retVal (neg 1) <| copyId done

def dispatchDbDebug : Prog κ ε :=
  read 8 8 fun level =>
  copyId <|
  call (f.setDebugLevel (level % 2 ^ 32)) fun old =>
  retVal old done

def dispatchDbSignoff : Prog κ ε := call f.exitFin fun _ => done

def dispatchDbActivateWatchpoint : Prog κ ε :=
  copyId <|
  read 8 8 fun address =>
  read 16 8 fun size =>
  read 24 2 fun kind =>
  call (f.activateWatchpoint address size kind) fun _ =>
  retVal 1 done

def dispatchDbDeactivateWatchpoint : Prog κ ε :=
  copyId <|
  read 8 8 fun address =>
  call (f.getWatchpoint address) fun wp =>
  match wp with
  | none => retVal 0 done
  | some wp =>
    call (f.address wp) fun found =>
    read 8 8 fun address =>
    if found = address then
      call (f.listDel wp) fun _ =>
      read 8 8 fun address =>
      call (f.getWatchpoint address) fun wpp =>
      match wpp with
      | none => call (f.deactivateWatchpoint wp) fun _ => retVal 1 done
      | some _ => retVal 1 done
    else retVal 0 done

def dispatchDbWatchpointInfo : Prog κ ε :=
  copyId <|
  read 8 8 fun threadId =>
  call (f.getThreadById (threadId % 2 ^ 16)) fun thread =>
  match thread with
  | none => retVal (neg 1) done
  | some t =>
    call (f.watchpoint t) fun wp =>
    match wp with
    | none => retVal (neg 1) done
    | some (address, kind) => retVal address <| retVal2 kind done

def dispatch : Prog κ ε :=
  read 0 2 fun type =>
  match type with
  | 1 => dispatchReadU64 f
  | 2 => dispatchWriteU64 f
  | 3 => dispatchGatherThreads f
  | 4 => dispatchSuspendThread f
  | 5 => dispatchResumeThread f
  | 6 => dispatchSingleStepThread f
  | 7 => dispatchGetRegs f
  | 8 => dispatchSetIp f
  | 9 => dispatchGetThreadStack f
  | 10 => dispatchAppSpecific1
  | 11 => dispatchBytes f.readbytes
  | 12 => dispatchBytes f.writebytes
  | 13 => dispatchDbDebug f
  | 14 => dispatchDbSignoff f
  | 15 => dispatchSuspendAll f
  | 16 => dispatchResumeAll f
  | 17 => dispatchDbActivateWatchpoint f
  | 18 => dispatchDbDeactivateWatchpoint f
  | 19 => dispatchDbWatchpointInfo f
  | _ => call f.bug fun _ => done

end

/-! ## The order of the handlers

What has been written lies below what is still to be read.
-/

variable {next : Prog κ ε} {b : Nat}

theorem ordered_copyId (hb : b ≤ 2) (h : next.Ordered (· < 2)) : (copyId next).Ordered (· < b) :=
  ordered_read hb fun _ => ordered_write (by omega) (Nat.le_refl _) h

theorem ordered_retVal (hb : b ≤ 16) (h : next.Ordered (· < 16)) (v : Nat) :
    (retVal v next).Ordered (· < b) :=
  ordered_write hb (Nat.le_refl _) h

section

variable (f : Kernel κ ε τ ω)

theorem ordered_dispatchThread {found : τ → Prog κ ε} (h : ∀ t, (found t).Ordered (· < 2))
    (width : Nat) :
    (dispatchThread f width found).Ordered (· < 0) := by
  refine ordered_read (Nat.zero_le _) fun _ thread => ordered_copyId (Nat.zero_le _) ?_
  cases thread with
  | none => trivial
  | some t => exact h t

theorem ordered_dispatchBytes (loop : Nat → Nat → κ → Except ε (Bool × κ)) :
    (dispatchBytes loop).Ordered (· < 0) := by
  refine ordered_read (Nat.zero_le _) fun _ => ordered_read (Nat.zero_le _) fun _ => ?_
  refine ordered_copyId (Nat.zero_le _) ?_
  intro ok
  exact ordered_ite trivial trivial

theorem ordered_dispatchResumeThread : (dispatchResumeThread f).Ordered (· < 0) := by
  refine ordered_read (Nat.zero_le _) fun _ _ thread => ordered_copyId (Nat.zero_le _) ?_
  cases thread with
  | none =>
    intro no
    exact ordered_ite trivial fun _ => trivial
  | some t =>
    intro no
    exact ordered_ite trivial fun _ => trivial

theorem ordered_dispatchSuspendThread : (dispatchSuspendThread f).Ordered (· < 0) := by
  refine ordered_dispatchThread f ?_ 2
  intro t r
  trivial

theorem ordered_dispatchSingleStepThread : (dispatchSingleStepThread f).Ordered (· < 0) := by
  refine ordered_dispatchThread f ?_ 8
  intro t no
  exact ordered_ite trivial fun _ => trivial

theorem ordered_dispatchGetRegs : (dispatchGetRegs f).Ordered (· < 0) := by
  refine ordered_dispatchThread f ?_ 8
  intro t active
  exact ordered_ite trivial fun words => ordered_writeWords 24 words

theorem ordered_dispatchSetIp : (dispatchSetIp f).Ordered (· < 0) := by
  refine ordered_dispatchThread f ?_ 8
  intro t active
  refine ordered_ite trivial ?_
  intro null
  refine ordered_ite trivial ?_
  refine ordered_retVal (by decide) (ordered_read (Nat.le_refl _) ?_) 0
  intro ip r
  trivial

theorem ordered_dispatchGetThreadStack : (dispatchGetThreadStack f).Ordered (· < 0) := by
  refine ordered_read (Nat.zero_le _) fun _ thread => ordered_copyId (Nat.zero_le _) ?_
  cases thread with
  | none => trivial
  | some t => exact fun _ => trivial

theorem ordered_dispatchDbActivateWatchpoint :
    (dispatchDbActivateWatchpoint f).Ordered (· < 0) := by
  refine ordered_copyId (Nat.zero_le _) (ordered_read (by decide) fun _ => ?_)
  exact ordered_read (by decide) fun _ => ordered_read (by decide) fun _ _ => trivial

theorem ordered_dispatchDbDeactivateWatchpoint :
    (dispatchDbDeactivateWatchpoint f).Ordered (· < 0) := by
  refine ordered_copyId (Nat.zero_le _) (ordered_read (by decide) fun _ wp => ?_)
  cases wp with
  | none => trivial
  | some wp =>
    refine fun _ => ordered_read (by decide) fun _ => ordered_ite (fun _ => ?_) trivial
    refine ordered_read (by decide) fun _ wpp => ?_
    cases wpp with
    | none => exact fun _ => trivial
    | some wpp => trivial

theorem ordered_dispatchDbWatchpointInfo : (dispatchDbWatchpointInfo f).Ordered (· < 0) := by
  refine ordered_copyId (Nat.zero_le _) (ordered_read (by decide) fun _ thread => ?_)
  cases thread with
  | none => trivial
  | some t =>
    intro wp
    cases wp <;> trivial

/-- It writes the result before it has read the id, which is in other bytes. -/
theorem ordered_dispatchAppSpecific1 : (dispatchAppSpecific1 : Prog κ ε).Ordered (· < 0) := by
  refine ⟨fun i _ hi => ?_, fun _ => trivial⟩
  simp only
  omega

theorem ordered_dispatch : (dispatch f).Ordered (· < 0) := by
  refine ordered_read (Nat.le_refl _) fun type => ?_
  split
  · exact ordered_read (Nat.zero_le _) fun _ => ordered_copyId (Nat.zero_le _) fun _ => trivial
  · exact ordered_read (Nat.zero_le _) fun _ => ordered_read (Nat.zero_le _) fun _ _ =>
      ordered_copyId (Nat.zero_le _) trivial
  · exact fun _ => ordered_copyId (Nat.zero_le _) fun _ => trivial
  · exact ordered_dispatchSuspendThread f
  · exact ordered_dispatchResumeThread f
  · exact ordered_dispatchSingleStepThread f
  · exact ordered_dispatchGetRegs f
  · exact ordered_dispatchSetIp f
  · exact ordered_dispatchGetThreadStack f
  · exact ordered_dispatchAppSpecific1
  · exact ordered_dispatchBytes f.readbytes
  · exact ordered_dispatchBytes f.writebytes
  · exact ordered_read (Nat.zero_le _) fun _ => ordered_copyId (Nat.zero_le _) fun _ => trivial
  · exact fun _ => trivial
  · exact ordered_copyId (Nat.zero_le _) fun _ => trivial
  · exact ordered_copyId (Nat.zero_le _) fun _ _ => trivial
  · exact ordered_dispatchDbActivateWatchpoint f
  · exact ordered_dispatchDbDeactivateWatchpoint f
  · exact ordered_dispatchDbWatchpointInfo f
  · exact fun _ => trivial

end

/-- Whether the response is written over the request or the request is read from a copy, the slot
and the kernel are the same in the end. -/
theorem dispatch_in_place_eq (f : Kernel κ ε τ ω) (slot : Bytes) (k : κ) :
    (dispatch f).inPlace slot k = (dispatch f).apart slot slot k :=
  inPlace_eq_apart _ k (ordered_dispatch f) fun _ _ => rfl

end Guk.DebugInPlace
