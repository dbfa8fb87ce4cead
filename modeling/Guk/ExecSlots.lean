import Guk.ExecStatusInv

/-!
# The slots of the exec backend (`exec-backend.c`)

A request takes a slot of `active_requests` before it is tried, and the reaper
gives the slot back when the process has been waited for and all three streams
are closed. The machine is that of `Guk.ExecStatus`; what an exec request does is
given by the calls of `do_exec_request` here, and the state keeps a record of
what has happened to each request.
-/
namespace Guk.ExecSlots

open Runs Function
open ExecStatus hiding Label step Initial Inv inv_initial inv_step
open CString (text)

/-! ## `do_exec_request` -/

/-- What the host's calls give: the error of a call that fails. `garbage` is what `errnum` holds as
long as nothing is stored in it, `afterPrintf` what `errno` is when the child has reported that it
cannot change its directory. -/
structure Host where
  garbage : Int
  pipe : Option Int
  fork : Except Int Int
  read : Option Int
  chdir : Option Int
  afterPrintf : Int
  fcntl : Option Int
  execvp : Option Int
  stdio : Int → Int

def Host.childErrnum (h : Host) : Option Int :=
  match h.chdir with
  | some _ => some h.afterPrintf
  | none =>
    match h.fcntl with
    | some errno => some errno
    | none => h.execvp

def doExecRequest (h : Host) : Outcome :=
  match h.pipe with
  | some _ => ⟨some h.garbage, none, h.stdio, []⟩
  | none =>
    match h.fork with
    | .error errno => ⟨some errno, none, h.stdio, []⟩
    | .ok pid =>
      match h.read with
      | some errno => ⟨some errno, some pid, h.stdio, []⟩
      | none => ⟨h.childErrnum, some pid, h.stdio, []⟩

def Host.failed (h : Host) : Option Int :=
  match h.pipe with
  | some errno => some errno
  | none =>
    match h.fork with
    | .error errno => some errno
    | .ok _ =>
      match h.read with
      | some errno => some errno
      | none =>
        match h.chdir with
        | some errno => some errno
        | none =>
          match h.fcntl with
          | some errno => some errno
          | none => h.execvp

/-! ## The machine -/

structure Record where
  /-- `active_requests` when the main loop took its last event -/
  before : Nat → Option Nat
  /-- the calls of the exec request -/
  host : Nat → Option Host
  /-- the process was waited for -/
  waited : Nat → Bool
  /-- a stream was closed -/
  closed : Nat → Int → Bool

structure State where
  base : ExecStatus.State
  record : Record

inductive Label where
  | exec (h : Host)
  | other (l : ExecStatus.Label)

def answersExec (m : Main) : ExecStatus.Label → Bool
  | .answer _ =>
    match m with
    | .serving .exec _ => true
    | _ => false
  | _ => false

def recordExec (p : Record) (r : Nat) (h : Host) : Record :=
  { p with host := update p.host r (some h) }

def recordOther (p : Record) (s : ExecStatus.State) : ExecStatus.Label → Record
  | .take _ => { p with before := s.activeRequests }
  | .answer _ =>
    match s.main with
    | .serving .close r =>
      { p with
        closed := update p.closed r.request
          (update (p.closed r.request) (fdFromRequestId r.requestId) true) }
    | _ => p
  | .threadExit n =>
    match s.thread n with
    | .exiting r => { p with waited := update p.waited r true }
    | _ => p
  | _ => p

def step (s : State) : Label → Option State
  | .exec h =>
    match s.base.main with
    | .serving .exec r =>
      some ⟨answerRequest s.base .exec r (doExecRequest h), recordExec s.record r.request h⟩
    | _ => none
  | .other l =>
    -- an exec request is answered by `do_exec_request`
    if answersExec s.base.main l then none
    else (ExecStatus.step s.base l).map fun u => ⟨u, recordOther s.record s.base l⟩

structure Initial (s : State) : Prop where
  base : ExecStatus.Initial s.base
  host : ∀ r, s.record.host r = none
  waited : ∀ r, s.record.waited r = false
  closed : ∀ r fd, s.record.closed r fd = false

def Record.Succeeded (p : Record) (r : Nat) : Prop := ∃ h, p.host r = some h ∧ h.failed = none

def Record.Over (p : Record) (r : Nat) : Prop :=
  p.waited r = true ∧ p.closed r 0 = true ∧ p.closed r 1 = true ∧ p.closed r 2 = true

def ExecReply (s : State) (rep : Reply) : Prop :=
  s.base.main = .replying rep ∧ rep.kind = text "exec"

structure SlotsRight (s : State) : Prop where
  /-- a request that reports a negative status has left the table as it was -/
  negative : ∀ rep, ExecReply s rep → (s.base.request rep.request).status < 0 →
    s.base.activeRequests = s.record.before
  /-- the status of a failed request is the error of the call that failed -/
  errno : ∀ rep h errno, ExecReply s rep → s.record.host rep.request = some h →
    h.failed = some errno → (s.base.request rep.request).status = -errno
  /-- the next reap frees the slot of a request that is over -/
  freed : ∀ i r, s.base.activeRequests i = some r → s.record.Over r →
    (reapRequest s.base i).activeRequests i = none
  /-- only successful requests that are not reaped can take all slots -/
  found : s.base.main = .idle → getRequestSlot s.base = none →
    ∀ i, i < maxActiveRequests → ∃ r, s.base.activeRequests i = some r ∧ s.record.Succeeded r

def callsSucceed (_ : State) : Label → Prop
  | .exec h => h.failed = none
  | .other _ => True

/-! ## Which requests a step touches -/

def threadRequest : Thread → Option Nat
  | .absent => none
  | .waiting r => some r
  | .replying r => some r
  | .exiting r => some r

def MainFits (s : ExecStatus.State) (p : Record) : Prop :=
  match s.main with
  | .idle => True
  | .reaping _ => True
  | .serving w rep =>
    match w with
    | .exec => p.host rep.request = none ∧ rep.request < s.requests
    | .tooMany => p.host rep.request = none ∧ s.activeRequests = p.before
    | .badRequest => p.host rep.request = none ∧ rep.kind ≠ text "exec"
    | _ => p.Succeeded rep.request ∧ rep.kind ≠ text "exec"
  | .bytes rep _ => rep.kind ≠ text "exec"
  | .replying rep => rep.kind = text "exec" →
    s.activeRequests = p.before ∨
      (s.request rep.request).status = 0 ∧ ∀ n, threadRequest (s.thread n) ≠ some rep.request

structure Inv (s : ExecStatus.State) (p : Record) : Prop where
  succeeded : ∀ r h, p.host r = some h → h.failed = none
  fresh : ∀ r, s.requests ≤ r → p.host r = none
  table : ∀ i r, s.activeRequests i = some r →
    p.Succeeded r ∨ ∃ rep, s.main = .serving .exec rep ∧ rep.request = r
  threads : ∀ n r, threadRequest (s.thread n) = some r → p.Succeeded r
  waited : ∀ r, p.waited r = true → p.Succeeded r ∧ (s.request r).pid = -1
  closed : ∀ r fd, 0 ≤ fd → p.closed r fd = true → p.Succeeded r ∧ (s.request r).stdio fd = -1
  main : MainFits s p

structure Kept (q q' : Request) : Prop where
  pid : q'.pid = q.pid ∨ q'.pid = -1
  stdio : ∀ fd, q'.stdio fd = q.stdio fd ∨ q'.stdio fd = -1

variable {s u : ExecStatus.State} {p : Record} {n r i : Nat} {w : Work} {rep : Reply} {q : Request}
  {b : Nat → Option Nat}

theorem Kept.refl (q : Request) : Kept q q := ⟨.inl rfl, fun _ => .inl rfl⟩

theorem Kept.update (h : Kept (s.request r) q) (r' : Nat) :
    Kept (s.request r') (update s.request r q r') := by
  rw [update_apply]
  split
  · rename_i heq
    rw [heq]
    exact h
  · exact .refl _

theorem inv_initial {s : State} (h : Initial s) : Inv s.base s.record := by
  constructor
  · simp [h.host]
  · simp [h.host]
  · simp [h.base.activeRequests]
  · simp [h.base.thread, threadRequest]
  · simp [h.waited]
  · simp [h.closed]
  · rw [MainFits, h.base.main]
    trivial

theorem inv_change (h : Inv s p) (hreq : s.requests ≤ u.requests)
    (hkept : ∀ r, p.Succeeded r → Kept (s.request r) (u.request r))
    (htable : ∀ i r, u.activeRequests i = some r →
      p.Succeeded r ∨ ∃ rep, u.main = .serving .exec rep ∧ rep.request = r)
    (hthreads : ∀ n r, threadRequest (u.thread n) = some r → p.Succeeded r)
    (hmain : MainFits u { p with before := b }) : Inv u { p with before := b } := by
  refine ⟨h.succeeded, fun r hr => h.fresh r (le_trans hreq hr), htable, hthreads, ?_, ?_, hmain⟩
  · intro r hr
    obtain ⟨hsucc, hpid⟩ := h.waited r hr
    exact ⟨hsucc, (hkept r hsucc).pid.elim (·.trans hpid) id⟩
  · intro r fd hfd hr
    obtain ⟨hsucc, hstdio⟩ := h.closed r fd hfd hr
    exact ⟨hsucc, ((hkept r hsucc).stdio fd).elim (·.trans hstdio) id⟩

/-! ## The main loop takes an event -/

theorem succeeded_of_active (h : Inv s p) (hexec : ∀ rep, s.main ≠ .serving .exec rep) {r : Nat}
    (hi : s.activeRequests i = some r) : p.Succeeded r := by
  rcases h.table i r hi with hsucc | ⟨rep, hm, -⟩
  · exact hsucc
  · exact absurd hm (hexec rep)

theorem inv_main {m : Main} (h : Inv s p) (hexec : ∀ rep, s.main ≠ .serving .exec rep)
    (hmain : MainFits { s with main := m } { p with before := b }) :
    Inv { s with main := m } { p with before := b } :=
  inv_change h le_rfl (fun _ _ => .refl _) (fun _ _ hi => .inl (succeeded_of_active h hexec hi))
    h.threads hmain

theorem inv_allocate {active : Nat → Option Nat} (h : Inv s p)
    (htable : ∀ i r, active i = some r → p.Succeeded r ∨ w = .exec ∧ rep.request = r)
    (hmain : MainFits (allocate { s with activeRequests := active } q w rep) { p with before := b })
    :
    Inv (allocate { s with activeRequests := active } q w rep) { p with before := b } := by
  refine inv_change h (Nat.le_succ _) ?_ ?_ h.threads hmain
  · rintro r ⟨host, hhost, -⟩
    have hne : r ≠ s.requests := by
      rintro rfl
      rw [h.fresh _ le_rfl] at hhost
      cases hhost
    simp only [allocate, update_of_ne hne]
    exact .refl _
  · intro i r hi
    rcases htable i r hi with hsucc | ⟨rfl, hr⟩
    · exact .inl hsucc
    · exact .inr ⟨rep, rfl, hr⟩

section Taken

variable (h : Inv s p) (hidle : s.main = .idle)

include h hidle

theorem succeeded_of_idle {r : Nat} (hi : s.activeRequests i = some r) : p.Succeeded r :=
  succeeded_of_active h (by simp [hidle]) hi

theorem inv_checkFindRequest {domId requestId : Int} {rkind : List UInt8} {memory : Request}
    {handle : Nat → ExecStatus.State} (hkind : rkind ≠ text "exec")
    (hfound : ∀ r, p.Succeeded r → Inv (handle r) { p with before := s.activeRequests }) :
    Inv (checkFindRequest s domId requestId rkind n memory handle)
      { p with before := s.activeRequests } := by
  unfold checkFindRequest
  split
  · exact inv_allocate (s := s) h (fun _ _ hi => .inl (succeeded_of_idle h hidle hi))
      ⟨h.fresh _ le_rfl, hkind⟩
  · rename_i r hr
    obtain ⟨⟨i, hi⟩, -⟩ := findRequest_some hr
    exact hfound r (succeeded_of_idle h hidle hi)

theorem inv_handleExec (vars : Vars) (memory : Request) :
    Inv (handleExec s vars n memory) { p with before := s.activeRequests } := by
  have hnew := h.fresh s.requests le_rfl
  unfold handleExec
  split
  · exact inv_allocate (s := s) h (fun _ _ hi => .inl (succeeded_of_idle h hidle hi)) ⟨hnew, rfl⟩
  · refine inv_allocate h ?_ ⟨hnew, Nat.lt_succ_self _⟩
    intro i r hi
    rw [update_apply] at hi
    split at hi
    · cases hi
      exact .inr ⟨rfl, rfl⟩
    · exact .inl (succeeded_of_idle h hidle hi)

theorem inv_waiting (hr : p.Succeeded r) :
    Inv { s with thread := update s.thread n (.waiting r), main := .reaping 0 }
      { p with before := s.activeRequests } := by
  refine inv_change h le_rfl (fun _ _ => .refl _)
    (fun _ _ hi => .inl (succeeded_of_idle h hidle hi)) ?_ trivial
  intro m r' hm
  simp only [update_apply] at hm
  split at hm
  · cases hm
    exact hr
  · exact h.threads m r' hm

theorem inv_handleConnection (vars : Vars) (memory : Request) :
    Inv (handleConnection s vars n memory) { p with before := s.activeRequests } := by
  have hmain {m : Main} (hm : MainFits { s with main := m } { p with before := s.activeRequests }) :
      Inv { s with main := m } { p with before := s.activeRequests } :=
        inv_main h (by simp [hidle]) hm
  have hkinds : text "read" ≠ text "exec" ∧ text "write" ≠ text "exec" ∧
      text "close" ≠ text "exec" := by
    decide
  unfold handleConnection
  split
  · exact inv_handleExec h hidle vars memory
  · rename_i hexec
    split
    · exact inv_checkFindRequest h hidle hexec fun r hr => inv_waiting h hidle hr
    · split
      · exact inv_checkFindRequest h hidle hexec fun r hr => hmain ⟨hr, hkinds.1⟩
      · split
        · exact inv_checkFindRequest h hidle hexec fun r hr => hmain ⟨hr, hkinds.2.1⟩
        · split
          · exact inv_checkFindRequest h hidle hexec fun r hr => hmain ⟨hr, hkinds.2.2⟩
          · split
            · exact inv_checkFindRequest h hidle hexec fun r hr => hmain ⟨hr, hkinds.2.2⟩
            · exact hmain trivial

theorem inv_takeEvent (path : List UInt8) (memory : Request) :
    Inv (takeEvent s path n memory) { p with before := s.activeRequests } := by
  unfold takeEvent
  split
  · exact { h with main := by rw [MainFits, hidle]; trivial }
  · have hvars : Inv { s with vars := scanRequestPath path { s.vars with domId := -1 } } p :=
      { h with }
    simp only
    split
    · exact inv_handleConnection hvars hidle _ memory
    · exact inv_main (m := .reaping 0) hvars (by simp [hidle]) trivial

end Taken

/-! ## The main loop answers -/

theorem status_of_succeeded {h : Host} (hok : h.failed = none) :
    Work.status (doExecRequest h) .exec = 0 := by
  unfold Host.failed at hok
  split at hok
  · cases hok
  · rename_i hpipe
    split at hok
    · cases hok
    · rename_i hfork
      split at hok
      · cases hok
      · rename_i hread
        split at hok
        · cases hok
        · rename_i hchdir
          split at hok
          · cases hok
          · rename_i hfcntl
            simp only [Work.status, doExecRequest, hpipe, hfork, hread, Host.childErrnum, hchdir,
              hfcntl, hok]

theorem inv_exec (h : Inv s p) (hmain : s.main = .serving .exec rep) {host : Host}
    (hok : host.failed = none) :
    Inv (answerRequest s .exec rep (doExecRequest host)) (recordExec p rep.request host) := by
  have hfits := h.main
  rw [MainFits, hmain] at hfits
  obtain ⟨hnone, hlt⟩ := hfits
  have hkeep : ∀ r, p.Succeeded r → r ≠ rep.request := by
    rintro r ⟨_, hr, -⟩ rfl
    rw [hnone] at hr
    cases hr
  have hhost (r : Nat) (hne : r ≠ rep.request) :
      (recordExec p rep.request host).host r = p.host r :=
    update_of_ne hne ..
  have hself : (recordExec p rep.request host).host rep.request = some host := update_self ..
  have hsucc : ∀ r, p.Succeeded r → (recordExec p rep.request host).Succeeded r := by
    intro r hr
    rw [Record.Succeeded, hhost r (hkeep r hr)]
    exact hr
  have hrequest (r : Nat) (hr : p.Succeeded r) :
      (answerRequest s .exec rep (doExecRequest host)).request r = s.request r :=
    update_of_ne (hkeep r hr) ..
  constructor
  · intro r h' hr
    by_cases heq : r = rep.request
    · rw [heq, hself] at hr
      cases hr
      exact hok
    · rw [hhost r heq] at hr
      exact h.succeeded r h' hr
  · intro r hr
    rw [hhost r (by rintro rfl; exact absurd hlt (not_lt.mpr hr))]
    exact h.fresh r hr
  · intro i r hr
    left
    rcases h.table i r hr with hr | ⟨rep', hm, rfl⟩
    · exact hsucc r hr
    · rw [hmain] at hm
      cases hm
      exact ⟨host, hself, hok⟩
  · intro n r hr
    exact hsucc r (h.threads n r hr)
  · intro r hr
    obtain ⟨hr, hpid⟩ := h.waited r hr
    rw [hrequest r hr]
    exact ⟨hsucc r hr, hpid⟩
  · intro r fd hfd hr
    obtain ⟨hr, hstdio⟩ := h.closed r fd hfd hr
    rw [hrequest r hr]
    exact ⟨hsucc r hr, hstdio⟩
  · refine fun _ => .inr ⟨?_, fun n hn => hkeep _ (h.threads n _ hn) rfl⟩
    exact (congrArg Request.status (update_self ..)).trans (status_of_succeeded hok)

theorem kept_effect (o : Outcome) (requestId : Int) (q : Request) (hexec : w ≠ .exec) :
    Kept q (w.effect o requestId q) := by
  cases w with
  | exec => exact absurd rfl hexec
  | close =>
    simp only [Work.effect, closeFd]
    split
    · exact ⟨.inl rfl, fun _ => .inl rfl⟩
    · split
      · exact ⟨.inr rfl, fun _ => .inl rfl⟩
      · refine ⟨.inl rfl, fun fd => ?_⟩
        by_cases hfd : fd = fdFromRequestId requestId
        · rw [hfd]
          exact .inr (update_self ..)
        · exact .inl (update_of_ne hfd ..)
  | _ => exact .refl _

theorem effect_close (o : Outcome) (requestId : Int) (q : Request)
    (hfd : 0 ≤ fdFromRequestId requestId) :
    (Work.effect o requestId q .close).stdio (fdFromRequestId requestId) = -1 := by
  simp only [Work.effect, closeFd]
  rw [if_neg (by omega), if_neg (by omega)]
  exact update_self ..

theorem inv_answer (h : Inv s p) (hmain : s.main = .serving w rep) (hexec : w ≠ .exec)
    (o : Outcome) :
    Inv (answerRequest s w rep o) p := by
  have hfits := h.main
  rw [MainFits, hmain] at hfits
  obtain ⟨hpid, hstdio⟩ := kept_effect o rep.requestId (s.request rep.request) hexec
  have hkept : Kept (s.request rep.request)
      { w.effect o rep.requestId (s.request rep.request) with status := w.status o } :=
        ⟨hpid, hstdio⟩
  refine inv_change (b := p.before) h le_rfl (fun r _ => hkept.update r) ?_ h.threads ?_
  · intro i r hi
    exact .inl (succeeded_of_active h (by simp [hmain, hexec]) hi)
  · by_cases hread : w = .read ∧ o.errnum = none
    · have hm : (answerRequest s w rep o).main = .bytes rep o.buffer := if_pos hread
      obtain ⟨rfl, -⟩ := hread
      rw [MainFits, hm]
      exact hfits.2
    · have hm : (answerRequest s w rep o).main = .replying rep := if_neg hread
      rw [MainFits, hm]
      intro hkind
      cases w with
      | exec => exact absurd rfl hexec
      | tooMany => exact .inl hfits.2
      | _ => exact absurd hkind hfits.2

theorem inv_closed {fd : Int} (h : Inv s p) (hr : p.Succeeded r)
    (hfd : 0 ≤ fd → (s.request r).stdio fd = -1) :
    Inv s { p with closed := update p.closed r (update (p.closed r) fd true) } := by
  refine { h with closed := ?_ }
  intro r' fd' hfd' hclosed
  simp only [update_apply] at hclosed
  split at hclosed
  · rename_i heq
    rw [heq]
    rw [update_apply] at hclosed
    split at hclosed
    · rename_i hfd''
      exact ⟨hr, hfd'' ▸ hfd (hfd'' ▸ hfd')⟩
    · exact h.closed r fd' hfd' hclosed
  · exact h.closed r' fd' hfd' hclosed

/-! ## The other steps -/

theorem inv_thread {t : Thread} (h : Inv s p) (hthread : threadRequest (s.thread n) = some r)
    (hth : t = .absent ∨ threadRequest t = some r) (hq : Kept (s.request r) q) :
    Inv { s with request := update s.request r q, thread := update s.thread n t } p := by
  have hthreads : ∀ m r', threadRequest (update s.thread n t m) = some r' →
      threadRequest (s.thread m) = some r' := by
    intro m r' hm
    rw [update_apply] at hm
    split at hm
    · rename_i heq
      rcases hth with rfl | hth
      · cases hm
      · rw [heq, hthread, ← hth]
        exact hm
    · exact hm
  refine inv_change (b := p.before) h le_rfl (fun r _ => hq.update r) h.table
    (fun m r' hm => h.threads m r' (hthreads m r' hm)) ?_
  have hfits := h.main
  unfold MainFits at hfits ⊢
  simp only
  cases hm : s.main with
  | replying rep =>
    rw [hm] at hfits
    intro hkind
    rcases hfits hkind with hnone | ⟨hst, hno⟩
    · exact .inl hnone
    · refine .inr ⟨?_, fun n hn => hno n (hthreads n _ hn)⟩
      rw [update_of_ne (by rintro heq; exact hno n (heq ▸ hthread))]
      exact hst
  | _ =>
    rw [hm] at hfits
    exact hfits

theorem inv_waited (h : Inv s p) (hr : p.Succeeded r) (hpid : (s.request r).pid = -1) :
    Inv s { p with waited := update p.waited r true } := by
  refine { h with waited := ?_ }
  intro r' hr'
  simp only [update_apply] at hr'
  split at hr'
  · rename_i heq
    rw [heq]
    exact ⟨hr, hpid⟩
  · exact h.waited r' hr'

theorem inv_reap (h : Inv s p) (hexec : ∀ rep, s.main ≠ .serving .exec rep) (i k : Nat) :
    Inv { reapRequest s i with main := .reaping k } p := by
  have hreap (active : Nat → Option Nat)
    (hactive : ∀ j r, active j = some r → s.activeRequests j = some r) :
      Inv { s with activeRequests := active, main := .reaping k } p :=
    inv_change (b := p.before) h le_rfl (fun _ _ => .refl _)
      (fun j r hj => .inl (succeeded_of_active h hexec (hactive j r hj))) h.threads trivial
  unfold reapRequest
  split
  · exact hreap s.activeRequests fun _ _ => id
  · split
    · exact hreap _ fun _ _ hj => of_update_none hj
    · exact hreap s.activeRequests fun _ _ => id

/-! ## Runs -/

theorem inv_other {l : ExecStatus.Label} (h : Inv s p) (hno : answersExec s.main l = false)
    (hs : ExecStatus.step s l = some u) : Inv u (recordOther p s l) := by
  cases l with
  | issue selfId k id =>
    cases hs
    exact { h with }
  | poll n =>
    obtain ⟨-, hs⟩ := Option.ite_none_right_eq_some.mp hs
    split at hs <;> cases hs
    unfold pollOp
    split <;> exact { h with }
  | remove n =>
    obtain ⟨-, hs⟩ := Option.ite_none_right_eq_some.mp hs
    split at hs <;> cases hs
    exact { h with }
  | take memory =>
    simp only [ExecStatus.step] at hs
    split at hs <;> cases hs
    rename_i path n events hmain hevents
    have hevents : Inv { s with events := events } p := { h with }
    exact inv_takeEvent hevents hmain path memory
  | answer o =>
    simp only [ExecStatus.step] at hs
    split at hs <;> cases hs
    rename_i w rep hmain
    have hexec : w ≠ .exec := by
      rintro rfl
      rw [hmain] at hno
      cases hno
    have hanswer := inv_answer h hmain hexec o
    have hfits := h.main
    rw [MainFits, hmain] at hfits
    simp only [recordOther, hmain]
    split
    · rename_i heq
      cases heq
      refine inv_closed hanswer hfits.1 fun hfd => ?_
      simp only [answerRequest, setResult, setRequest, update_self]
      exact effect_close o _ _ hfd
    · exact hanswer
  | writeBytes =>
    simp only [ExecStatus.step] at hs
    split at hs <;> cases hs
    rename_i rep buffer hmain
    have hfits := h.main
    rw [MainFits, hmain] at hfits
    exact { inv_main (m := .replying rep) (b := p.before) h (by simp [hmain])
      (fun hkind => absurd hkind hfits) with }
  | reply =>
    simp only [ExecStatus.step] at hs
    split at hs <;> cases hs
    rename_i rep hmain
    exact { inv_main (m := .reaping 0) (b := p.before) h (by simp [hmain]) trivial with }
  | reap =>
    simp only [ExecStatus.step] at hs
    split at hs
    · rename_i i hmain
      split at hs <;> cases hs
      · exact inv_reap h (by simp [hmain]) i (i + 1)
      · exact inv_main (m := .idle) (b := p.before) h (by simp [hmain]) trivial
    · cases hs
  | waited n status =>
    simp only [ExecStatus.step] at hs
    split at hs <;> cases hs
    rename_i r hthread
    exact { inv_thread (t := .replying r) (q := { s.request r with status := status }) h
      (congrArg threadRequest hthread) (.inr rfl) ⟨.inl rfl, fun _ => .inl rfl⟩ with }
  | threadReply n =>
    simp only [ExecStatus.step] at hs
    split at hs <;> cases hs
    rename_i r hthread
    have hinv :=
      inv_thread (t := .exiting r) h (congrArg threadRequest hthread) (.inr rfl) (.refl _)
    rw [update_eq_self] at hinv
    exact { hinv with }
  | threadExit n =>
    simp only [ExecStatus.step] at hs
    split at hs <;> cases hs
    rename_i r hthread
    have hrequest := congrArg threadRequest hthread
    have hexit :=
      inv_thread (t := .absent) (q := { s.request r with pid := -1 }) h hrequest (.inl rfl)
      ⟨.inr rfl, fun _ => .inl rfl⟩
    simp only [recordOther, hthread]
    exact inv_waited hexit (h.threads n r hrequest) (by simp [setRequest])

theorem inv_step {s u : State} {a : Label} (h : Inv s.base s.record) (hok : callsSucceed s a)
    (hs : step s a = some u) : Inv u.base u.record := by
  cases a with
  | exec host =>
    simp only [step] at hs
    split at hs <;> cases hs
    rename_i rep hmain
    exact inv_exec h hmain hok
  | other l =>
    obtain ⟨hno, hs⟩ := Option.ite_none_left_eq_some.mp hs
    obtain ⟨u', hu, rfl⟩ := Option.map_eq_some_iff.mp hs
    exact inv_other h (by simpa using hno) hu

/-! ## The slots -/

theorem reapRequest_over (h : Inv s p) (hi : s.activeRequests i = some r) (hover : p.Over r) :
    (reapRequest s i).activeRequests i = none := by
  obtain ⟨hwaited, hin, hout, herr⟩ := hover
  have hgone : (s.request r).gone := ⟨(h.waited r hwaited).2, (h.closed r 0 (by decide) hin).2,
    (h.closed r 1 (by decide) hout).2, (h.closed r 2 (by decide) herr).2⟩
  simp only [reapRequest, hi, if_pos hgone]
  exact update_self ..

theorem slotsRight_of_inv {s : State} (h : Inv s.base s.record) : SlotsRight s := by
  constructor
  · rintro rep ⟨hmain, hkind⟩ hneg
    have hfits := h.main
    rw [MainFits, hmain] at hfits
    rcases hfits hkind with hsame | ⟨hstatus, -⟩
    · exact hsame
    · omega
  · intro rep host errno _ hhost hfailed
    rw [h.succeeded _ host hhost] at hfailed
    cases hfailed
  · intro i r hi hover
    exact reapRequest_over h hi hover
  · intro hidle hnone i hi
    have hfull := List.find?_eq_none.mp hnone i (List.mem_range.mpr hi)
    cases hslot : s.base.activeRequests i with
    | none => simp [hslot] at hfull
    | some r => exact ⟨r, rfl, succeeded_of_idle h hidle hslot⟩

/-- Slots are not lost in the runs in which no call of `do_exec_request` fails. -/
theorem exec_slots_right (s : State) (h : Reach step callsSucceed Initial s) : SlotsRight s :=
  slotsRight_of_inv (h.invariant (I := fun s => Inv s.base s.record) (fun _ => inv_initial)
    fun _ _ _ => inv_step)

instance (s : State) : (a : Label) → Decidable (callsSucceed s a)
  | .exec h => inferInstanceAs (Decidable (h.failed = none))
  | .other _ => isTrue trivial

def idle : State :=
  ⟨ExecStatus.start, ⟨fun _ => none, fun _ => none, fun _ => false, fun _ _ => false⟩⟩

theorem idle_initial : Initial idle :=
  ⟨ExecStatus.start_initial, fun _ => rfl, fun _ => rfl, fun _ _ => rfl⟩

def allSucceed : Host := ⟨0, none, .ok 100, none, none, 0, none, none, fun fd => fd + 10⟩

def forkFails : Host := { allSucceed with fork := .error EAGAIN }

def tried (h : Host) : List Label := [.other (.issue 1 .exec 0), .other (.take memory), .exec h]

def asked (k : Kind) (id : Int) : List Label := (served k id).map .other

def lifetime : List Label :=
  tried allSucceed ++ [.other .reply] ++ reaping.map .other ++ (handed 0).map .other ++
    [.other (.waited 1 7), .other (.threadReply 1), .other (.threadExit 1)] ++
    asked .close 0 ++ asked .close 1 ++
    [.other (.issue 1 .close 2), .other (.take memory), .other (.answer success), .other .reply]

theorem exec_slots_right_lifetime : ∃ s, Reach step callsSucceed Initial s ∧
    s.base.activeRequests 0 = some 0 ∧ (reapRequest s.base 0).activeRequests 0 = none := by
  have h₀ : Reach step callsSucceed Initial idle := .start idle_initial
  obtain ⟨s, hs, hslot, hwaited, hin, hout, herr⟩ := h₀.runGuardedTo (P := fun s =>
    s.base.activeRequests 0 = some 0 ∧ s.record.waited 0 = true ∧ s.record.closed 0 0 = true ∧
      s.record.closed 0 1 = true ∧ s.record.closed 0 2 = true) lifetime (by decide +kernel)
  exact ⟨s, hs, hslot, (exec_slots_right s hs).freed 0 0 hslot ⟨hwaited, hin, hout, herr⟩⟩

theorem exec_slot_lost : ¬ ∀ s, Reach step anyStep Initial s → SlotsRight s := by
  intro hall
  have h₀ : Reach step anyStep Initial idle := .start idle_initial
  obtain ⟨s, hs, hmain, hstatus, hslot, hbefore⟩ := h₀.runTo (P := fun s =>
    s.base.main = .replying ⟨0, 0, text "exec", 0⟩ ∧ (s.base.request 0).status < 0 ∧
      s.base.activeRequests 0 = some 0 ∧ s.record.before 0 = none) (tried forkFails)
        (by decide +kernel)
  have hsame := (hall s hs).negative ⟨0, 0, text "exec", 0⟩ ⟨hmain, rfl⟩ hstatus
  rw [hsame, hbefore] at hslot
  cases hslot

end Guk.ExecSlots
