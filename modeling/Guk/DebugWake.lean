import Guk.Runs
import Guk.Sched

/-!
# Wake-ups under the debugger (`db-back.c`, `guk_wake`)

`guk_wake` of a thread that is to be suspended turns `REQ_DEBUG_SUSPEND` into
`DEBUG_SUSPEND`, by which `dispatch_resume_all` knows that the thread has to run. The
two share no lock: every read and every write of a flag is a step here.

`db_wake` and `block` change `RUNNABLE` under `ready_lock`. A suspension point is one
step. The wait for a thread to stop also waits for `RUNNING`, which only delays it.
-/
namespace Guk.DebugWake

open Runs Sched Function

inductive Waker where
  | idle
  /-- at `is_debug_suspend(thread)` -/
  | debugSuspend (t : Tid)
  /-- at `is_req_debug_suspend(thread)` -/
  | reqDebugSuspend (t : Tid)
  | clearReq (t : Tid)
  | setDebug (t : Tid)
  /-- at `is_dying(thread)` -/
  | dying (t : Tid)
  /-- at `is_runnable(thread)` -/
  | runnable (t : Tid)
  | dbWake (t : Tid)
  deriving DecidableEq, Repr

def Waker.target : Waker → Option Tid
  | .idle => none
  | .debugSuspend t | .reqDebugSuspend t | .clearReq t | .setDebug t | .dying t | .runnable t
  | .dbWake t => some t

def Waker.converts (t : Tid) (p : Waker) : Prop := p = .clearReq t ∨ p = .setDebug t

instance (t : Tid) (p : Waker) : Decidable (p.converts t) := inferInstanceAs (Decidable (_ ∨ _))

inductive Debugger where
  /-- with no request since the last `dispatch_resume_all`, or after another one -/
  | idle (free : Bool)
  /-- `dispatch_suspend_all` looks for the next thread -/
  | suspendAll
  /-- `suspend_thread`, at `is_runnable(thread)` -/
  | runnable (t : Tid)
  /-- at `is_debug_suspend(thread)` -/
  | debugSuspend (t : Tid)
  | setReq (t : Tid) (wait : Bool)
  | waiting (t : Tid)
  /-- `clear_all_req_debug_suspend`, at `is_req_debug_suspend` of the next thread -/
  | clearing (rest : List Tid)
  | clearReq (t : Tid) (rest : List Tid)
  /-- `dispatch_resume_all` looks for a thread at a watchpoint -/
  | watchpoints
  /-- `single_step_thread`, at `db_wake` -/
  | step (t : Tid)
  | stepping (t : Tid)
  | stepped (t : Tid)
  /-- the last loop, at `is_debug_suspend` of the next thread -/
  | resuming (rest : List Tid)
  | clearDebug (t : Tid) (rest : List Tid)
  | dbWake (t : Tid) (rest : List Tid)
  deriving DecidableEq, Repr

structure Threads where
  threadList : List Tid
  isAppThread : Tid → Bool

structure State (n : Nat) extends Ready where
  watchpoint : Tid → Bool
  debugger : Debugger
  waker : Fin n → Waker
  woken : Tid → Bool

inductive Label (n : Nat) where
  | wake (w : Fin n) (t : Tid)
  | waker (w : Fin n)
  | block (t : Tid)
  | suspensionPoint (t : Tid)
  | trap
  | suspendAll
  | resumeAll
  | debugger
  deriving DecidableEq, Repr

variable {n : Nat}

section

variable (c : Threads) (s : State n)

def setReqDebugSuspend (t : Tid) (b : Bool) : State n :=
  { s with toReady := s.setThread t { s.thread t with reqDebugSuspend := b } }

def setDebugSuspend (t : Tid) (b : Bool) : State n :=
  { s with toReady := s.setThread t { s.thread t with debugSuspend := b } }

def goto (w : Fin n) (p : Waker) : State n := { s with waker := update s.waker w p }

def stepWaker (w : Fin n) : Option (State n) :=
  match s.waker w with
  | .idle => none
  | .debugSuspend t =>
    some (goto s w (if (s.thread t).debugSuspend then .idle else .reqDebugSuspend t))
  | .reqDebugSuspend t =>
    some (goto s w (if (s.thread t).reqDebugSuspend then .clearReq t else .dying t))
  | .clearReq t => some (goto (setReqDebugSuspend s t false) w (.setDebug t))
  | .setDebug t => some (goto (setDebugSuspend s t true) w .idle)
  -- `BUG_ON(is_dying(thread))`
  | .dying t => if (s.thread t).dying then none else some (goto s w (.runnable t))
  | .runnable t =>
    some (goto s w (if !(s.thread t).runnable || s.appScheduled t then .dbWake t else .idle))
  | .dbWake t => some (goto { s with toReady := s.dbWake t } w .idle)

def toSuspend : Option Tid :=
  c.threadList.find? fun t =>
    c.isAppThread t && !((s.thread t).debugSuspend || (s.thread t).reqDebugSuspend)

def toStep : Option Tid := c.threadList.find? fun t => c.isAppThread t && s.watchpoint t

def stepDebugger : Option (State n) :=
  match s.debugger with
  | .idle _ => none
  | .suspendAll =>
    match toSuspend c s with
    | some t => some { s with debugger := .runnable t }
    | none => some { s with debugger := .idle false }
  | .runnable t =>
    some { s with debugger := if !(s.thread t).runnable then .debugSuspend t else .setReq t true }
  | .debugSuspend t =>
    some { s with debugger := if !(s.thread t).debugSuspend then .setReq t false else .suspendAll }
  | .setReq t wait =>
    some { setReqDebugSuspend s t true with debugger := if wait then .waiting t else .suspendAll }
  | .waiting t => if (s.thread t).runnable then none else some { s with debugger := .suspendAll }
  | .clearing [] => some { s with debugger := .watchpoints }
  | .clearing (t :: rest) =>
    some { s with
      debugger := if (s.thread t).reqDebugSuspend then .clearReq t rest else .clearing rest }
  | .clearReq t rest => some { setReqDebugSuspend s t false with debugger := .clearing rest }
  | .watchpoints =>
    match toStep c s with
    | some t => some { s with debugger := .step t }
    | none => some { s with debugger := .resuming c.threadList }
  | .step t => some { s with toReady := s.dbWake t, debugger := .stepping t }
  | .stepping t =>
    if (s.thread t).runnable then none
    else some { s with watchpoint := update s.watchpoint t false, debugger := .stepped t }
  | .stepped t => some { setReqDebugSuspend s t false with debugger := .watchpoints }
  | .resuming [] => some { s with debugger := .idle true }
  | .resuming (t :: rest) =>
    some { s with
      debugger := if c.isAppThread t && (s.thread t).debugSuspend then .clearDebug t rest
        else .resuming rest }
  | .clearDebug t rest => some { setDebugSuspend s t false with debugger := .dbWake t rest }
  | .dbWake t rest => some { s with toReady := s.dbWake t, debugger := .resuming rest }

def step : Label n → Option (State n)
  | .wake w t =>
    if s.waker w = .idle then
      some { goto s w (.debugSuspend t) with woken := update s.woken t true }
    else none
  | .waker w => stepWaker s w
  | .block t =>
    if (s.thread t).runnable then
      some { s with toReady := s.block t, woken := update s.woken t false }
    else none
  | .suspensionPoint t =>
    if (s.thread t).runnable ∧ (s.thread t).reqDebugSuspend then
      some { s with
        toReady := (setDebugSuspend (setReqDebugSuspend s t false) t true).block t }
    else none
  | .trap =>
    match s.debugger with
    | .stepping t => if (s.thread t).runnable then some (setReqDebugSuspend s t true) else none
    | _ => none
  | .suspendAll =>
    match s.debugger with
    | .idle _ => some { s with debugger := .suspendAll }
    | _ => none
  | .resumeAll =>
    match s.debugger with
    | .idle _ => some { s with debugger := .clearing c.threadList }
    | _ => none
  | .debugger => stepDebugger c s

structure Initial : Prop where
  flags : ∀ t, (s.thread t).reqDebugSuspend = false ∧ (s.thread t).debugSuspend = false
  debugger : s.debugger = .idle true
  waker : ∀ w, s.waker w = .idle
  woken : ∀ t, s.woken t = false

def Debugger.tests : Debugger → Option Tid
  | .resuming (t :: _) => some t
  | _ => none

def steadyTest (a : Label n) : Prop :=
  a = .debugger → ∀ t ∈ s.debugger.tests, ∀ w, ¬ (s.waker w).converts t

instance (a : Label n) : Decidable (steadyTest s a) := inferInstanceAs (Decidable (_ → _))

end

/-! ## One thread -/

def Debugger.cleared (t : Tid) : Debugger → Prop
  | .idle free => free = true
  | .clearing rest => t ∉ rest
  | .clearReq x rest => t ≠ x ∧ t ∉ rest
  | .step x | .stepping x | .stepped x => t ≠ x
  | .watchpoints | .resuming _ | .clearDebug _ _ | .dbWake _ _ => True
  | _ => False

def Debugger.tested (t : Tid) : Debugger → Prop
  | .idle free => free = true
  | .resuming rest | .clearDebug _ rest | .dbWake _ rest => t ∉ rest
  | _ => False

theorem Debugger.cleared_of_tested {t : Tid} {d : Debugger} (h : d.tested t) : d.cleared t := by
  cases d <;> first | exact h | exact h.elim | trivial

structure Inv (s : State n) (t : Tid) : Prop where
  recorded : s.woken t = true → (s.thread t).runnable = true ∨ (s.thread t).debugSuspend = true ∨
    (∃ w, (s.waker w).target = some t) ∨ ∃ rest, s.debugger = .dbWake t rest
  cleared : s.debugger.cleared t → (s.thread t).reqDebugSuspend = false
  steady : s.debugger.tested t → ∀ w, ¬ (s.waker w).converts t
  passed : s.debugger.tested t → (∀ rest, s.debugger ≠ .clearDebug t rest) →
    (s.thread t).debugSuspend = false

variable {c : Threads} {s u : State n} {t x : Tid} {w : Fin n}

theorem inv_initial (h : Initial s) (t : Tid) : Inv s t := by
  constructor
  · intro hw
    rw [h.woken t] at hw
    cases hw
  · intro _
    exact (h.flags t).1
  · intro _ w hc
    rw [h.waker w] at hc
    rcases hc with hc | hc <;> cases hc
  · intro _ _
    exact (h.flags t).2

section

variable (h : Inv s t)

include h

theorem inv_goto (p : Waker) (hidle : (s.waker w).target = some t → p.target ≠ some t →
      (s.thread t).runnable = true ∨ (s.thread t).debugSuspend = true)
    (hconv : p.converts t → ¬ s.debugger.tested t) : Inv (goto s w p) t := by
  refine { h with recorded := ?_, steady := ?_ }
  · intro hwoken
    rcases h.recorded hwoken with hrun | hsusp | ⟨w', hw'⟩ | hd
    · exact .inl hrun
    · exact .inr (.inl hsusp)
    · by_cases hw : w' = w
      · subst hw
        by_cases hp : p.target = some t
        · exact .inr (.inr (.inl ⟨w', by simpa [goto] using hp⟩))
        · exact (hidle hw' hp).imp_right .inl
      · exact .inr (.inr (.inl ⟨w', by simpa [goto, hw] using hw'⟩))
    · exact .inr (.inr (.inr hd))
  · intro htested w'
    by_cases hw : w' = w
    · subst hw
      simpa [goto] using fun hc => hconv hc htested
    · simpa [goto, hw] using h.steady htested w'

theorem inv_change {r : Ready}
    (hrun : (s.thread t).runnable = true ∨ (s.thread t).debugSuspend = true →
      (r.thread t).runnable = true ∨ (r.thread t).debugSuspend = true)
    (hreq : (r.thread t).reqDebugSuspend = true →
      (s.thread t).reqDebugSuspend = true ∨ ¬ s.debugger.cleared t)
    (hdebug : (r.thread t).debugSuspend = true →
      (s.thread t).debugSuspend = true ∨ ¬ s.debugger.tested t) :
    Inv { s with toReady := r } t := by
  refine { h with recorded := ?_, cleared := ?_, passed := ?_ }
  · intro hwoken
    rcases h.recorded hwoken with h | h | h
    · exact (hrun (.inl h)).imp_right .inl
    · exact (hrun (.inr h)).imp_right .inl
    · exact .inr (.inr h)
  · intro hc
    by_contra hset
    rcases hreq (Bool.not_eq_false _ ▸ hset) with hold | hold
    · rw [h.cleared hc] at hold
      cases hold
    · exact hold hc
  · intro htested hd
    by_contra hset
    rcases hdebug (Bool.not_eq_false _ ▸ hset) with hold | hold
    · rw [h.passed htested hd] at hold
      cases hold
    · exact hold htested

theorem inv_setReqDebugSuspend {b : Bool}
    (hx : b = true → t = x → ¬ s.debugger.cleared t) : Inv (setReqDebugSuspend s x b) t := by
  apply inv_change h <;> rw [Ready.setThread_thread] <;> split
  · rename_i hxt
    subst hxt
    exact id
  · exact id
  · exact fun hb => .inr (hx hb ‹_›)
  · exact .inl
  · rename_i hxt
    subst hxt
    exact .inl
  · exact .inl

theorem inv_setDebugSuspend (hx : t = x → ¬ s.debugger.tested t) :
    Inv (setDebugSuspend s x true) t := by
  apply inv_change h <;> rw [Ready.setThread_thread] <;> split
  · exact fun _ => .inr rfl
  · exact id
  · rename_i hxt
    subst hxt
    exact .inl
  · exact .inl
  · exact fun _ => .inr (hx ‹_›)
  · exact .inl

theorem inv_dbWake (x : Tid) : Inv { s with toReady := s.dbWake x } t := by
  apply inv_change h <;> rw [Ready.dbWake_thread] <;> split
  · exact fun _ => .inl rfl
  · exact id
  all_goals exact .inl

theorem inv_stepWaker (hs : stepWaker s w = some u) : Inv u t := by
  unfold stepWaker at hs
  split at hs <;> rename_i x hw
  · cases hs
  · cases hs
    apply inv_goto h
    · rw [hw]
      rintro ⟨rfl⟩ hp
      split at hp
      · exact .inr ‹_›
      · exact absurd rfl hp
    · split <;> simp [Waker.converts]
  · cases hs
    apply inv_goto h
    · rw [hw]
      rintro ⟨rfl⟩ hp
      split at hp <;> exact absurd rfl hp
    · -- a request that has been cleared is not found
      intro hc htested
      have hreq := h.cleared (Debugger.cleared_of_tested htested)
      split at hc <;> simp [Waker.converts] at hc
      subst hc
      simp_all
  · cases hs
    apply inv_goto (inv_setReqDebugSuspend h (by simp))
    · intro ht hp
      rw [show (setReqDebugSuspend s x false).waker w = _ from hw] at ht
      exact absurd ht hp
    · intro hc htested
      simp only [Waker.converts, reduceCtorEq, Waker.setDebug.injEq, false_or] at hc
      exact h.steady htested w (.inl (hc ▸ hw))
  · cases hs
    have hx : t = x → ¬ s.debugger.tested t := by
      rintro rfl htested
      exact h.steady htested w (.inr hw)
    apply inv_goto (inv_setDebugSuspend h hx)
    · intro ht _
      rw [show (setDebugSuspend s x true).waker w = _ from hw] at ht
      cases ht
      exact .inr (by simp [setDebugSuspend, Ready.setThread_thread])
    · simp [Waker.converts]
  · obtain ⟨-, rfl⟩ := of_unless hs
    apply inv_goto h
    · rw [hw]
      exact fun ht hp => absurd ht hp
    · simp [Waker.converts]
  · cases hs
    apply inv_goto h
    · rw [hw]
      rintro ⟨rfl⟩ hp
      split at hp
      · exact absurd rfl hp
      · exact .inl (by simp_all)
    · split <;> simp [Waker.converts]
  · cases hs
    apply inv_goto (inv_dbWake h x)
    · intro ht _
      rw [hw] at ht
      cases ht
      exact .inl (by simp [Ready.dbWake_thread])
    · simp [Waker.converts]

theorem inv_debugger (d : Debugger) (hwake : ∀ rest, s.debugger ≠ .dbWake t rest)
    (hcleared : d.cleared t → (s.thread t).reqDebugSuspend = false)
    (htested : d.tested t → (∀ w, ¬ (s.waker w).converts t) ∧
      ((∀ rest, d ≠ .clearDebug t rest) → (s.thread t).debugSuspend = false)) :
    Inv { s with debugger := d } t := by
  refine ⟨fun hwoken => ?_, hcleared, fun ht => (htested ht).1, fun ht => (htested ht).2⟩
  rcases h.recorded hwoken with h | h | h | ⟨rest, h⟩
  · exact .inl h
  · exact .inr (.inl h)
  · exact .inr (.inr (.inl h))
  · exact absurd h (hwake rest)

theorem inv_suspending (d : Debugger) (hwake : ∀ rest, s.debugger ≠ .dbWake t rest)
    (hd : ¬ d.cleared t) : Inv { s with debugger := d } t :=
  inv_debugger h d hwake (fun hc => absurd hc hd)
    (fun ht => absurd (Debugger.cleared_of_tested ht) hd)

theorem inv_test {rest : List Tid} (happ : c.isAppThread t = true)
    (hok : steadyTest s .debugger) (hpc : s.debugger = .resuming (x :: rest)) :
    Inv { s with
      debugger := if c.isAppThread x && (s.thread x).debugSuspend then .clearDebug x rest
        else .resuming rest } t := by
  have hmem : t ∉ rest → t ≠ x → s.debugger.tested t := by
    intro hrest hx
    rw [hpc]
    exact List.not_mem_cons_of_ne_of_not_mem hx hrest
  have hsteady : t ∉ rest → ∀ w, ¬ (s.waker w).converts t := by
    intro hrest
    by_cases hx : t = x
    · exact hok rfl t (by rw [hpc, hx]; rfl)
    · exact h.steady (hmem hrest hx)
  have hcleared := h.cleared (by rw [hpc]; trivial)
  have hpassed : t ∉ rest → t ≠ x → (s.thread t).debugSuspend = false := by
    intro hrest hx
    exact h.passed (hmem hrest hx) (by simp [hpc])
  split
  · apply inv_debugger h _ (by simp [hpc]) (fun _ => hcleared)
    refine fun ht => ⟨hsteady ht, fun hd => hpassed ht ?_⟩
    rintro rfl
    exact hd rest rfl
  · rename_i hskip
    apply inv_debugger h _ (by simp [hpc]) (fun _ => hcleared)
    refine fun ht => ⟨hsteady ht, fun _ => ?_⟩
    by_cases hx : t = x
    · subst hx
      simpa [happ] using hskip
    · exact hpassed ht hx

theorem inv_stepDebugger (hlist : t ∈ c.threadList) (happ : c.isAppThread t = true)
    (hok : steadyTest s .debugger) (hs : stepDebugger c s = some u) : Inv u t := by
  unfold stepDebugger at hs
  split at hs <;> rename_i hpc
  · cases hs
  · split at hs <;> cases hs <;> exact inv_suspending h _ (by simp [hpc])
      (by simp [Debugger.cleared])
  · cases hs
    exact inv_suspending h _ (by simp [hpc]) (by split <;> exact id)
  · cases hs
    exact inv_suspending h _ (by simp [hpc]) (by split <;> exact id)
  · cases hs
    apply inv_suspending (inv_setReqDebugSuspend h _) _ (by simp [hpc, setReqDebugSuspend])
    · split <;> exact id
    · simp [hpc, Debugger.cleared]
  · obtain ⟨-, rfl⟩ := of_unless hs
    exact inv_suspending h _ (by simp [hpc]) id
  · cases hs
    refine inv_debugger h _ (by simp [hpc]) (fun _ => h.cleared ?_) (fun ht => ht.elim)
    simp [hpc, Debugger.cleared]
  · cases hs
    rename_i x rest
    apply inv_debugger h _ (by simp [hpc])
    · intro hc
      by_cases hreq : (s.thread t).reqDebugSuspend = true
      · refine h.cleared ?_
        rw [hpc]
        split at hc
        · exact List.not_mem_cons_of_ne_of_not_mem hc.1 hc.2
        · refine List.not_mem_cons_of_ne_of_not_mem ?_ hc
          rintro rfl
          contradiction
      · exact Bool.eq_false_iff.mpr hreq
    · split <;> exact fun ht => ht.elim
  · cases hs
    rename_i x rest
    apply inv_debugger (inv_setReqDebugSuspend h (by simp)) _ (by simp [hpc, setReqDebugSuspend])
    · intro hc
      simp only [setReqDebugSuspend, Ready.setThread_thread]
      split
      · rfl
      · exact h.cleared (by rw [hpc]; exact ⟨‹_›, hc⟩)
    · exact fun ht => ht.elim
  · have hcleared := h.cleared (by rw [hpc]; trivial)
    split at hs <;> cases hs
    · exact inv_debugger h _ (by simp [hpc]) (fun _ => hcleared) (fun ht => ht.elim)
    · exact inv_debugger h _ (by simp [hpc]) (fun _ => hcleared) (fun ht => absurd hlist ht)
  · cases hs
    rename_i x
    apply inv_debugger (inv_dbWake h x) _ (by simp [hpc])
    · exact fun hc => (inv_dbWake h x).cleared (by rw [hpc]; exact hc)
    · exact fun ht => ht.elim
  · obtain ⟨-, rfl⟩ := of_unless hs
    have hu :=
      inv_debugger h (.stepped _) (by simp [hpc]) (fun hc => h.cleared (by rw [hpc]; exact hc))
      (fun ht => ht.elim)
    exact { hu with }
  · cases hs
    rename_i x
    apply inv_debugger (inv_setReqDebugSuspend h (by simp)) _ (by simp [hpc, setReqDebugSuspend])
    · intro _
      simp only [setReqDebugSuspend, Ready.setThread_thread]
      split
      · rfl
      · exact h.cleared (by rw [hpc]; exact ‹_›)
    · exact fun ht => ht.elim
  · cases hs
    have htested : s.debugger.tested t := by simp [hpc, Debugger.tested]
    exact inv_debugger h _ (by simp [hpc]) (fun _ => h.cleared (Debugger.cleared_of_tested htested))
      (fun _ => ⟨h.steady htested, fun _ => h.passed htested (by simp [hpc])⟩)
  · cases hs
    exact inv_test h happ hok hpc
  · cases hs
    rename_i x rest
    constructor
    · intro hwoken
      by_cases hx : t = x
      · exact .inr (.inr (.inr ⟨rest, by rw [hx]⟩))
      · rcases h.recorded hwoken with hr | hr | hr | ⟨_, hr⟩
        · exact .inl (by simpa [setDebugSuspend, Ready.setThread_thread, hx] using hr)
        · exact .inr (.inl (by simpa [setDebugSuspend, Ready.setThread_thread, hx] using hr))
        · exact .inr (.inr (.inl hr))
        · simp [hpc] at hr
    · intro _
      have hreq := h.cleared (by rw [hpc]; trivial)
      simp only [setDebugSuspend, Ready.setThread_thread]
      split
      · rename_i hx
        rw [← hx]
        exact hreq
      · exact hreq
    · exact fun ht => h.steady (by rw [hpc]; exact ht)
    · intro ht _
      simp only [setDebugSuspend, Ready.setThread_thread]
      split
      · rfl
      · rename_i hx
        exact h.passed (by rw [hpc]; exact ht) (by simp [hpc, Ne.symm hx])
  · cases hs
    rename_i x rest
    have hw := inv_dbWake h x
    constructor
    · intro hwoken
      rcases hw.recorded hwoken with hr | hr | hr | ⟨_, hr⟩
      · exact .inl hr
      · exact .inr (.inl hr)
      · exact .inr (.inr (.inl hr))
      · rw [hpc] at hr
        cases hr
        exact .inl (by simp [Ready.dbWake_thread])
    · exact fun _ => hw.cleared (by rw [hpc]; trivial)
    · exact fun ht => h.steady (by rw [hpc]; exact ht)
    · exact fun ht _ => hw.passed (by rw [hpc]; exact ht) (by simp [hpc])

theorem inv_step {a : Label n} (hlist : t ∈ c.threadList)
    (happ : c.isAppThread t = true) (hok : steadyTest s a) (hs : step c s a = some u) :
    Inv u t := by
  cases a with
  | wake w x =>
    obtain ⟨hidle, rfl⟩ := of_when hs
    have hgo : Inv (goto s w (.debugSuspend x)) t :=
      inv_goto h _ (by simp [hidle, Waker.target]) (by simp [Waker.converts])
    refine { hgo with recorded := fun hwoken => ?_ }
    by_cases hx : t = x
    · exact .inr (.inr (.inl ⟨w, by simp [goto, Waker.target, hx]⟩))
    · exact hgo.recorded (by simpa [hx, goto] using hwoken)
  | waker w => exact inv_stepWaker h hs
  | block x =>
    obtain ⟨-, rfl⟩ := of_when hs
    by_cases hx : t = x
    · subst hx
      constructor
      · simp
      · simpa [Ready.block_thread] using h.cleared
      · exact h.steady
      · simpa [Ready.block_thread] using h.passed
    · have hb : Inv { s with toReady := s.block x } t := by
        apply inv_change h <;> rw [Ready.block_thread, if_neg hx]
        · exact id
        all_goals exact .inl
      exact { hb with recorded := fun hwoken => hb.recorded (by simpa [hx] using hwoken) }
  | suspensionPoint x =>
    obtain ⟨⟨-, hreq⟩, rfl⟩ := of_when hs
    have hx : t = x → ¬ s.debugger.tested t := by
      rintro rfl htested
      rw [h.cleared (Debugger.cleared_of_tested htested)] at hreq
      cases hreq
    have hset := inv_setDebugSuspend (inv_setReqDebugSuspend (b := false) (x := x) h (by simp)) hx
    apply inv_change hset <;> rw [Ready.block_thread] <;> split
    · rename_i hxt
      exact fun _ => .inr (by simp [setDebugSuspend, Ready.setThread_thread, hxt])
    · exact id
    all_goals exact .inl
  | trap =>
    change (match s.debugger with | .stepping x => _ | _ => _) = some u at hs
    split at hs
    · rename_i x hpc
      obtain ⟨-, rfl⟩ := of_when hs
      exact inv_setReqDebugSuspend h (by simp [hpc, Debugger.cleared])
    · cases hs
  | suspendAll =>
    change (match s.debugger with | .idle _ => _ | _ => _) = some u at hs
    split at hs <;> cases hs
    rename_i hpc
    exact inv_suspending h _ (by simp [hpc]) id
  | resumeAll =>
    change (match s.debugger with | .idle _ => _ | _ => _) = some u at hs
    split at hs <;> cases hs
    rename_i hpc
    exact inv_suspending h _ (by simp [hpc]) (fun hc => hc hlist)
  | debugger => exact inv_stepDebugger h hlist happ hok hs

end

/-- A wake-up is not lost if the last loop of `dispatch_resume_all` tests no thread in the middle of
the conversion of its flags. -/
theorem no_wakeup_lost (c : Threads) (s : State n) (h : Reach (step c) steadyTest Initial s)
    (hdebugger : s.debugger = .idle true) (hwaker : ∀ w, s.waker w = .idle) (t : Tid)
    (hlist : t ∈ c.threadList) (happ : c.isAppThread t = true) (hwoken : s.woken t = true) :
    (s.thread t).runnable = true := by
  have hinv : Inv s t := by
    apply h.invariant (I := fun s => Inv s t) (fun s hs => inv_initial hs t)
    intro s a u hi hok hs
    exact inv_step hi hlist happ hok hs
  rcases hinv.recorded hwoken with hrun | hsusp | ⟨w, hw⟩ | ⟨rest, hd⟩
  · exact hrun
  · rw [hinv.passed (by rw [hdebugger]; rfl) (by simp [hdebugger])] at hsusp
    cases hsusp
  · rw [hwaker w] at hw
    cases hw
  · rw [hdebugger] at hd
    cases hd

def oneBlocked : State 1 where
  thread _ := ⟨false, false, false, false, false, false, false, false, false, 0⟩
  readyQueue := []
  upcallsActive := false
  watchpoint _ := false
  debugger := .idle true
  waker _ := .idle
  woken _ := false

def oneThread : Threads := ⟨[.task 0], fun _ => true⟩

theorem oneBlocked_initial : Initial oneBlocked :=
  ⟨fun _ => ⟨rfl, rfl⟩, rfl, fun _ => rfl, fun _ => rfl⟩

def suspendedAndWoken : List (Label 1) :=
  [.suspendAll, .debugger, .debugger, .debugger, .debugger, .debugger, .wake 0 (.task 0), .waker 0,
    .waker 0]

theorem no_wakeup_lost_oneThread : ∃ s : State 1, Reach (step oneThread) steadyTest Initial s ∧
    (s.debugger = .idle true ∧ s.woken (.task 0) = true) ∧
      (s.thread (.task 0)).runnable = true := by
  have hstart : Reach (step oneThread) steadyTest Initial oneBlocked := .start oneBlocked_initial
  obtain ⟨s, hs, hd, hwaker, hwoken⟩ := hstart.runGuardedTo
    (P := fun s => s.debugger = .idle true ∧ (∀ w, s.waker w = .idle) ∧ s.woken (.task 0) = true)
    (suspendedAndWoken ++ [.waker 0, .waker 0, .resumeAll, .debugger, .debugger, .debugger,
      .debugger, .debugger, .debugger, .debugger]) (by decide)
  exact ⟨s, hs, ⟨hd, hwoken⟩,
    no_wakeup_lost oneThread s hs hd hwaker (.task 0) (by decide) rfl hwoken⟩

/-- It comes between the test of the request and `clear_req_debug_suspend`: the thread is left in
the debugger. -/
theorem wakeup_left_in_debugger :
    ¬ ∀ s : State 1, Reach (step oneThread) anyStep Initial s → s.debugger = .idle true →
      (∀ w, s.waker w = .idle) → ∀ t ∈ oneThread.threadList, oneThread.isAppThread t = true →
      s.woken t = true → (s.thread t).runnable = true := by
  intro hall
  have hstart : Reach (step oneThread) anyStep Initial oneBlocked := .start oneBlocked_initial
  obtain ⟨s, hs, hd, hwaker, hwoken, hrun⟩ := hstart.runTo
    (P := fun s => s.debugger = .idle true ∧ (∀ w, s.waker w = .idle) ∧ s.woken (.task 0) = true ∧
      (s.thread (.task 0)).runnable = false)
    (suspendedAndWoken ++ [.resumeAll, .debugger, .debugger, .debugger, .debugger, .debugger,
      .debugger, .waker 0, .waker 0]) (by decide)
  have hwake := hall s hs hd hwaker (.task 0) (by decide) rfl hwoken
  rw [hrun] at hwake
  cases hwake

end Guk.DebugWake
