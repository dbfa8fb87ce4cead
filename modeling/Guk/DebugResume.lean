import Guk.DebugSuspend

/-!
# Resuming one thread (`dispatch_resume_thread`)

`dispatch_suspend_all` leaves a blocked thread as it is, with a request to suspend it that
`guk_wake` will find.
-/
namespace Guk.DebugResume

open Runs Sched DebugSuspend

structure SuspendedAll (s : State) : Prop where
  idle : s.debugger = .idle
  blocked : ∀ u ∈ s.threadList, s.isAppThread u = true → (s.thread u).runnable = false ∧
    ((s.thread u).debugSuspend = true ∨ (s.thread u).reqDebugSuspend = true)

def notResumed (u : Tid) (_ : State) : Label → Prop
  | .resumeThread x => x ≠ u
  | .singleStepThread x => x ≠ u
  | .resumeAll => False
  | _ => True

structure Stays (r : Ready) (u : Tid) : Prop where
  blocked : (r.thread u).runnable = false
  held : (r.thread u).debugSuspend = true ∨ (r.thread u).dying = true

def spares (u : Tid) : Debugger → Prop
  | .resumeAll => False
  | .stepping x all => x ≠ u ∧ all = false
  | _ => True

variable {r : Ready} {s s' : State} {t u x : Tid}

/-! ## One thread -/

section

variable (h : Stays r u) {r' : Ready}

include h

theorem Stays.of_eq (e : r'.thread u = r.thread u) : Stays r' u :=
  ⟨e ▸ h.blocked, e ▸ h.held⟩

theorem Stays.setThread {th : Thread} (hrun : th.runnable = (r.thread x).runnable)
    (hsusp : (r.thread x).debugSuspend = true → th.debugSuspend = true)
    (hdying : th.dying = (r.thread x).dying) : Stays (r.setThread x th) u := by
  by_cases hu : u = x
  · subst hu
    constructor
    · rw [Ready.setThread_thread, if_pos rfl, hrun]
      exact h.blocked
    · rw [Ready.setThread_thread, if_pos rfl, hdying]
      exact h.held.imp_left hsusp
  · exact h.of_eq (by rw [Ready.setThread_thread, if_neg hu])

theorem Stays.block (x : Tid) : Stays (r.block x) u := by
  constructor
  · rw [Ready.block_thread]
    split
    · rfl
    · exact h.blocked
  · rw [Ready.block_thread]
    split <;> exact h.held

theorem Stays.dbWake (hx : x ≠ u) : Stays (r.dbWake x) u :=
  h.of_eq (by rw [Ready.dbWake_thread, if_neg hx.symm])

theorem Stays.pickThread (prev idle : Tid) (cpu : Nat) :
    Stays (r.pickThread prev idle cpu).1 u := by
  have hrotate : Stays (r.rotate prev idle) u := h.of_eq (by rw [Ready.rotate_thread])
  unfold Ready.pickThread
  simp only
  split
  · exact hrotate.setThread rfl id rfl
  · exact hrotate

theorem Stays.gukWake (hw : r.gukWake x = some r') : Stays r' u := by
  unfold Ready.gukWake at hw
  split at hw
  · cases hw
    exact h
  · rename_i hsusp
    split at hw
    · cases hw
      exact h.setThread rfl (fun _ => rfl) rfl
    · split at hw
      · cases hw
      · rename_i hdying
        split at hw <;> cases hw
        · apply h.dbWake
          rintro rfl
          exact h.held.elim hsusp hdying
        · exact h

end

theorem Stays.setReqDebugSuspend (h : Stays s.toReady u) (x : Tid) (b : Bool) :
    Stays (setReqDebugSuspend s x b).toReady u :=
  h.setThread rfl id rfl

/-! ## Runs -/

theorem foldl_thread (l : List Tid) (s : State) (u : Tid) :
    (l.foldl (setReqDebugSuspend · · false) s).thread u =
      if u ∈ l then { s.thread u with reqDebugSuspend := false } else s.thread u := by
  induction l generalizing s with
  | nil => rfl
  | cons x l ih =>
    have hx : (DebugSuspend.setReqDebugSuspend s x false).thread u =
        if u = x then { s.thread x with reqDebugSuspend := false } else s.thread u :=
      s.setThread_thread x u _
    rw [List.foldl_cons, ih, hx]
    by_cases hu : u = x
    · simp [hu]
    · simp [hu]

theorem resumeThread_thread (hu : u ≠ t) : (resumeThread s t).thread u =
    if u ∈ s.threadList then { s.thread u with reqDebugSuspend := false } else s.thread u := by
  rw [← foldl_thread]
  unfold resumeThread
  simp only
  split
  · change (((_ : Ready).setThread t _).dbWake t).thread u = _
    rw [Ready.dbWake_thread, if_neg hu, Ready.setThread_thread, if_neg hu]
    rfl
  · rfl

theorem stays_resumeThread (h : Stays s.toReady u) (hu : u ≠ t) :
    Stays (resumeThread s t).toReady u := by
  constructor
  · rw [resumeThread_thread hu]
    split <;> exact h.blocked
  · rw [resumeThread_thread hu]
    split <;> exact h.held

theorem resumeThread_debugger : (resumeThread s t).debugger = s.debugger := by
  have hclear : ∀ (l : List Tid) (s : State),
      (l.foldl (setReqDebugSuspend · · false) s).debugger = s.debugger := by
    intro l
    induction l with
    | nil => exact fun _ => rfl
    | cons x l ih => exact fun s => ih (setReqDebugSuspend s x false)
  unfold resumeThread
  simp only
  split <;> exact hclear s.threadList s

theorem stays_suspendThread (h : Stays s.toReady u) (x : Tid) (all : Bool) :
    Stays (suspendThread s x all).toReady u ∧ spares u (suspendThread s x all).debugger := by
  unfold suspendThread
  split
  · refine ⟨?_, by cases all <;> trivial⟩
    simp only
    split
    · exact h.setReqDebugSuspend x true
    · exact h
  · exact ⟨h.setReqDebugSuspend x true, trivial⟩

theorem stays_stepDebugger (h : Stays s.toReady u) (hd : spares u s.debugger)
    (hs : stepDebugger s = some s') : Stays s'.toReady u ∧ spares u s'.debugger := by
  unfold stepDebugger at hs
  cases hpc : s.debugger with
  | idle =>
    rw [hpc] at hs
    cases hs
  | suspendAll =>
    rw [hpc] at hs
    simp only at hs
    split at hs <;> cases hs
    · exact stays_suspendThread h _ true
    · exact ⟨h, trivial⟩
  | suspending x all =>
    rw [hpc] at hs
    obtain ⟨-, rfl⟩ := of_when hs
    exact ⟨h, by cases all <;> trivial⟩
  | resumeAll =>
    rw [hpc] at hd
    exact hd.elim
  | stepping x all =>
    rw [hpc] at hs hd
    obtain ⟨-, rfl⟩ := of_when hs
    rw [hd.2]
    exact ⟨h, trivial⟩

theorem stays_step {a : Label} (h : Stays s.toReady u) (hd : spares u s.debugger)
    (hok : notResumed u s a) (hs : step s a = some s') :
    Stays s'.toReady u ∧ spares u s'.debugger := by
  cases a with
  | wake x =>
    obtain ⟨r, hw, rfl⟩ := Option.map_eq_some_iff.mp hs
    exact ⟨h.gukWake hw, hd⟩
  | block x =>
    obtain ⟨-, rfl⟩ := of_when hs
    exact ⟨h.block x, hd⟩
  | pick prev idle cpu =>
    cases hs
    exact ⟨h.pickThread prev idle cpu, hd⟩
  | switchOut x =>
    cases hs
    exact ⟨h.setThread rfl id rfl, hd⟩
  | trap x watch =>
    obtain ⟨-, rfl⟩ := of_when hs
    exact ⟨h.setReqDebugSuspend x true, hd⟩
  | suspensionPoint x =>
    obtain ⟨-, rfl⟩ := of_when hs
    unfold suspensionPoint
    split
    · refine ⟨Stays.block ?_ x, hd⟩
      exact h.setThread rfl (fun _ => rfl) rfl
    · exact ⟨h, hd⟩
  | suspendThread x =>
    obtain ⟨-, rfl⟩ := of_when hs
    exact stays_suspendThread h x false
  | suspendAll =>
    obtain ⟨-, rfl⟩ := of_when hs
    exact ⟨h, trivial⟩
  | resumeThread x =>
    obtain ⟨-, rfl⟩ := of_when hs
    refine ⟨stays_resumeThread h (Ne.symm hok), ?_⟩
    rw [resumeThread_debugger]
    exact hd
  | resumeAll => exact hok.elim
  | singleStepThread x =>
    obtain ⟨-, rfl⟩ := of_when hs
    exact ⟨h.dbWake hok, hok, rfl⟩
  | debugger => exact stays_stepDebugger h hd hs

theorem wake_resumeThread (hlist : u ∈ s.threadList) (hu : u ≠ t)
    (hsusp : (s.thread u).debugSuspend = false) (hdying : (s.thread u).dying = false) :
    ∃ v, step (resumeThread s t) (.wake u) = some v ∧ (v.thread u).runnable = true := by
  have hthread := resumeThread_thread (s := s) hu
  rw [if_pos hlist] at hthread
  have hsome : ∃ r, (resumeThread s t).gukWake u = some r := by
    simp only [Ready.gukWake, hthread, hsusp, hdying, Bool.false_eq_true, if_false]
    split <;> exact ⟨_, rfl⟩
  obtain ⟨r, hr⟩ := hsome
  refine ⟨_, Option.map_eq_some_iff.mpr ⟨r, hr, rfl⟩, ?_⟩
  have hrun := Ready.gukWake_thread _ hr (by rw [hthread]; exact hsusp) (by rw [hthread]) u
  rw [hrun, if_pos rfl]

/-- Resuming one thread leaves the others suspended if `dispatch_suspend_all` has found none of them
blocked: a blocked one runs as soon as somebody wakes it. -/
theorem others_stay_suspended_iff (s : State) (t : Tid) (h : SuspendedAll s) :
    (∀ u ∈ s.threadList, s.isAppThread u = true → u ≠ t → ∀ v,
        Reach step (notResumed u) (· = resumeThread s t) v → (v.thread u).runnable = false) ↔
      ∀ u ∈ s.threadList, s.isAppThread u = true → u ≠ t →
        (s.thread u).debugSuspend = true ∨ (s.thread u).dying = true := by
  constructor
  · intro hall u hlist happ hu
    by_contra hnot
    simp only [not_or, Bool.not_eq_true] at hnot
    obtain ⟨v, hv, hrun⟩ := wake_resumeThread hlist hu hnot.1 hnot.2
    have hblocked := hall u hlist happ hu v (.next (.wake u) (.start rfl) trivial hv)
    rw [hrun] at hblocked
    cases hblocked
  · intro hall u hlist happ hu v hv
    have hstays : Stays s.toReady u := ⟨(h.blocked u hlist happ).1, hall u hlist happ hu⟩
    have hinv := hv.invariant (I := fun v => Stays v.toReady u ∧ spares u v.debugger) ?_ ?_
    · exact hinv.1.blocked
    · rintro v rfl
      refine ⟨stays_resumeThread hstays hu, ?_⟩
      rw [resumeThread_debugger, h.idle]
      trivial
    · intro v a w hi hok hs
      exact stays_step hi.1 hi.2 hok hs

def bothSuspended : State :=
  { twoThreads with
    thread := fun _ => ⟨false, false, false, false, false, false, true, false, false, 0⟩
    readyQueue := [] }

theorem bothSuspended_suspendedAll : SuspendedAll bothSuspended :=
  ⟨rfl, fun _ _ _ => ⟨rfl, .inl rfl⟩⟩

theorem others_stay_suspended_both :
    SuspendedAll bothSuspended ∧ ∀ v,
      Reach step (notResumed (.task 1)) (· = resumeThread bothSuspended (.task 0)) v →
        (v.thread (.task 1)).runnable = false := by
  refine ⟨bothSuspended_suspendedAll, ?_⟩
  have hall := (others_stay_suspended_iff bothSuspended (.task 0) bothSuspended_suspendedAll).mpr
    (fun _ _ _ _ => .inl rfl)
  exact hall (.task 1) (by decide) rfl (by decide)

/-- Thread 1 blocks and the debugger suspends both threads. When it resumes thread 0, the next
wake-up makes thread 1 runnable. -/
theorem blocked_thread_runs_on :
    ¬ ∀ s t, Reach step anyStep Initial s → SuspendedAll s →
      ∀ u ∈ s.threadList, s.isAppThread u = true → u ≠ t → ∀ v,
        Reach step (notResumed u) (· = resumeThread s t) v → (v.thread u).runnable = false := by
  intro hall
  have h₀ : Reach step anyStep Initial twoThreads := .start twoThreads_initial
  obtain ⟨s, hs, ⟨hidle, hblocked⟩, ⟨hlist, happ⟩, hsusp, hdying⟩ := h₀.runTo
    (P := fun s => (s.debugger = .idle ∧ ∀ u ∈ s.threadList, s.isAppThread u = true →
        (s.thread u).runnable = false ∧
          ((s.thread u).debugSuspend = true ∨ (s.thread u).reqDebugSuspend = true)) ∧
      (.task 1 ∈ s.threadList ∧ s.isAppThread (.task 1) = true) ∧
      (s.thread (.task 1)).debugSuspend = false ∧ (s.thread (.task 1)).dying = false)
    [.switchOut (.task 0), .pick (.task 0) (.idle 0) 0, .block (.task 1), .switchOut (.task 1),
      .pick (.task 1) (.idle 0) 0, .suspendAll, .debugger, .suspensionPoint (.task 0),
      .switchOut (.task 0), .debugger, .debugger, .debugger] (by decide)
  obtain ⟨v, hv, hrun⟩ := wake_resumeThread (t := .task 0) hlist (by decide) hsusp hdying
  have hstays := hall s (.task 0) hs ⟨hidle, hblocked⟩ (.task 1) hlist happ (by decide) v
    (.next (.wake (.task 1)) (.start rfl) trivial hv)
  rw [hrun] at hstays
  cases hstays

end Guk.DebugResume
