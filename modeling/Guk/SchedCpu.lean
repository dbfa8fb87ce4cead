import Guk.Runs
import Guk.Sched

/-!
# Threads and CPUs (`guk_schedule`)

Each CPU runs `guk_schedule` in steps: `pick_thread` under `ready_lock`, the test
of the chosen thread, the write of its field `cpu` outside the lock, the switch of
`current_thread`, and `clear_running` of the previous thread on the new stack. The
steps of different CPUs interleave with each other and with `block` and `wake`.
-/
namespace Guk.SchedCpu

open Runs Sched Function List

inductive Phase where
  | running
  | entered (cpu : Nat)
  /-- `pick_thread` found no thread in the ready queue and has released the lock -/
  | upcall (cpu : Nat)
  | picked (cpu : Nat) (next : Tid)
  /-- `next` is runnable and not dying -/
  | checked (cpu : Nat) (next : Tid)
  /-- `next->cpu` has been written -/
  | assigned (next : Tid)
  /-- `current_thread` has been switched, `prev` is still marked as running -/
  | switched (prev : Tid)
  deriving DecidableEq, Repr

def Phase.next? : Phase → Option Tid
  | .picked _ next | .checked _ next | .assigned next => some next
  | _ => none

structure State extends Ready where
  current : Nat → Tid
  phase : Nat → Phase
  cpuUp : Nat → Bool

inductive Label where
  /-- The next step of `guk_schedule` on a CPU; `app` is what `scheduler_upcall` returns. -/
  | schedule (c : Nat) (app : Option Tid)
  | block (id : Nat)
  | wake (id : Nat)
  | cpuState (c : Nat) (up : Bool)

def setPhase (s : State) (c : Nat) (p : Phase) : State :=
  { s with phase := update s.phase c p }

def schedule (s : State) (c : Nat) (app : Option Tid) : Option State :=
  match s.phase c with
  | .running => some (setPhase s c (.entered (s.thread (s.current c)).cpu))
  | .entered cpu =>
    if s.cpuUp cpu then
      match s.toReady.pickThread (s.current c) (.idle c) cpu with
      | (r, some next) => some (setPhase { s with toReady := r } c (.picked cpu next))
      | (r, none) => some (setPhase { s with toReady := r } c (.upcall cpu))
    else some (setPhase s c (.picked cpu (.idle cpu)))
  | .upcall cpu =>
    match if s.upcallsActive then app else none with
    | none =>
      some (setPhase { s with toReady := s.setRunning (.idle c) true } c (.picked cpu (.idle c)))
    | some next =>
      if (s.thread next).running ∧ (s.thread next).cpu ≠ cpu then none
      else some (setPhase { s with toReady := s.setRunning next true } c (.picked cpu next))
  | .picked cpu next =>
    if ((s.thread next).runnable ∨ next = .idle cpu) ∧ ¬ (s.thread next).dying then
      some (setPhase s c (.checked cpu next))
    else none
  | .checked cpu next =>
    some (setPhase { s with toReady := s.setCpu next cpu } c (.assigned next))
  | .assigned next =>
    if s.current c = next then some (setPhase s c .running)
    else some (setPhase { s with current := update s.current c next } c
      (.switched (s.current c)))
  | .switched prev => some (setPhase { s with toReady := s.setRunning prev false } c .running)

def step (s : State) : Label → Option State
  | .schedule c app => schedule s c app
  | .block id => some { s with toReady := s.toReady.block (.task id) }
  | .wake id => some { s with toReady := s.dbWake (.task id) }
  | .cpuState c up => some { s with cpuUp := update s.cpuUp c up }

structure Initial (s : State) : Prop where
  current : ∀ c, s.current c = .idle c
  phase : ∀ c, s.phase c = .running
  idleCpu : ∀ c, (s.thread (.idle c)).cpu = c
  idleApp : ∀ c, (s.thread (.idle c)).appsched = false
  idleQueue : ∀ c, Tid.idle c ∉ s.readyQueue

def Holds (s : State) (c : Nat) (t : Tid) : Prop := t = s.current c ∨ (s.phase c).next? = some t

def OneCpu (s : State) : Prop := ∀ c d t, Holds s c t → Holds s d t → c = d

def safeStep (s : State) : Label → Prop
  | .schedule c app =>
    match s.phase c with
    | .entered cpu => ∀ d, d ≠ c → ∀ x next,
        s.phase d = .picked x next ∨ s.phase d = .checked x next → (s.thread next).cpu ≠ cpu
    | .upcall _ => ∀ next, app = some next →
        (s.thread next).appsched = true ∧ ∀ d, d ≠ c → ¬ Holds s d next
    | _ => True
  | _ => True

/-! ## The invariant -/

def Own (cur : Tid) (p : Phase) (t : Tid) : Prop := t = cur ∨ p.next? = some t ∨ p = .switched t

def Occupies (s : State) (c : Nat) (t : Tid) : Prop := Own (s.current c) (s.phase c) t

def Phase.cpu? : Phase → Option Nat
  | .entered cpu | .upcall cpu | .picked cpu _ | .checked cpu _ => some cpu
  | _ => none

def Phase.pending? : Phase → Option Tid
  | .picked _ next | .checked _ next => some next
  | _ => none

structure Inv (s : State) : Prop where
  exclusive : ∀ c d t, Occupies s c t → Occupies s d t → c = d
  running : ∀ c id, Occupies s c (.task id) → (s.thread (.task id)).running = true
  settled : ∀ c t, Occupies s c t → (s.phase c).pending? ≠ some t → (s.thread t).cpu = c
  hasIdle : ∀ c d, Occupies s c (.idle d) → c = d
  distinct : ∀ c prev, s.phase c = .switched prev → prev ≠ s.current c
  localCpu : ∀ c cpu, (s.phase c).cpu? = some cpu → cpu = c
  idleCpu : ∀ c, (s.thread (.idle c)).cpu = c
  idleApp : ∀ c, (s.thread (.idle c)).appsched = false
  idleQueue : ∀ c, Tid.idle c ∉ s.readyQueue

variable {s u : State} {c cpu : Nat}
  {t cur next : Tid} {r : Ready} {p : Phase} {app : Option Tid}

theorem occupies_current : Occupies s c (s.current c) := .inl rfl

theorem occupies_of_holds (h : Holds s c t) : Occupies s c t := by
  rcases h with h | h
  · exact .inl h
  · exact .inr (.inl h)

theorem oneCpu_of_inv (h : Inv s) : OneCpu s := by
  intro c d t hc hd
  exact h.exclusive c d t (occupies_of_holds hc) (occupies_of_holds hd)

theorem own_running (h : Own cur .running t) : t = cur := by
  rcases h with h | h | h
  · exact h
  · cases h
  · cases h

theorem inv_initial (h : Initial s) : Inv s := by
  have hown : ∀ c t, Occupies s c t → t = .idle c := by
    intro c t ht
    rw [Occupies, h.phase c] at ht
    rw [own_running ht, h.current c]
  refine ⟨?_, ?_, ?_, ?_, ?_, ?_, h.idleCpu, h.idleApp, h.idleQueue⟩
  · intro c d t hc hd
    have := (hown c t hc).symm.trans (hown d t hd)
    exact Tid.idle.inj this
  · intro c id hc
    cases hown c _ hc
  · intro c t hc _
    rw [hown c t hc]
    exact h.idleCpu c
  · intro c d hc
    exact (Tid.idle.inj (hown c _ hc)).symm
  · intro c prev hp
    rw [h.phase c] at hp
    cases hp
  · intro c cpu hcpu
    rw [h.phase c] at hcpu
    cases hcpu

theorem inv_cpu (h : Inv s)
    (hown : ∀ t, Own cur p t → ∀ d, d ≠ c → ¬ Occupies s d t)
    (hframe : ∀ d t, d ≠ c → Occupies s d t → r.thread t = s.thread t)
    (hrunning : ∀ id, Own cur p (.task id) → (r.thread (.task id)).running = true)
    (hsettled : ∀ t, Own cur p t → p.pending? ≠ some t → (r.thread t).cpu = c)
    (hhasIdle : ∀ d, Own cur p (.idle d) → c = d)
    (hdistinct : ∀ prev, p = .switched prev → prev ≠ cur)
    (hlocal : ∀ cpu, p.cpu? = some cpu → cpu = c)
    (hidle : ∀ d, (r.thread (.idle d)).cpu = d ∧ (r.thread (.idle d)).appsched = false)
    (hqueue : ∀ d, Tid.idle d ∉ r.readyQueue) :
    Inv { s with
      toReady := r
      current := update s.current c cur
      phase := update s.phase c p } := by
  have hself : ∀ {d t}, Occupies { s with
      toReady := r
      current := update s.current c cur
      phase := update s.phase c p } d t → (d = c ∧ Own cur p t) ∨ (d ≠ c ∧ Occupies s d t) := by
    intro d t ht
    by_cases hd : d = c
    · subst hd
      exact .inl ⟨rfl, by simpa [Occupies] using ht⟩
    · exact .inr ⟨hd, by simpa [Occupies, hd] using ht⟩
  refine ⟨?_, ?_, ?_, ?_, ?_, ?_, fun d => (hidle d).1, fun d => (hidle d).2, hqueue⟩
  · intro a b t ha hb
    rcases hself ha with ⟨hac, ha'⟩ | ⟨hac, ha'⟩ <;> rcases hself hb with ⟨hbc, hb'⟩ | ⟨hbc, hb'⟩
    · rw [hac, hbc]
    · exact absurd hb' (hown t ha' b hbc)
    · exact absurd ha' (hown t hb' a hac)
    · exact h.exclusive a b t ha' hb'
  · intro a id ha
    rcases hself ha with ⟨rfl, ha'⟩ | ⟨hac, ha'⟩
    · exact hrunning id ha'
    · change (r.thread _).running = true
      rw [hframe a _ hac ha']
      exact h.running a id ha'
  · intro a t ha hp
    rcases hself ha with ⟨rfl, ha'⟩ | ⟨hac, ha'⟩
    · exact hsettled t ha' (by simpa using hp)
    · change (r.thread _).cpu = a
      rw [hframe a _ hac ha']
      exact h.settled a t ha' (by simpa [hac] using hp)
  · intro a d ha
    rcases hself ha with ⟨rfl, ha'⟩ | ⟨hac, ha'⟩
    · exact hhasIdle d ha'
    · exact h.hasIdle a d ha'
  · intro a prev ha
    by_cases hac : a = c
    · subst hac
      simpa using hdistinct prev (by simpa using ha)
    · simpa [hac] using h.distinct a prev (by simpa [hac] using ha)
  · intro a cpu ha
    by_cases hac : a = c
    · subst hac
      exact hlocal cpu (by simpa using ha)
    · exact h.localCpu a cpu (by simpa [hac] using ha)

theorem inv_phase (h : Inv s) (hown : ∀ t, Own cur p t → Occupies s c t)
    (hsettled : ∀ t, Own cur p t → p.pending? ≠ some t → (s.thread t).cpu = c)
    (hdistinct : ∀ prev, p = .switched prev → prev ≠ cur)
    (hlocal : ∀ cpu, p.cpu? = some cpu → cpu = c) :
    Inv { s with current := update s.current c cur, phase := update s.phase c p } := by
  refine inv_cpu h ?_ (fun _ _ _ _ => rfl) ?_ hsettled ?_ hdistinct hlocal
    (fun d => ⟨h.idleCpu d, h.idleApp d⟩) h.idleQueue
  · intro t ht d hd hocc
    exact hd (h.exclusive d c t hocc (hown t ht))
  · intro id ht
    exact h.running c id (hown _ ht)
  · intro d ht
    exact h.hasIdle c d (hown _ ht)

theorem setPhase_eq (r : Ready) (p : Phase) : setPhase { s with toReady := r } c p =
    { s with
      toReady := r
      current := update s.current c (s.current c)
      phase := update s.phase c p } := by
  simp [setPhase]

theorem own_iff_of_no_next (hp : p.next? = none) (hs : ∀ u, p ≠ .switched u) :
    Own cur p t ↔ t = cur := by
  simp [Own, hp, hs t]

section

variable (h : Inv s)

include h

section

variable (hnone : (s.phase c).pending? = none)

include hnone

theorem inv_next (hfree : ∀ d, d ≠ c → ¬ Occupies s d next) (hidle : ∀ d, next = .idle d → c = d)
    (hothers : ∀ t, t ≠ next → r.thread t = s.thread t)
    (hrunning : ∀ id, next = .task id → (r.thread next).running = true)
    (hsame : (r.thread next).cpu = (s.thread next).cpu ∧
    (r.thread next).appsched = (s.thread next).appsched)
    (hqueue : ∀ d, Tid.idle d ∉ r.readyQueue) :
    Inv (setPhase { s with toReady := r } c (.picked c next)) := by
  have hown : ∀ t, Own (s.current c) (.picked c next) t → t = s.current c ∨ t = next := by
    rintro t (ht | ht | ht)
    · exact .inl ht
    · exact .inr (Option.some.inj ht).symm
    · cases ht
  rw [setPhase_eq]
  refine inv_cpu h ?_ ?_ ?_ ?_ ?_ (by simp) ?_ ?_ hqueue
  · intro t ht d hd hocc
    rcases hown t ht with rfl | rfl
    · exact hd (h.exclusive d c _ hocc occupies_current)
    · exact hfree d hd hocc
  · intro d t hd hocc
    apply hothers
    rintro rfl
    exact hfree d hd hocc
  · intro id ht
    by_cases he : Tid.task id = next
    · rw [he]
      exact hrunning id he.symm
    · rw [hothers _ he]
      exact h.running c id (.inl ((hown _ ht).resolve_right he))
  · intro t ht hp
    have hne : t ≠ next := by
      rintro rfl
      exact hp rfl
    rw [hothers t hne]
    exact h.settled c t (.inl ((hown t ht).resolve_right hne)) (by simp [hnone])
  · intro d ht
    rcases hown _ ht with he | he
    · exact h.hasIdle c d (.inl he)
    · exact hidle d he.symm
  · intro cpu hcpu
    exact (Option.some.inj hcpu).symm
  · intro d
    by_cases he : Tid.idle d = next
    · rw [he, hsame.1, hsame.2, ← he]
      exact ⟨h.idleCpu d, h.idleApp d⟩
    · rw [hothers _ he]
      exact ⟨h.idleCpu d, h.idleApp d⟩

theorem inv_picked (hfree : ∀ d, d ≠ c → ¬ Occupies s d next) (hidle : ∀ d, next = .idle d → c = d)
    (hthread : r.thread = update s.thread next { s.thread next with running := true })
    (hqueue : ∀ d, Tid.idle d ∉ r.readyQueue) :
    Inv (setPhase { s with toReady := r } c (.picked c next)) := by
  apply inv_next h hnone hfree hidle _ _ _ hqueue
  · intro t ht
    rw [hthread, update_of_ne ht]
  · intro id _
    rw [hthread, update_self]
  · rw [hthread, update_self]
    exact ⟨rfl, rfl⟩

theorem inv_down : Inv (setPhase s c (.picked c (.idle c))) := by
  have hfree : ∀ d, d ≠ c → ¬ Occupies s d (.idle c) := fun d hd hocc => hd (h.hasIdle d c hocc)
  exact inv_next h hnone hfree (fun d he => Tid.idle.inj he) (fun _ _ => rfl)
    (fun _ he => nomatch he)
    ⟨rfl, rfl⟩ h.idleQueue

end

theorem inv_ready
    (hthread : ∀ t, (r.thread t).running = (s.thread t).running ∧
    (r.thread t).cpu = (s.thread t).cpu ∧
      (r.thread t).appsched = (s.thread t).appsched)
    (hqueue : ∀ d, Tid.idle d ∉ r.readyQueue) : Inv { s with toReady := r } := by
  refine ⟨h.exclusive, ?_, ?_, h.hasIdle, h.distinct, h.localCpu, ?_, ?_, hqueue⟩
  · intro c id hocc
    exact (hthread _).1.trans (h.running c id hocc)
  · intro c t hocc hp
    exact (hthread t).2.1.trans (h.settled c t hocc hp)
  · intro c
    exact (hthread _).2.1.trans (h.idleCpu c)
  · intro c
    exact (hthread _).2.2.trans (h.idleApp c)

theorem inv_none (hnone : (s.phase c).pending? = none)
    (hthread : r.thread = s.thread) (hqueue : ∀ d, Tid.idle d ∉ r.readyQueue) :
    Inv (setPhase { s with toReady := r } c (.upcall c)) := by
  have hown : ∀ t, Own (s.current c) (.upcall c) t → t = s.current c :=
    fun t ht => (own_iff_of_no_next rfl (by simp)).mp ht
  have hphase := inv_phase (c := c) (p := .upcall c) h (fun t ht => .inl (hown t ht))
    (fun t ht _ => h.settled c t (.inl (hown t ht)) (by simp [hnone])) (by simp)
    (fun x hx => (Option.some.inj hx).symm)
  rw [setPhase_eq]
  refine inv_ready hphase (fun t => ?_) hqueue
  rw [hthread]
  exact ⟨rfl, rfl, rfl⟩

theorem rotate_idle (d : Nat) :
    Tid.idle d ∉ (s.toReady.rotate (s.current c) (.idle c)).readyQueue := by
  intro hmem
  rcases s.toReady.mem_rotate hmem with hq | ⟨he, hne⟩
  · exact h.idleQueue d hq
  · have hcd := h.hasIdle c d (.inl he)
    exact hne (by rw [← he, hcd])

theorem eligible_free (hmem : ∀ d, next ≠ .idle d) (helig : s.eligible c next = true)
    (hok : ∀ d, d ≠ c → ∀ x n, s.phase d = .picked x n ∨ s.phase d = .checked x n →
      (s.thread n).cpu ≠ c) : ∀ d, d ≠ c → ¬ Occupies s d next := by
  intro d hd hocc
  have hrun : (s.thread next).running = true := by
    cases next with
    | idle e => exact absurd rfl (hmem e)
    | task id => exact h.running d id hocc
  have hcpu : (s.thread next).cpu = c := by
    simp only [Ready.eligible, Bool.and_eq_true, hrun, Bool.true_and] at helig
    simpa using helig.1.2
  by_cases hp : (s.phase d).pending? = some next
  · cases hph : s.phase d with
    | picked x n =>
      rw [hph] at hp
      cases hp
      exact hok d hd x next (.inl hph) hcpu
    | checked x n =>
      rw [hph] at hp
      cases hp
      exact hok d hd x next (.inr hph) hcpu
    | running | entered | upcall | assigned | switched =>
      rw [hph] at hp
      cases hp
  · exact hd ((h.settled d next hocc hp).symm.trans hcpu)

theorem inv_entered (hph : s.phase c = .entered cpu) (hok : safeStep s (.schedule c app))
    (hs : schedule s c app = some u) : Inv u := by
  have hcpu : cpu = c := h.localCpu c cpu (by rw [hph]; rfl)
  subst hcpu
  have hnone : (s.phase cpu).pending? = none := by rw [hph]; rfl
  simp only [safeStep, hph] at hok
  simp only [schedule, hph] at hs
  split at hs
  · have hqueue := rotate_idle (c := cpu) h
    unfold Ready.pickThread at hs
    simp only at hs
    cases hfind : (s.toReady.rotate (s.current cpu) (.idle cpu)).readyQueue.find?
        ((s.toReady.rotate (s.current cpu) (.idle cpu)).eligible cpu) with
    | some next =>
      rw [hfind] at hs
      cases hs
      have hmem : ∀ d, next ≠ .idle d := by
        rintro d rfl
        exact hqueue d (mem_of_find?_eq_some hfind)
      have helig : s.eligible cpu next = true := by
        simpa [Ready.eligible] using find?_some hfind
      refine inv_picked h hnone (eligible_free h hmem helig hok) (fun d he => absurd he (hmem d)) ?_
        hqueue
      simp [Ready.setRunning, Ready.setThread]
    | none =>
      rw [hfind] at hs
      cases hs
      exact inv_none h hnone (Ready.rotate_thread ..) hqueue
  · cases hs
    exact inv_down h hnone

theorem inv_upcall (hph : s.phase c = .upcall cpu) (hok : safeStep s (.schedule c app))
    (hs : schedule s c app = some u) : Inv u := by
  have hcpu : cpu = c := h.localCpu c cpu (by rw [hph]; rfl)
  subst hcpu
  have hnone : (s.phase cpu).pending? = none := by rw [hph]; rfl
  simp only [safeStep, hph] at hok
  simp only [schedule, hph] at hs
  split at hs
  · cases hs
    refine inv_picked h hnone ?_ (fun d he => Tid.idle.inj he) rfl h.idleQueue
    intro d hd hocc
    exact hd (h.hasIdle d cpu hocc)
  · rename_i next happ
    have happ : app = some next := by
      split at happ
      · exact happ
      · cases happ
    obtain ⟨hsched, hfree⟩ := hok next happ
    split at hs <;> cases hs
    rename_i hbug
    refine inv_picked h hnone ?_ ?_ rfl h.idleQueue
    · -- the previous thread of another CPU still runs there
      rintro d hd (hocc | hocc | hocc)
      · exact hfree d hd (.inl hocc)
      · exact hfree d hd (.inr hocc)
      · have hocc' : Occupies s d next := .inr (.inr hocc)
        refine hbug ⟨?_, ?_⟩
        · cases next with
          | idle e =>
            rw [h.idleApp e] at hsched
            cases hsched
          | task id => exact h.running d id hocc'
        · rw [h.settled d next hocc' (by rw [hocc]; simp [Phase.pending?])]
          exact hd
    · rintro d rfl
      rw [h.idleApp d] at hsched
      cases hsched

theorem inv_checked (hph : s.phase c = .checked cpu next) :
    Inv (setPhase { s with toReady := s.setCpu next cpu } c (.assigned next)) := by
  have hcpu : cpu = c := h.localCpu c cpu (by rw [hph]; rfl)
  subst hcpu
  have hnext : Occupies s cpu next := .inr (.inl (by rw [hph]; rfl))
  have hown : ∀ t, Own (s.current cpu) (.assigned next) t → Occupies s cpu t := by
    rintro t (ht | ht | ht)
    · exact .inl ht
    · cases ht
      exact hnext
    · cases ht
  rw [setPhase_eq]
  refine inv_cpu h ?_ ?_ ?_ ?_ ?_ (by simp) ?_ ?_ h.idleQueue
  · intro t ht d hd hocc
    exact hd (h.exclusive d cpu t hocc (hown t ht))
  · intro d t hd hocc
    rw [Ready.setCpu_thread, if_neg]
    rintro rfl
    exact hd (h.exclusive d cpu t hocc hnext)
  · intro id ht
    rw [Ready.setCpu_thread]
    have := h.running cpu id (hown _ ht)
    split <;> exact this
  · intro t ht _
    rw [Ready.setCpu_thread]
    split
    · rfl
    · rename_i hne
      apply h.settled cpu t (hown t ht)
      rw [hph]
      exact fun he => hne (Option.some.inj he).symm
  · intro d ht
    exact h.hasIdle cpu d (hown _ ht)
  · intro x hx
    cases hx
  · intro d
    rw [Ready.setCpu_thread]
    split
    · rename_i he
      exact ⟨h.hasIdle cpu d (he ▸ hnext), h.idleApp d⟩
    · exact ⟨h.idleCpu d, h.idleApp d⟩

theorem inv_switched {prev : Tid} (hph : s.phase c = .switched prev) :
    Inv (setPhase { s with toReady := s.setRunning prev false } c .running) := by
  have hne := h.distinct c prev hph
  have hprev : Occupies s c prev := .inr (.inr hph)
  rw [setPhase_eq]
  refine inv_cpu h ?_ ?_ ?_ ?_ ?_ (by simp) (fun x hx => by cases hx) ?_ h.idleQueue
  · intro t ht d hd hocc
    rw [own_running ht] at hocc
    exact hd (h.exclusive d c _ hocc occupies_current)
  · intro d t hd hocc
    rw [Ready.setRunning_thread, if_neg]
    rintro rfl
    exact hd (h.exclusive d c t hocc hprev)
  · intro id ht
    rw [Ready.setRunning_thread, if_neg]
    · exact h.running c id (.inl (own_running ht))
    · rintro rfl
      exact hne (own_running ht)
  · intro t ht _
    rw [Ready.setRunning_thread]
    have := h.settled c t (.inl (own_running ht)) (by rw [hph]; simp [Phase.pending?])
    split <;> exact this
  · intro d ht
    exact h.hasIdle c d (.inl (own_running ht))
  · intro d
    rw [Ready.setRunning_thread]
    split <;> exact ⟨h.idleCpu d, h.idleApp d⟩

theorem inv_schedule (hok : safeStep s (.schedule c app))
    (hs : schedule s c app = some u) : Inv u := by
  cases hph : s.phase c with
  | running =>
    simp only [schedule, hph] at hs
    cases hs
    have hown : ∀ x t, Own (s.current c) (.entered x) t → t = s.current c :=
      fun x t ht => (own_iff_of_no_next rfl (by simp)).mp ht
    have hset : ∀ t, t = s.current c → (s.thread t).cpu = c :=
      fun t ht => h.settled c t (.inl ht) (by rw [hph]; simp [Phase.pending?])
    have := inv_phase (c := c) (p := .entered (s.thread (s.current c)).cpu) h
      (fun t ht => .inl (hown _ t ht)) (fun t ht _ => hset t (hown _ t ht)) (by simp)
        (fun x hx => by
        rw [← Option.some.inj hx]
        exact hset _ rfl)
    simpa [setPhase] using this
  | entered cpu => exact inv_entered h hph hok hs
  | upcall cpu => exact inv_upcall h hph hok hs
  | picked cpu next =>
    simp only [schedule, hph] at hs
    split at hs <;> cases hs
    have hocc : ∀ t, Own (s.current c) (.checked cpu next) t → Occupies s c t := by
      rintro t (ht | ht | ht)
      · exact .inl ht
      · exact .inr (.inl (by rw [hph]; exact ht))
      · cases ht
    have := inv_phase (c := c) (p := .checked cpu next) h hocc
      (fun t ht hp => h.settled c t (hocc t ht) (by rw [hph]; exact hp)) (by simp)
      (fun x hx => h.localCpu c x (by rw [hph]; exact hx))
    simpa [setPhase] using this
  | checked cpu next =>
    simp only [schedule, hph] at hs
    cases hs
    exact inv_checked h hph
  | assigned next =>
    have hnext : Occupies s c next := .inr (.inl (by rw [hph]; rfl))
    have hset : ∀ t, Occupies s c t → (s.thread t).cpu = c :=
      fun t ht => h.settled c t ht (by rw [hph]; simp [Phase.pending?])
    simp only [schedule, hph] at hs
    split at hs
    · cases hs
      have hocc : ∀ t, Own (s.current c) .running t → Occupies s c t :=
        fun t ht => .inl (own_running ht)
      have := inv_phase (c := c) (p := .running) h hocc (fun t ht _ => hset t (hocc t ht)) (by simp)
        (fun x hx => by cases hx)
      simpa [setPhase] using this
    · rename_i hne
      cases hs
      have hocc : ∀ t, Own next (.switched (s.current c)) t → Occupies s c t := by
        rintro t (ht | ht | ht)
        · rw [ht]
          exact hnext
        · cases ht
        · exact .inl (Phase.switched.inj ht).symm
      have := inv_phase (c := c) (p := .switched (s.current c)) h hocc
        (fun t ht _ => hset t (hocc t ht))
        (fun prev he => by rw [← Phase.switched.inj he]; exact hne) (fun x hx => by cases hx)
      exact this
  | switched prev =>
    simp only [schedule, hph] at hs
    cases hs
    exact inv_switched h hph

end

theorem setRunnable_flags (r : Ready) (t u : Tid) (b : Bool) :
    ((r.setRunnable t b).thread u).running = (r.thread u).running ∧
    ((r.setRunnable t b).thread u).cpu = (r.thread u).cpu ∧
    ((r.setRunnable t b).thread u).appsched = (r.thread u).appsched := by
  rw [Ready.setRunnable_thread]
  split <;> exact ⟨rfl, rfl, rfl⟩

theorem inv_step (h : Inv s) {a : Label} (hok : safeStep s a) (hs : step s a = some u) :
    Inv u := by
  cases a with
  | schedule c app => exact inv_schedule h hok hs
  | block id =>
    cases hs
    unfold Ready.block
    split
    · split
      · exact inv_ready h (fun t => setRunnable_flags ..) h.idleQueue
      · refine inv_ready h (fun t => setRunnable_flags ..) fun d hd => ?_
        exact h.idleQueue d (mem_of_mem_filter hd)
    · exact h
  | wake id =>
    cases hs
    unfold Ready.dbWake
    split
    · exact inv_ready h (fun t => setRunnable_flags ..) h.idleQueue
    · split
      · exact h
      · refine inv_ready h (fun t => setRunnable_flags ..) fun d hd => ?_
        rcases mem_append.mp hd with hd | hd
        · exact h.idleQueue d hd
        · cases mem_singleton.mp hd
  | cpuState c up =>
    cases hs
    exact { h with }

/-- No thread is current or chosen on two CPUs, in every run in which no CPU picks while another one
is about to move a thread away from it. -/
theorem one_cpu (s : State) (h : Reach step safeStep Initial s) : OneCpu s := by
  refine oneCpu_of_inv (h.invariant (fun _ => inv_initial) ?_)
  intro s a u hi hok hs
  exact inv_step hi hok hs

def boot : State where
  thread
    | .idle c => ⟨false, true, false, false, false, false, false, true, false, c⟩
    | .task _ => ⟨false, false, false, false, false, false, false, true, false, noCpu⟩
  readyQueue := []
  upcallsActive := false
  current := .idle
  phase := fun _ => .running
  cpuUp := fun _ => true

theorem boot_initial : Initial boot :=
  ⟨fun _ => rfl, fun _ => rfl, fun _ => rfl, fun _ => rfl, fun _ => not_mem_nil⟩

theorem one_cpu_first_pick : ∃ s, s.phase 1 = .picked 1 (.task 0) ∧ OneCpu s := by
  have h₀ : Reach step safeStep Initial boot := .start boot_initial
  have h₁ := Reach.next (Label.wake 0) h₀ trivial rfl
  have h₂ := Reach.next (Label.schedule 1 none) h₁ trivial rfl
  have hok : ∀ d, d ≠ 1 → ∀ x next,
      update boot.phase 1 (.entered 1) d = .picked x next ∨
        update boot.phase 1 (.entered 1) d = .checked x next →
      ((boot.dbWake (.task 0)).thread next).cpu ≠ 1 := by
    intro d hd x next h
    simp [update_of_ne hd, boot] at h
  have h₃ := Reach.next (Label.schedule 1 none) h₂ hok rfl
  exact ⟨_, rfl, one_cpu _ h₃⟩

/-- A thread that last ran on CPU 1 is woken; CPU 0 picks it, and before it writes `cpu` CPU 1 picks
it as well. -/
theorem picked_on_two_cpus : ¬ ∀ s, Reach step anyStep Initial s → OneCpu s := by
  intro hall
  let run1 (n : Nat) : List Label := replicate n (.schedule 1 none)
  have hboot : Reach step anyStep Initial boot := .start boot_initial
  obtain ⟨s, hs, h₀, h₁⟩ := hboot.runTo
    (P := fun s => s.phase 0 = .picked 0 (.task 0) ∧ s.phase 1 = .picked 1 (.task 0))
    ([.wake 0] ++ run1 6 ++ [.block 0] ++ run1 7 ++ [.wake 0, .schedule 0 none, .schedule 0 none]
      ++ run1 2)
    (by decide +kernel)
  have hone := hall s hs 0 1 (.task 0)
  exact absurd (hone (.inr (by rw [h₀]; rfl)) (.inr (by rw [h₁]; rfl))) (by decide)

end Guk.SchedCpu
