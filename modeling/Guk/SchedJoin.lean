import Guk.SchedQueueInv

/-!
# Joining a thread that exits (`sched.c`)

`guk_join_thread` asks under `zombie_lock` whether the thread that calls it is dying.
`exit_thread` marks its thread dying and wakes the joiners in one section.
The steps are those of `Guk.SchedQueue`, where a section under `zombie_lock` is cut at
the points at which other locks are taken.
-/
namespace Guk.SchedQueue

open Runs Sched Function Option

def Waking (s : State) (j : Tid) : Prop :=
  s.zombieLock = .waking j ∨ ∃ t, s.zombieLock = .wakeOne j t

structure JoinsEnd (s : State) : Prop where
  /-- a join whose section starts when the joinee is dying does not block -/
  prompt : ∀ t j, s.pc t = .joinLink j → (s.thread j).dying = false
  /-- when a dying thread has gone through `wake_joiners`, nobody joins it any more -/
  woken : ∀ j, (s.thread j).dying = true → ¬ Waking s j → ∀ t, (s.thread t).joining = true →
    t ∉ s.joiners j

def timelyStep (s : State) (a : Label) : Prop :=
  safeStep s a ∧ ∀ t j, a = .join t j → (s.thread j).dying = false

structure Ended (s : State) : Prop where
  linking : ∀ t j, s.pc t = .joinLink j → (s.thread j).dying = false ∧ s.zombieLock = .joining
  single : ∀ t t' j j', s.pc t = .joinLink j → s.pc t' = .joinLink j' → t = t'
  emptied : ∀ j, (s.thread j).dying = true → Waking s j ∨ s.joiners j = []

variable {s u : State} {a : Label} {t j : Tid} {r : Ready}

theorem joinsEnd_of_ended (h : Ended s) : JoinsEnd s := by
  refine ⟨fun t j ht => (h.linking t j ht).1, ?_⟩
  intro j hdying hnot t _ hmem
  have hnil := (h.emptied j hdying).resolve_left hnot
  rw [hnil] at hmem
  cases hmem

theorem ended_of_none (hnone : ∀ t j, s.pc t ≠ .joinLink j)
    (hemptied : ∀ j, (s.thread j).dying = true → Waking s j ∨ s.joiners j = []) : Ended s where
  linking t j ht := absurd ht (hnone t j)
  single t _ j _ ht _ := absurd ht (hnone t j)
  emptied := hemptied

theorem ended_initial (h : Initial s) : Ended s := by
  apply ended_of_none
  · intro t j ht
    rw [h.pc t] at ht
    cases ht
  · intro j _
    exact .inr (h.joiners j)

theorem setPc_pc (s : State) (t x : Nat) (pc : Pc) :
    (setPc s t pc).pc x = if x = t then pc else s.pc x := by
  simp [setPc, update_apply]

/-! ## Steps that leave dying threads and the lock alone -/

theorem gukWake_dying {r' : Ready} (h : r.gukWake t = some r') (x : Tid) :
    (r'.thread x).dying = (r.thread x).dying := by
  unfold Ready.gukWake at h
  split at h
  · cases h
    rfl
  · split at h
    · cases h
      rw [Ready.setThread_thread]
      split
      case isTrue hx => rw [hx]
      case isFalse => rfl
    · split at h
      · cases h
      · split at h
        · cases h
          rw [Ready.dbWake_thread]
          split <;> rfl
        · cases h
          rfl

theorem pickThread_dying (r : Ready) (prev idle : Tid) (cpu : Nat) (x : Tid) :
    ((r.pickThread prev idle cpu).1.thread x).dying = (r.thread x).dying := by
  unfold Ready.pickThread
  simp only
  split
  · rw [Ready.setRunning_thread, Ready.rotate_thread]
    split <;> rfl
  · rw [Ready.rotate_thread]

theorem setThread_dying {th : Thread} (h : th.dying = (r.thread t).dying) (x : Tid) :
    ((r.setThread t th).thread x).dying = (r.thread x).dying := by
  rw [Ready.setThread_thread]
  split
  case isTrue hx =>
    rw [hx]
    exact h
  case isFalse => rfl

section

variable (h : Ended s)

include h

theorem ended_frame (hdying : ∀ x, (u.thread x).dying = (s.thread x).dying)
    (hjoiners : ∀ j, s.joiners j = [] → u.joiners j = []) (hlock : u.zombieLock = s.zombieLock)
    (hpc : ∀ x j, u.pc x = .joinLink j → s.pc x = .joinLink j) : Ended u := by
  refine ⟨?_, fun x y i j hx hy => h.single x y i j (hpc x i hx) (hpc y j hy), ?_⟩
  · intro x j hx
    rw [hdying, hlock]
    exact h.linking x j (hpc x j hx)
  · intro j hj
    rw [hdying] at hj
    unfold Waking
    rw [hlock]
    exact (h.emptied j hj).imp_right (hjoiners j)

theorem ended_ready (hdying : ∀ x, (r.thread x).dying = (s.thread x).dying) :
    Ended { s with toReady := r } :=
  ended_frame h hdying (fun _ => id) rfl fun _ _ => id

theorem ended_wake (hw : wake s t = some u) : Ended u := by
  obtain ⟨r, hr, rfl⟩ := map_eq_some_iff.mp hw
  exact ended_ready h (gukWake_dying hr)

theorem ended_setPc {x : Nat} {pc : Pc} (hpc : ∀ j, pc ≠ .joinLink j) : Ended (setPc s x pc) := by
  have hlinking : ∀ y j, (setPc s x pc).pc y = .joinLink j → s.pc y = .joinLink j := by
    intro y j hy
    rw [setPc_pc] at hy
    split at hy
    · exact absurd hy (hpc j)
    · exact hy
  exact ended_frame h (fun _ => rfl) (fun _ => id) rfl hlinking

theorem ended_block (t : Tid) : Ended { s with toReady := s.block t } := by
  apply ended_ready h
  intro x
  rw [Ready.block_thread]
  split <;> rfl

theorem ended_unlink (t : Tid) : Ended (unlink s t) := by
  have hjoiners : ∀ j, s.joiners j = [] → (unlink s t).joiners j = [] := by
    intro j hj
    simp only [unlink, hj, List.filter_nil]
  exact ended_frame h (fun _ => rfl) hjoiners rfl fun _ _ => id

end

theorem setJoining_dying (s : State) (t : Tid) (b : Bool) :
    ∀ x, ((setJoining s t b).thread x).dying = (s.thread x).dying := setThread_dying rfl

theorem ended_setJoining (h : Ended s) (t : Tid) (b : Bool) : Ended (setJoining s t b) :=
  ended_ready h (setJoining_dying s t b)

theorem ended_setInterrupt (h : Ended s) (k : Nat) (i : Interrupt) : Ended (setInterrupt s k i) :=
  ended_frame h (fun _ => rfl) (fun _ => id) rfl fun _ _ => id

theorem ended_armed (h : Ended s) (armed : Nat → Bool) : Ended { s with armed } :=
  ended_frame h (fun _ => rfl) (fun _ => id) rfl fun _ _ => id

/-! ## The sections under `zombie_lock` -/

theorem not_linking (h : Ended s) (hfree : s.zombieLock = .free) (t : Nat) (j : Tid) :
    s.pc t ≠ .joinLink j := by
  intro ht
  have hlock := (h.linking t j ht).2
  rw [hfree] at hlock
  cases hlock

theorem joiners_nil (h : Ended s) (hlock : s.zombieLock = .free ∨ s.zombieLock = .joining)
    (hj : (s.thread j).dying = true) : s.joiners j = [] := by
  rcases h.emptied j hj with (hw | ⟨t, hw⟩) | hnil
  · rw [hw] at hlock
    exact absurd hlock (by simp)
  · rw [hw] at hlock
    exact absurd hlock (by simp)
  · exact hnil

theorem ended_join {t : Nat} (h : Ended s) (hfree : s.zombieLock = .free)
    (hj : (s.thread j).dying = false) :
    Ended (setPc { s with toReady := s.block (.task t), zombieLock := .joining } t
      (.joinLink j)) := by
  have hdying : ∀ x, ((s.block (.task t)).thread x).dying = (s.thread x).dying := by
    intro x
    rw [Ready.block_thread]
    split <;> rfl
  have honly :
    ∀ x i, (setPc { s with toReady := s.block (.task t), zombieLock := .joining } t
    (.joinLink j)).pc x =
      .joinLink i → x = t ∧ i = j := by
    intro x i hx
    rw [setPc_pc] at hx
    split at hx
    case isTrue hxt =>
      cases hx
      exact ⟨hxt, rfl⟩
    case isFalse => exact absurd hx (not_linking h hfree x i)
  refine ⟨?_, ?_, ?_⟩
  · intro x i hx
    obtain ⟨-, rfl⟩ := honly x i hx
    exact ⟨(hdying i).trans hj, rfl⟩
  · intro x y i k hx hy
    rw [(honly x i hx).1, (honly y k hy).1]
  · intro i hi
    have hnil := joiners_nil h (.inl hfree) ((hdying i).symm.trans hi)
    exact .inr hnil

theorem ended_joinLink {t : Nat} (h : Ended s) (ht : s.pc t = .joinLink j) :
    Ended (setPc { addJoiner (setJoining s (.task t) true) j (.task t) with zombieLock := .free } t
      (.joinWait j)) := by
  obtain ⟨hj, hlock⟩ := h.linking t j ht
  -- the thread that links itself was the only one between the two parts
  have hnone :
    ∀ x i, (setPc { addJoiner (setJoining s (.task t) true) j (.task t) with zombieLock := .free } t
      (.joinWait j)).pc x ≠ .joinLink i := by
    intro x i hx
    rw [setPc_pc] at hx
    split at hx
    case isTrue => cases hx
    case isFalse hxt => exact hxt (h.single x t i j hx ht)
  refine ended_of_none (fun x i => hnone x i) ?_
  intro i hi
  have hi' := (setJoining_dying s (.task t) true i).symm.trans hi
  have hne : i ≠ j := by
    rintro rfl
    rw [hj] at hi'
    cases hi'
  have hnil := joiners_nil h (.inr hlock) hi'
  refine .inr ?_
  simp only [setPc, addJoiner, update_of_ne hne]
  exact hnil

theorem ended_startWakeJoiners (hnone : ∀ x i, s.pc x ≠ .joinLink i)
    (hothers : ∀ i, i ≠ t → (s.thread i).dying = true → s.joiners i = []) :
    Ended (startWakeJoiners s t) := by
  refine ended_of_none (fun x i => hnone x i) ?_
  intro i hi
  by_cases hit : i = t
  · subst hit
    by_cases hnil : s.joiners i = []
    · exact .inr hnil
    · exact .inl (.inl (if_neg hnil))
  · exact .inr (hothers i hit hi)

theorem ended_exitLink {t : Nat} (h : Ended s) (hfree : s.zombieLock = .free) :
    Ended (startWakeJoiners (setPc
      { setDying s (.task t) with zombieQueue := s.zombieQueue ++ [.task t] } t .exited)
        (.task t)) := by
  apply ended_startWakeJoiners
  · intro x i hx
    rw [setPc_pc] at hx
    split at hx
    · cases hx
    · exact not_linking h hfree x i hx
  · intro i hne hi
    have hsame : ((setDying s (.task t)).thread i).dying = (s.thread i).dying := by
      simp only [setDying, Ready.setThread_thread, if_neg hne]
    have hnil := joiners_nil h (.inl hfree) (hsame.symm.trans hi)
    exact hnil

theorem ended_reap (h : Ended s) (hfree : s.zombieLock = .free) :
    Ended (startWakeJoiners { unlink s t with reaped := update s.reaped t true } t) := by
  have hunlink := ended_unlink h t
  have hnone := not_linking h hfree
  have hnil : ∀ i, (s.thread i).dying = true → (unlink s t).joiners i = [] :=
    fun i => joiners_nil hunlink (.inl hfree)
  exact ended_startWakeJoiners hnone fun i _ => hnil i

theorem ended_stepWakeJoiners (h : Ended s) (hs : stepWakeJoiners s = some u) : Ended u := by
  have hlocked : ∀ {x i}, s.pc x = .joinLink i → s.zombieLock = .joining :=
    fun hx => (h.linking _ _ hx).2
  unfold stepWakeJoiners at hs
  cases hlock : s.zombieLock with
  | free | joining =>
    rw [hlock] at hs
    cases hs
  | waking j =>
    have hnone : ∀ x i, s.pc x ≠ .joinLink i := by
      intro x i hx
      exact absurd (hlock.symm.trans (hlocked hx)) nofun
    have hothers : ∀ i, i ≠ j → (s.thread i).dying = true → s.joiners i = [] := by
      intro i hne hi
      rcases h.emptied i hi with (hw | ⟨x, hw⟩) | hnil
      · exact absurd (ZombieLock.waking.inj (hw.symm.trans hlock)) hne
      · exact absurd (hw.symm.trans hlock) nofun
      · exact hnil
    simp only [hlock] at hs
    cases hjoiners : s.joiners j with
    | nil =>
      simp only [hjoiners, some.injEq] at hs
      subst hs
      refine ended_of_none (fun x i => hnone x i) ?_
      intro i hi
      by_cases hij : i = j
      · exact .inr (hij ▸ hjoiners)
      · exact .inr (hothers i hij hi)
    | cons t rest =>
      simp only [hjoiners, some.injEq] at hs
      subst hs
      refine ended_of_none (fun x i => hnone x i) ?_
      intro i hi
      by_cases hij : i = j
      · exact .inl (.inr ⟨t, by rw [hij]⟩)
      · have hnil := hothers i hij ((setJoining_dying s t false i).symm.trans hi)
        refine .inr ?_
        change (s.joiners i).filter _ = []
        rw [hnil, List.filter_nil]
  | wakeOne j t =>
    simp only [hlock] at hs
    obtain ⟨v, hv, rfl⟩ := map_eq_some_iff.mp hs
    have hended := ended_wake h hv
    obtain ⟨r, hr, rfl⟩ := map_eq_some_iff.mp hv
    refine ⟨?_, hended.single, ?_⟩
    · intro x i hx
      exact absurd (hlock.symm.trans (hlocked hx)) nofun
    · intro i hi
      rcases hended.emptied i hi with (hw | ⟨x, hw⟩) | hnil
      · exact absurd (hw.symm.trans hlock) nofun
      · obtain ⟨rfl, -⟩ := ZombieLock.wakeOne.inj (hw.symm.trans hlock)
        exact .inl (.inl rfl)
      · exact .inr hnil

theorem ended_stepInterrupt {k : Nat} (h : Ended s) (hs : stepInterrupt s k = some u) :
    Ended u := by
  unfold stepInterrupt at hs
  cases hi : s.interrupt k with
  | idle =>
    rw [hi] at hs
    cases hs
  | unlink t =>
    simp only [hi] at hs
    obtain ⟨-, rfl⟩ := of_when hs
    exact ended_setInterrupt (ended_setJoining (ended_unlink h t) t false) k _
  | wake t =>
    simp only [hi] at hs
    obtain ⟨v, hv, rfl⟩ := map_eq_some_iff.mp hs
    have hmarked : Ended (setInterrupted s t) := ended_ready h (setThread_dying rfl)
    exact ended_setInterrupt (ended_wake hmarked hv) k .idle

theorem ended_step (h : Ended s) (hok : timelyStep s a) (hs : step s a = some u) : Ended u := by
  cases a with
  | block t | exit t =>
    obtain ⟨-, rfl⟩ := of_when hs
    exact ended_setPc (ended_block h _) (by simp)
  | resume t =>
    obtain ⟨-, hs⟩ := ite_none_right_eq_some.mp hs
    split at hs <;> cases hs
    · exact ended_setPc h (by simp)
    · exact ended_setPc h (by simp)
  | wake t => exact ended_wake h hs
  | dbWake t =>
    cases hs
    apply ended_ready h
    intro x
    rw [Ready.dbWake_thread]
    split <;> rfl
  | addTimer t =>
    obtain ⟨-, rfl⟩ := of_when hs
    exact ended_armed h _
  | wakeExpired t =>
    obtain ⟨-, hs⟩ := ite_none_right_eq_some.mp hs
    obtain ⟨v, hv, rfl⟩ := map_eq_some_iff.mp hs
    exact ended_armed (ended_wake h hv) _
  | pick cpu prev =>
    cases hs
    exact ended_ready h (pickThread_dying s.toReady _ _ cpu)
  | clearRunning t | setCpu t cpu =>
    cases hs
    exact ended_ready h (setThread_dying rfl)
  | join t j =>
    obtain ⟨⟨-, hfree, -⟩, rfl⟩ := of_when hs
    exact ended_join h hfree (hok.2 t j rfl)
  | joinLink t =>
    simp only [step] at hs
    split at hs <;> cases hs
    exact ended_joinLink h ‹_›
  | exitLink t =>
    obtain ⟨⟨-, hfree⟩, rfl⟩ := of_when hs
    exact ended_exitLink h hfree
  | wakeJoiners => exact ended_stepWakeJoiners h hs
  | reap cpu t =>
    obtain ⟨⟨hfree, -⟩, rfl⟩ := of_when hs
    exact ended_reap h hfree
  | interrupt k t =>
    obtain ⟨-, rfl⟩ := of_when hs
    exact ended_setInterrupt h k _
  | interruptStep k => exact ended_stepInterrupt h hs

/-- In every run in which a join finds its joinee alive, nobody is left waiting for a thread that
has gone. -/
theorem joins_end (s : State) (h : Reach step timelyStep Initial s) : JoinsEnd s := by
  refine joinsEnd_of_ended (h.invariant (fun _ => ended_initial) ?_)
  intro s a u hi hok hs
  exact ended_step hi hok hs

theorem joins_end_woken : ∃ s, (s.thread (.task 1)).dying = true ∧ s.pc 0 = .joinWait (.task 1) ∧
    (s.thread (.task 0)).runnable = true ∧ JoinsEnd s := by
  have hw₀ : Wakeable noThreads (.task 0) := ⟨rfl, rfl, fun _ _ => ⟨nofun, nofun⟩⟩
  have h₀ : Reach step timelyStep Initial noThreads := .start noThreads_initial
  have h₁ := Reach.next (Label.wake 0) h₀ ⟨hw₀, nofun⟩ rfl
  have h₂ := Reach.next (Label.resume 0) h₁ ⟨trivial, nofun⟩ rfl
  have h₃ :=
    Reach.next (Label.wake 1) h₂ ⟨⟨rfl, rfl, fun _ h => by cases h; exact ⟨nofun, nofun⟩⟩, nofun⟩
    rfl
  have h₄ := Reach.next (Label.resume 1) h₃ ⟨trivial, nofun⟩ rfl
  have h₅ := Reach.next (Label.join 0 (.task 1)) h₄ ⟨trivial, fun _ _ h => by cases h; rfl⟩ rfl
  have h₆ := Reach.next (Label.joinLink 0) h₅ ⟨trivial, nofun⟩ rfl
  have h₇ := Reach.next (Label.exit 1) h₆ ⟨trivial, nofun⟩ rfl
  have h₈ := Reach.next (Label.exitLink 1) h₇ ⟨trivial, nofun⟩ rfl
  have h₉ := Reach.next Label.wakeJoiners h₈ ⟨trivial, nofun⟩ rfl
  have h₁₀ := Reach.next Label.wakeJoiners h₉
    ⟨⟨rfl, rfl, fun _ h => by cases h; exact ⟨nofun, nofun⟩⟩, nofun⟩ rfl
  have h₁₁ := Reach.next Label.wakeJoiners h₁₀ ⟨trivial, nofun⟩ rfl
  exact ⟨_, rfl, rfl, rfl, joins_end _ h₁₁⟩

theorem joined_too_late : ∃ s, Reach step anyStep Initial s ∧ ¬ JoinsEnd s := by
  have h₀ : Reach step anyStep Initial noThreads := .start noThreads_initial
  obtain ⟨s, hs, hdying, hlock, hjoin, hmem⟩ := h₀.runTo
    (P := fun s => (s.thread (.task 1)).dying = true ∧ s.zombieLock = .free ∧
      (s.thread (.task 0)).joining = true ∧ .task 0 ∈ s.joiners (.task 1))
    [.wake 0, .resume 0, .wake 1, .resume 1, .exit 1, .exitLink 1, .join 0 (.task 1), .joinLink 0]
      (by decide)
  refine ⟨s, hs, fun hend => ?_⟩
  have hnot : ¬ Waking s (.task 1) := by simp [Waking, hlock]
  exact hend.woken (.task 1) hdying hnot (.task 0) hjoin hmem

end Guk.SchedQueue
