import Guk.Links
import Guk.SchedQueue

/-!
# Every thread is in the list its flags name

The invariant of `Guk.SchedQueue`: the three kinds of lists are linked
(`Guk.Links`), and the list a thread is in is the one its flags name.
-/
namespace Guk.SchedQueue

open Links (Linked linked_unlink linked_append unlink_eq)
open Runs Sched Function

inductive Where where
  | ready
  | zombie
  | joiners (joinee : Tid)
  deriving DecidableEq, Repr

def lists (s : State) : Where → List Tid
  | .ready => s.readyQueue
  | .zombie => s.zombieQueue
  | .joiners j => s.joiners j

/-- The flags of a thread that say which list it is in. -/
structure Flags where
  runnable : Bool
  joining : Bool
  dying : Bool
  reaped : Bool

def Flags.off : Flags := ⟨false, false, false, false⟩

def flags (s : State) (t : Tid) : Flags :=
  ⟨(s.thread t).runnable, (s.thread t).joining, (s.thread t).dying, s.reaped t⟩

/-- Where thread `t` is when it has these flags; `app` says that the application schedules it. -/
inductive Placed (t : Tid) (app : Bool) : Flags → Option Where → Prop where
  | off : Placed t app .off none
  | ready (task : IsTask t) :
      Placed t app ⟨true, false, false, false⟩ (if app then none else some .ready)
  | joiner (task : IsTask t) (j : Tid) :
      Placed t app ⟨false, true, false, false⟩ (some (.joiners j))
  | zombie (task : IsTask t) (reaped : Bool) :
    Placed t app ⟨false, false, true, reaped⟩ (if reaped then none else some .zombie)

def AllPlaced (s : State) : Prop :=
  ∃ loc, Linked (lists s) loc ∧ ∀ t, Placed t (s.appScheduled t) (flags s t) (loc t)

def Pc.linking (pc : Pc) : Prop := pc = .exitLink ∨ ∃ j, pc = .joinLink j

structure Inv (s : State) : Prop where
  placed : AllPlaced s
  normal : ∀ t, s.pc t = .normal → (flags s (.task t)).runnable = true
  linking : ∀ t, (s.pc t).linking → flags s (.task t) = .off
  interrupts : ∀ k t, s.interrupt k = .unlink t ∨ s.interrupt k = .wake t → IsTask t
  waking : ∀ j t, s.zombieLock = .wakeOne j t → IsTask t

variable {s s' u : State} {w : Option Where} {t : Tid} {th : Thread} {app : Bool} {f : Flags}

/-! ## What the flags say -/

section

variable (h : Placed t app f w)

include h

theorem Placed.ready_iff : w = some .ready ↔ f.runnable = true ∧ app = false ∧ IsTask t := by
  cases h with
  | ready htask => cases app <;> simp [htask]
  | zombie _ reaped => cases reaped <;> simp
  | _ => simp [Flags.off]

theorem Placed.joiner_iff : (∃ j, w = some (.joiners j)) ↔ f.joining = true := by
  cases h with
  | ready => cases app <;> simp
  | zombie _ reaped => cases reaped <;> simp
  | _ => simp [Flags.off]

theorem Placed.zombie_iff : w = some .zombie ↔ f.dying = true ∧ f.reaped = false := by
  cases h with
  | ready => cases app <;> simp
  | zombie _ reaped => cases reaped <;> simp
  | _ => simp [Flags.off]

theorem Placed.of_runnable (hf : f.runnable = true) :
    IsTask t ∧ f = ⟨true, false, false, false⟩ := by
  cases h with
  | ready htask => exact ⟨htask, rfl⟩
  | _ => cases hf

theorem Placed.of_joining (hf : f.joining = true) : IsTask t ∧ f = ⟨false, true, false, false⟩ := by
  cases h with
  | joiner htask => exact ⟨htask, rfl⟩
  | _ => cases hf

theorem Placed.of_dying (hf : f.dying = true) : IsTask t ∧ f = ⟨false, false, true, f.reaped⟩ := by
  cases h with
  | zombie htask => exact ⟨htask, rfl⟩
  | _ => cases hf

/-- A thread in no list of `zombie_lock` is in the ready queue or in none. -/
theorem Placed.of_alive (hjoin : f.joining = false) (hdying : f.dying = false) :
    f = ⟨f.runnable, false, false, false⟩ ∧
      w = if f.runnable && !app then some .ready else none := by
  cases h with
  | off => exact ⟨rfl, rfl⟩
  | ready => cases app <;> exact ⟨rfl, rfl⟩
  | joiner => cases hjoin
  | zombie => cases hdying

end

theorem queueMembership_of_inv (h : Inv s) : QueueMembership s := by
  obtain ⟨loc, hl, hp⟩ := h.placed
  have hready : ∀ t, t ∈ s.readyQueue ↔ loc t = some .ready := hl.mem .ready
  have hzombie : ∀ t, t ∈ s.zombieQueue ↔ loc t = some .zombie := hl.mem .zombie
  have hjoin : ∀ j t, t ∈ s.joiners j ↔ loc t = some (.joiners j) := fun j => hl.mem (.joiners j)
  refine ⟨hl.nodup .ready, hl.nodup .zombie, fun j => hl.nodup (.joiners j), ?_, ?_, ?_, ?_, ?_, ?_,
    ?_⟩
  · intro t i j hi hj
    rw [hjoin] at hi hj
    cases hi.symm.trans hj
    rfl
  · intro t j hr hj
    rw [hready] at hr
    rw [hjoin] at hj
    cases hr.symm.trans hj
  · intro t hr hz
    rw [hready] at hr
    rw [hzombie] at hz
    cases hr.symm.trans hz
  · intro t j hj hz
    rw [hjoin] at hj
    rw [hzombie] at hz
    cases hj.symm.trans hz
  · intro t
    rw [hready]
    exact (hp t).ready_iff
  · intro t
    simp only [hjoin]
    exact (hp t).joiner_iff
  · intro t
    rw [hzombie]
    exact (hp t).zombie_iff

theorem inv_initial (h : Initial s) : Inv s := by
  refine ⟨⟨fun _ => none, ⟨?_, ?_⟩, ?_⟩, ?_, ?_, ?_, ?_⟩
  · intro k
    cases k <;> simp [lists, h.readyQueue, h.zombieQueue, h.joiners]
  · intro k x
    cases k <;> simp [lists, h.readyQueue, h.zombieQueue, h.joiners]
  · intro t
    obtain ⟨hr, hj, hd⟩ := h.flags t
    rw [flags, hr, hj, hd, h.reaped t]
    exact .off
  · intro t ht
    rw [h.pc t] at ht
    cases ht
  · rintro t (ht | ⟨j, ht⟩) <;> rw [h.pc t] at ht <;> cases ht
  · rintro k t (hk | hk) <;> rw [h.interrupt k] at hk <;> cases hk
  · intro j t ht
    rw [h.zombieLock] at ht
    cases ht

/-! ## Moving one thread -/

theorem flags_setThread (s : State) (t : Tid) (th : Thread) :
    flags { s with toReady := s.setThread t th } =
    update (flags s) t ⟨th.runnable, th.joining, th.dying, s.reaped t⟩ := by
  funext u
  by_cases hu : u = t
  · subst hu
    simp [flags, Ready.setThread]
  · simp [flags, Ready.setThread, hu]

theorem flags_setJoining (s : State) (t : Tid) (b : Bool) :
    flags (setJoining s t b) = update (flags s) t { flags s t with joining := b } :=
      flags_setThread s t _

theorem flags_setDying (s : State) (t : Tid) :
    flags (setDying s t) = update (flags s) t { flags s t with dying := true } :=
      flags_setThread s t _

theorem flags_block (s : State) (t : Tid) :
    flags { s with toReady := s.block t } =
      update (flags s) t { flags s t with runnable := false } := by
  funext u
  by_cases hu : u = t
  · subst hu
    simp [flags, Ready.block_thread]
  · simp [flags, Ready.block_thread, hu]

theorem flags_dbWake (s : State) (t : Tid) :
    flags { s with toReady := s.dbWake t } =
      update (flags s) t { flags s t with runnable := true } := by
  funext u
  by_cases hu : u = t
  · subst hu
    simp [flags, Ready.dbWake_thread]
  · simp [flags, Ready.dbWake_thread, hu]

theorem allPlaced_congr (h : AllPlaced s) (hlists : lists s' = lists s)
    (hflags : flags s' = flags s) (happ : s'.appScheduled = s.appScheduled) : AllPlaced s' := by
  obtain ⟨loc, hl, hp⟩ := h
  refine ⟨loc, hlists ▸ hl, ?_⟩
  rw [hflags, happ]
  exact hp

section Move

variable {loc : Tid → Option Where} (hl : Linked (lists s) loc)
  (hp : ∀ u, Placed u (s.appScheduled u) (flags s u) (loc u))

include hp

theorem allPlaced_move (hl' : Linked (lists s') (update loc t w))
    (happ : s'.appScheduled = s.appScheduled)
    (hflags : flags s' = update (flags s) t f) (hself : Placed t (s.appScheduled t) f w) :
    AllPlaced s' := by
  refine ⟨_, hl', fun u => ?_⟩
  rw [happ, hflags]
  by_cases hu : u = t
  · subst hu
    simpa only [update_self] using hself
  · simpa only [update_of_ne hu] using hp u

include hl

/-- Only the thread's own flags change, and it moves to the end of list `k`. -/
theorem allPlaced_insert (k : Where) (hoff : flags s t = .off)
    (hlists : lists s' = Links.append (lists s) k t)
    (happ : s'.appScheduled = s.appScheduled) (hflags : flags s' = update (flags s) t f)
    (hself : Placed t (s.appScheduled t) f (some k)) : AllPlaced s' := by
  have hw := hp t
  rw [hoff] at hw
  have hnone := (hw.of_alive rfl rfl).2
  exact allPlaced_move hp (hlists ▸ linked_append hl hnone k) happ hflags hself

end Move

theorem lists_ready (s : State) (r : Ready) :
    lists { s with toReady := r } = update (lists s) .ready r.readyQueue := by
  funext k
  cases k <;> simp [lists]

theorem lists_ready_self (s : State) : update (lists s) .ready s.readyQueue = lists s :=
  update_eq_self_iff.mpr rfl

section

variable (h : AllPlaced s)

include h

theorem allPlaced_block (hrun : (s.thread t).runnable = true) :
    AllPlaced { s with toReady := s.block t } := by
  obtain ⟨loc, hl, hp⟩ := h
  obtain ⟨htask, hf⟩ := (hp t).of_runnable hrun
  refine allPlaced_move hp (w := none) ?_ (s.toReady.block_appScheduled t) (flags_block s t) ?_
  · rw [lists_ready]
    unfold Ready.block
    rw [if_pos hrun]
    split
    case isTrue happ =>
      have hnone := ((hp t).of_alive (by rw [hf]) (by rw [hf])).2
      rw [happ, Bool.not_true, Bool.and_false] at hnone
      rw [Ready.setRunnable_readyQueue, lists_ready_self, update_eq_self_iff.mpr hnone.symm]
      exact hl
    case isFalse happ =>
      have hin := (hp t).ready_iff.mpr ⟨hrun, Bool.eq_false_iff.mpr happ, htask⟩
      exact unlink_eq hl hin ▸ linked_unlink hl t
  · rw [hf]
    exact .off

theorem allPlaced_dbWake (hjoin : (s.thread t).joining = false)
    (hdying : (s.thread t).dying = false) (htask : IsTask t) :
    AllPlaced { s with toReady := s.dbWake t } := by
  obtain ⟨loc, hl, hp⟩ := h
  obtain ⟨hf, hloc⟩ := (hp t).of_alive hjoin hdying
  refine allPlaced_move hp ?_ (s.toReady.dbWake_appScheduled t) (flags_dbWake s t) (w := ?_) ?_
  · exact if s.appScheduled t then none else some .ready
  · rw [lists_ready]
    unfold Ready.dbWake
    split
    case isTrue happ =>
      rw [happ, Bool.not_true, Bool.and_false] at hloc
      rw [Ready.setRunnable_readyQueue, lists_ready_self, update_eq_self_iff.mpr hloc.symm]
      exact hl
    case isFalse happ =>
      split
      case isTrue hrun =>
        have hin := (hp t).ready_iff.mpr ⟨hrun, Bool.eq_false_iff.mpr happ, htask⟩
        rw [lists_ready_self, update_eq_self_iff.mpr hin.symm]
        exact hl
      case isFalse hrun =>
        have hoff : (flags s t).runnable = false := Bool.eq_false_iff.mpr hrun
        rw [hoff, Bool.false_and] at hloc
        exact linked_append hl hloc .ready
  · rw [hf]
    exact .ready htask

theorem allPlaced_rotate {prev idle : Tid} :
    AllPlaced { s with toReady := s.toReady.rotate prev idle } := by
  obtain ⟨loc, hl, hp⟩ := h
  refine ⟨loc, ?_, ?_⟩
  · rw [lists_ready]
    unfold Ready.rotate
    split
    · rename_i hcond
      simp only [Bool.and_eq_true, Bool.not_eq_true'] at hcond
      have hin :=
        (hp prev).ready_iff.mpr ⟨hcond.1.2, hcond.1.1, ((hp prev).of_runnable hcond.1.2).1⟩
      have hunlinked := unlink_eq hl hin ▸ linked_unlink hl prev
      have happended := linked_append hunlinked (update_self prev none loc) .ready
      have hloc : update (update loc prev none) prev (some .ready) = loc := by
        rw [update_idem, update_eq_self_iff.mpr hin.symm]
      rw [hloc] at happended
      simpa [Links.append, lists] using happended
    · rw [lists_ready_self]
      exact hl
  · simpa [flags, Ready.appScheduled] using hp

theorem allPlaced_setThread (happ : th.appsched = (s.thread t).appsched)
    (hf : flags s t = ⟨th.runnable, th.joining, th.dying, s.reaped t⟩) :
    AllPlaced { s with toReady := s.setThread t th } := by
  refine allPlaced_congr h ?_ ?_ (s.toReady.setThread_appScheduled happ)
  · rw [lists_ready]
    exact lists_ready_self s
  · rw [flags_setThread, update_eq_self_iff]
    exact hf.symm

theorem allPlaced_leave (hjoin : (s.thread t).joining = true) :
    AllPlaced (unlink (setJoining s t false) t) := by
  obtain ⟨loc, hl, hp⟩ := h
  obtain ⟨-, hf⟩ := (hp t).of_joining hjoin
  have hlists : lists (unlink (setJoining s t false) t) = Links.unlink (lists s) t := by
    funext k
    cases k <;> rfl
  refine allPlaced_move hp (hlists ▸ linked_unlink hl t) (s.toReady.setThread_appScheduled rfl)
    (flags_setJoining s t false) ?_
  rw [hf]
  exact .off

end

theorem allPlaced_join (j : Tid) (h : AllPlaced s) (hoff : flags s t = .off) (htask : IsTask t) :
    AllPlaced (addJoiner (setJoining s t true) j t) := by
  obtain ⟨loc, hl, hp⟩ := h
  have hlists :
      lists (addJoiner (setJoining s t true) j t) = Links.append (lists s) (.joiners j) t := by
    funext k
    cases k with
    | ready | zombie => rfl
    | joiners i =>
      by_cases hi : i = j
      · subst hi
        simp [lists, addJoiner, setJoining, Links.append]
      · simp [lists, addJoiner, setJoining, Links.append, hi]
  refine allPlaced_insert hl hp _ hoff hlists (s.toReady.setThread_appScheduled rfl)
    (flags_setJoining s t true) ?_
  rw [hoff]
  exact .joiner htask j

theorem allPlaced_exit (h : AllPlaced s) (hoff : flags s t = .off) (htask : IsTask t) :
    AllPlaced { setDying s t with zombieQueue := s.zombieQueue ++ [t] } := by
  obtain ⟨loc, hl, hp⟩ := h
  have hlists : lists { setDying s t with zombieQueue := s.zombieQueue ++ [t] } =
      Links.append (lists s) .zombie t := by
    funext k
    cases k <;> rfl
  refine allPlaced_insert hl hp _ hoff hlists (s.toReady.setThread_appScheduled rfl)
    (flags_setDying s t) ?_
  rw [hoff]
  exact .zombie htask false

theorem flags_reap (s : State) (t : Tid) :
    flags { unlink s t with reaped := update s.reaped t true } =
    update (flags s) t { flags s t with reaped := true } := by
  funext u
  by_cases hu : u = t
  · subst hu
    simp [flags, unlink]
  · simp [flags, unlink, hu]

theorem allPlaced_reap (h : AllPlaced s) (hmem : t ∈ s.zombieQueue) :
    AllPlaced { unlink s t with reaped := update s.reaped t true } := by
  obtain ⟨loc, hl, hp⟩ := h
  obtain ⟨hdying, -⟩ := (hp t).zombie_iff.mp ((hl.mem .zombie t).mp hmem)
  obtain ⟨htask, hf⟩ := (hp t).of_dying hdying
  have hlists :
      lists { unlink s t with reaped := update s.reaped t true } = Links.unlink (lists s) t := by
    funext k
    cases k <;> rfl
  refine allPlaced_move hp (hlists ▸ linked_unlink hl t) rfl (flags_reap s t) ?_
  rw [hf]
  exact .zombie htask true

/-! ## Steps -/

/-- A step changes the flags and the place of one task only. -/
theorem inv_of {t : Nat} (h : Inv s) (hplaced : AllPlaced s') (hpc : ∀ u ≠ t, s'.pc u = s.pc u)
    (hflags : ∀ u ≠ t, flags s' (.task u) = flags s (.task u))
    (hnormal : s'.pc t = .normal → (flags s' (.task t)).runnable = true)
    (hlinking : (s'.pc t).linking → flags s' (.task t) = .off) (hint : s'.interrupt = s.interrupt)
    (hlock : ∀ j t, s'.zombieLock = .wakeOne j t → IsTask t) : Inv s' := by
  refine ⟨hplaced, ?_, ?_, hint ▸ h.interrupts, hlock⟩
  · intro u hu
    by_cases hut : u = t
    · subst hut
      exact hnormal hu
    · rw [hflags u hut]
      exact h.normal u (hpc u hut ▸ hu)
  · intro u hu
    by_cases hut : u = t
    · subst hut
      exact hlinking hu
    · rw [hflags u hut]
      exact h.linking u (hpc u hut ▸ hu)

theorem inv_same (h : Inv s) (hplaced : AllPlaced s') (hpc : s'.pc = s.pc)
    (hflags : flags s' = flags s)
    (hint : s'.interrupt = s.interrupt) (hlock : ∀ j t, s'.zombieLock = .wakeOne j t → IsTask t) :
    Inv s' := by
  refine ⟨hplaced, ?_, ?_, hint ▸ h.interrupts, hlock⟩
  · rw [hpc, hflags]
    exact h.normal
  · rw [hpc, hflags]
    exact h.linking

theorem flags_other {t x : Nat} (hflags : flags s' = update (flags s) (.task t) f) (hx : x ≠ t) :
    flags s' (.task x) = flags s (.task x) := by
  rw [hflags, update_of_ne (by simpa using hx)]

section

variable (h : Inv s) {pc : Pc} {k : Nat}

include h

theorem inv_setPc {t : Nat}
    (hnormal : pc = .normal → (flags s (.task t)).runnable = true) (hlink : ¬ pc.linking) :
    Inv (setPc s t pc) := by
  refine inv_of (t := t) h h.placed (fun u hu => update_of_ne hu _ _)
    (fun _ _ => rfl) (fun hpc => ?_) ?_ rfl h.waking
  · exact hnormal (by simpa only [setPc, update_self] using hpc)
  · simpa only [setPc, update_self] using fun hpc => absurd hpc hlink

theorem inv_lock {l : ZombieLock} (hl : ∀ j t, l = .wakeOne j t → IsTask t) :
    Inv { s with zombieLock := l } :=
  inv_same h h.placed rfl rfl rfl hl

theorem inv_armed {armed : Nat → Bool} : Inv { s with armed := armed } :=
  inv_same h h.placed rfl rfl rfl h.waking

theorem inv_setInterrupt {i : Interrupt}
    (hi : ∀ t, i = .unlink t ∨ i = .wake t → IsTask t) : Inv (setInterrupt s k i) := by
  refine ⟨?_, h.normal, h.linking, ?_, h.waking⟩
  · exact h.placed
  · intro k' t ht
    by_cases hk : k' = k
    · subst hk
      exact hi t (by simpa [setInterrupt] using ht)
    · exact h.interrupts k' t (by simpa [setInterrupt, hk] using ht)

theorem inv_block {t : Nat} (ht : s.pc t = .normal) (hpc : pc ≠ .normal) :
    Inv (setPc { s with toReady := s.block (.task t) } t pc) := by
  have hrun := h.normal t ht
  have hf : flags { s with toReady := s.block (.task t) } = update (flags s) (.task t) .off := by
    obtain ⟨loc, -, hp⟩ := h.placed
    rw [flags_block, ((hp _).of_runnable hrun).2]
    rfl
  refine inv_of (t := t) h (allPlaced_block h.placed hrun)
    (fun u hu => update_of_ne hu _ _) (fun u => flags_other hf) ?_ (fun _ => ?_) rfl h.waking
  · simpa only [setPc, update_self] using fun hnormal => absurd hnormal hpc
  · exact (congrFun hf _).trans (update_self _ _ _)

theorem inv_dbWake (hw : Wakeable s t) (htask : IsTask t) :
    Inv { s with toReady := s.dbWake t } := by
  cases t with
  | idle => cases htask
  | task t =>
    refine inv_of (t := t) h (allPlaced_dbWake h.placed hw.1 hw.2.1 htask) (fun _ _ => rfl)
      (fun u => flags_other (flags_dbWake s _)) (fun _ => ?_) ?_ rfl h.waking
    · rw [flags_dbWake, update_self]
    · rintro (hl | ⟨j, hl⟩)
      · exact absurd hl (hw.2.2 t rfl).1
      · exact absurd hl ((hw.2.2 t rfl).2 j)

theorem inv_setThread (happ : th.appsched = (s.thread t).appsched)
    (hf : flags s t = ⟨th.runnable, th.joining, th.dying, s.reaped t⟩) :
    Inv { s with toReady := s.setThread t th } := by
  refine inv_same h (allPlaced_setThread h.placed happ hf) rfl ?_ rfl h.waking
  rw [flags_setThread, update_eq_self_iff]
  exact hf.symm

theorem inv_wake (hw : Wakeable s t) (htask : IsTask t) (hs : wake s t = some u) : Inv u := by
  obtain ⟨r, hr, rfl⟩ := Option.map_eq_some_iff.mp hs
  unfold Ready.gukWake at hr
  split at hr
  · cases hr
    exact h
  · split at hr
    · cases hr
      exact inv_setThread h rfl rfl
    · split at hr
      · cases hr
      · split at hr <;> cases hr
        · exact inv_dbWake h hw htask
        · exact h

theorem isTask_of_joining (hjoin : (s.thread t).joining = true) : IsTask t := by
  obtain ⟨loc, -, hp⟩ := h.placed
  exact ((hp t).of_joining hjoin).1

theorem inv_leave (hjoin : (s.thread t).joining = true) :
    Inv (unlink (setJoining s t false) t) := by
  cases t with
  | idle => cases isTask_of_joining h hjoin
  | task t =>
    have hf := flags_setJoining s (.task t) false
    refine inv_of (t := t) h (allPlaced_leave h.placed hjoin) (fun _ _ => rfl)
      (fun u => flags_other hf)
      (fun hn => ?_) (fun hl => ?_) rfl h.waking
    · refine (congrArg Flags.runnable (congrFun hf _)).trans ?_
      rw [update_self]
      exact h.normal t hn
    · have hoff : (s.thread (.task t)).joining = false := congrArg Flags.joining (h.linking t hl)
      rw [hjoin] at hoff
      cases hoff

theorem inv_startWakeJoiners : Inv (startWakeJoiners s t) := by
  refine inv_lock h fun j u he => ?_
  split at he <;> cases he

theorem inv_joinLink {t : Nat} {j : Tid} (ht : s.pc t = .joinLink j) :
    Inv (setPc { addJoiner (setJoining s (.task t) true) j (.task t) with zombieLock := .free } t
      (.joinWait j)) := by
  have hplaced := allPlaced_join j h.placed (h.linking t (.inr ⟨j, ht⟩)) trivial
  refine inv_of (t := t) h hplaced (fun u hu => update_of_ne hu _ _)
    (fun u => flags_other (flags_setJoining s _ true)) ?_ ?_ rfl nofun <;> simp [setPc, Pc.linking]

theorem inv_exitLink {t : Nat} (ht : s.pc t = .exitLink) :
    Inv (setPc { setDying s (.task t) with zombieQueue := s.zombieQueue ++ [.task t] } t
      .exited) := by
  have hplaced := allPlaced_exit h.placed (h.linking t (.inl ht)) trivial
  refine inv_of (t := t) h hplaced (fun u hu => update_of_ne hu _ _)
    (fun u => flags_other (flags_setDying s _)) ?_ ?_ rfl h.waking <;> simp [setPc, Pc.linking]

theorem inv_reap (hmem : t ∈ s.zombieQueue) :
    Inv { unlink s t with reaped := update s.reaped t true } := by
  have hplaced := allPlaced_reap h.placed hmem
  obtain ⟨loc, hl, hp⟩ := h.placed
  obtain ⟨hdying, -⟩ := (hp t).zombie_iff.mp ((hl.mem .zombie t).mp hmem)
  cases t with
  | idle => cases ((hp _).of_dying hdying).1
  | task t =>
    refine inv_of (t := t) h hplaced (fun _ _ => rfl) (fun u => flags_other (flags_reap s _))
      (fun hn => ?_)
      (fun hl => ?_) rfl h.waking
    · rw [flags_reap, update_self]
      exact h.normal t hn
    · rw [h.linking t hl] at hdying
      cases hdying

theorem inv_stepWakeJoiners (hok : safeStep s .wakeJoiners)
    (hs : stepWakeJoiners s = some u) : Inv u := by
  unfold stepWakeJoiners at hs
  cases hl : s.zombieLock with
  | free | joining =>
    rw [hl] at hs
    cases hs
  | waking j =>
    rw [hl] at hs
    simp only at hs
    split at hs <;> cases hs
    · exact inv_lock h (by simp)
    · rename_i t rest hlist
      have hjoin : (s.thread t).joining = true := by
        obtain ⟨loc, hlinked, hp⟩ := h.placed
        have hmem : t ∈ s.joiners j := by rw [hlist]; exact List.mem_cons_self
        exact (hp t).joiner_iff.mp ⟨j, (hlinked.mem (.joiners j) t).mp hmem⟩
      apply inv_lock (inv_leave h hjoin)
      intro j' t' he
      cases he
      exact isTask_of_joining h hjoin
  | wakeOne j t =>
    simp only [safeStep, hl] at hok
    rw [hl] at hs
    obtain ⟨v, hv, rfl⟩ := Option.map_eq_some_iff.mp hs
    exact inv_lock (inv_wake h hok (h.waking j t hl) hv) (by simp)

theorem inv_stepInterrupt (hok : safeStep s (.interruptStep k))
    (hs : stepInterrupt s k = some u) : Inv u := by
  unfold stepInterrupt at hs
  cases hi : s.interrupt k with
  | idle =>
    rw [hi] at hs
    cases hs
  | unlink t =>
    simp only [safeStep, hi] at hok
    rw [hi] at hs
    obtain ⟨-, rfl⟩ := of_when hs
    have hleft := inv_leave h hok
    apply inv_setInterrupt hleft
    rintro t' (he | he) <;> cases he
    exact h.interrupts k t (.inl hi)
  | wake t =>
    simp only [safeStep, hi] at hok
    rw [hi] at hs
    obtain ⟨v, hv, rfl⟩ := Option.map_eq_some_iff.mp hs
    have hmarked : Inv (setInterrupted s t) := inv_setThread h rfl rfl
    have hw : Wakeable (setInterrupted s t) t := by
      have ht : (setInterrupted s t).thread t = { s.thread t with interrupted := true } := by
        change (s.setThread t _).thread t = _
        rw [Ready.setThread_thread, if_pos rfl]
      exact ⟨(congrArg Thread.joining ht).trans hok.1, (congrArg Thread.dying ht).trans hok.2.1,
        hok.2.2⟩
    apply inv_setInterrupt (inv_wake hmarked hw (h.interrupts k t (.inr hi)) hv)
    rintro t' (he | he) <;> cases he

theorem inv_pick {prev idle : Tid} {cpu : Nat} :
    Inv { s with toReady := (s.toReady.pickThread prev idle cpu).1 } := by
  have hrot : Inv { s with toReady := s.toReady.rotate prev idle } := by
    refine inv_same h (allPlaced_rotate h.placed) rfl ?_ rfl h.waking
    funext t
    simp only [flags, Ready.rotate_thread]
  unfold Ready.pickThread
  simp only
  split
  · exact inv_setThread hrot rfl rfl
  · exact hrot

theorem inv_step {a : Label} (hok : safeStep s a) (hs : step s a = some u) : Inv u := by
  cases a with
  | block t | exit t =>
    obtain ⟨hpc, rfl⟩ := of_when hs
    exact inv_block h hpc (by simp)
  | resume t =>
    obtain ⟨hrun, hs⟩ := Option.ite_none_right_eq_some.mp hs
    split at hs <;> cases hs
    · exact inv_setPc h (fun _ => hrun) (by simp [Pc.linking])
    · exact inv_setPc h (fun _ => hrun) (by simp [Pc.linking])
  | wake t => exact inv_wake h hok trivial hs
  | dbWake t =>
    cases hs
    exact inv_dbWake h hok trivial
  | addTimer t =>
    obtain ⟨-, rfl⟩ := of_when hs
    exact inv_armed h
  | wakeExpired t =>
    obtain ⟨-, hs⟩ := Option.ite_none_right_eq_some.mp hs
    obtain ⟨v, hv, rfl⟩ := Option.map_eq_some_iff.mp hs
    exact inv_armed (inv_wake h hok trivial hv)
  | pick cpu prev =>
    cases hs
    exact inv_pick h
  | clearRunning t | setCpu t cpu =>
    cases hs
    exact inv_setThread h rfl rfl
  | join t j =>
    obtain ⟨⟨hpc, -, -⟩, rfl⟩ := of_when hs
    exact inv_lock (inv_block h hpc (by simp)) (by simp)
  | joinLink t =>
    simp only [step] at hs
    split at hs <;> cases hs
    exact inv_joinLink h ‹_›
  | exitLink t =>
    obtain ⟨⟨hpc, -⟩, rfl⟩ := of_when hs
    exact inv_startWakeJoiners (inv_exitLink h hpc)
  | wakeJoiners => exact inv_stepWakeJoiners h hok hs
  | reap cpu t =>
    obtain ⟨⟨-, hmem, -⟩, rfl⟩ := of_when hs
    exact inv_startWakeJoiners (inv_reap h hmem)
  | interrupt k t =>
    obtain ⟨-, rfl⟩ := of_when hs
    apply inv_setInterrupt h
    intro u hu
    split at hu <;> rcases hu with he | he <;> cases he <;> trivial
  | interruptStep k => exact inv_stepInterrupt h hok hs

end

/-- The lists are as the flags say in every run in which nothing is woken while it is in a list of
`zombie_lock`, or between its `block` and its insertion there. -/
theorem queue_membership (s : State) (h : Reach step safeStep Initial s) : QueueMembership s := by
  refine queueMembership_of_inv (h.invariant (fun _ => inv_initial) ?_)
  intro s a u hi hok hs
  exact inv_step hi hok hs

def noThreads : State where
  thread _ := ⟨false, false, false, false, false, false, false, true, false, 0⟩
  readyQueue := []
  upcallsActive := false
  zombieQueue := []
  joiners _ := []
  reaped _ := false
  zombieLock := .free
  pc _ := .blocked
  interrupt _ := .idle
  armed _ := false

theorem noThreads_initial : Initial noThreads :=
  ⟨fun _ => ⟨rfl, rfl, rfl⟩, rfl, rfl, fun _ => rfl, fun _ => rfl, rfl, fun _ => rfl, fun _ => rfl⟩

theorem queue_membership_join : ∃ s, s.joiners (.task 1) = [.task 0] ∧ QueueMembership s := by
  have hw : Wakeable noThreads (.task 0) := ⟨rfl, rfl, fun _ _ => ⟨nofun, nofun⟩⟩
  have h₀ : Reach step safeStep Initial noThreads := .start noThreads_initial
  have h₁ := Reach.next (Label.wake 0) h₀ hw rfl
  have h₂ := Reach.next (Label.resume 0) h₁ trivial rfl
  have h₃ := Reach.next (Label.join 0 (.task 1)) h₂ trivial rfl
  have h₄ := Reach.next (Label.joinLink 0) h₃ trivial rfl
  exact ⟨_, rfl, queue_membership _ h₄⟩

/-- A timer that thread 0 has armed goes off while it waits for thread 1 to exit. -/
theorem woken_while_joining : ¬ ∀ s, Reach step anyStep Initial s → QueueMembership s := by
  intro hall
  have h₀ : Reach step anyStep Initial noThreads := .start noThreads_initial
  obtain ⟨s, hs, hready, hjoin⟩ := h₀.runTo
    (P := fun s => s.readyQueue = [.task 0] ∧ s.joiners (.task 1) = [.task 0])
    [.wake 0, .resume 0, .addTimer 0, .join 0 (.task 1), .joinLink 0, .wakeExpired 0] (by decide)
  have hmember := hall s hs
  exact hmember.readyJoiner (.task 0) (.task 1) (by rw [hready]; exact List.mem_cons_self)
    (by rw [hjoin]; exact List.mem_cons_self)

end Guk.SchedQueue
