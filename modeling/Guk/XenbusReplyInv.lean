import Guk.XenbusReply

/-!
# Every call gets its own reply

What is known about a thread depends on how far its call is (`Phase`) and concerns
the entry of `req_info` that it holds, and what is on its way to it (`Slot`). A step
changes one thread and one entry at most.
-/
namespace Guk.XenbusReply

open Owner Guk.Ring Runs XenbusRing Function

inductive Phase where
  | outside
  | fresh (id : Nat)
  | ready (id : Nat)
  | queued (id : Nat)
  | sent (id serial : Nat)
  | back (id serial : Nat)
  | done (id serial rep : Nat)

def Phase.held : Phase → Option Nat
  | .outside => none
  | .fresh id | .ready id | .queued id | .sent id _ | .back id _ | .done id _ _ => some id

def Pc.phase : Pc → Phase
  | .idle | .lockReq _ | .allocate _ | .waitId _ _ => .outside
  | .initQueue _ id => .fresh id
  | .preemptDisable _ id | .addWaiter _ id => .ready id
  | .lockRing _ id _ | .write _ id _ | .waitSpace _ id _ => .queued id
  | .preemptEnable c id | .schedule c id | .asleep c id => .sent id c.serial
  | .readReply c id => .back id c.serial
  | .lockRelease c id rep | .release c id rep => .done id c.serial rep

def Pc.locks : Pc → Nat
  | .allocate _ | .write _ _ _ | .release _ _ _ => 1
  | _ => 0

def Pc.preempts : Pc → Nat
  | .write _ _ _ => 2
  | .allocate _ | .addWaiter _ _ | .lockRing _ _ _ | .waitSpace _ _ _ | .preemptEnable _ _
  | .release _ _ _ => 1
  | _ => 0

def Pc.queuesForId : Pc → Bool
  | .waitId _ w => w ≠ .test
  | _ => false

def Pc.queuesForSpace : Pc → Bool
  | .waitSpace _ _ w => w ≠ .test
  | _ => false

structure Slot where
  waitq : List Nat
  reply : Option Nat
  flight : List Nat
  handling : Bool

def slot (s : State) (id : Nat) : Slot where
  waitq := s.waitq id
  reply := s.reply id
  flight := (s.requests.filter (·.id = id)).map (·.serial)
  handling := s.handling = some id

def held (s : State) (t : Nat) : Option Nat := (s.pc t).phase.held

structure Quiet (v : Slot) : Prop where
  flight : v.flight = []
  handling : v.handling = false

inductive Progress (n : Nat) (v : Slot) : Bool → Prop where
  | flight (h : v.flight = [n]) (hh : v.handling = false) : Progress n v false
  | stored (h : v.flight = []) (hh : v.handling = true) (hr : v.reply = some n) : Progress n v false
  | woken (h : Quiet v) (hr : v.reply = some n) : Progress n v true

def Fact (t : Nat) (runnable : Bool) (v : Slot) : Phase → Prop
  | .outside => True
  | .fresh _ => Quiet v
  | .ready _ => Quiet v ∧ v.waitq = []
  | .queued _ => Quiet v ∧ v.waitq = [t] ∧ runnable = false
  | .sent _ n => v.waitq = [t] ∧ Progress n v runnable
  | .back _ n => Quiet v ∧ v.reply = some n
  | .done _ n rep => Quiet v ∧ rep = n

structure Core (s : State) : Prop where
  exclusive : Exclusive (held s)
  inUse : ∀ t id, held s t = some id → s.inUse id = true
  owned : ∀ t id, held s t = some id → Fact t (s.runnable t) (slot s id) (s.pc t).phase
  unowned : ∀ id, Unowned (held s) id → Quiet (slot s id)

structure Local (s : State) : Prop where
  preempts : ∀ t, s.preemptCount t = (s.pc t).preempts
  locks : ∀ t, s.lockCount t = (s.pc t).locks
  space : ∀ t c id w, s.pc t = .waitSpace c id w → w = .test
  req : ∀ t ∈ s.wq .req, ∃ c w, s.pc t = .waitId c w ∧ w ≠ .test
  xb : s.wq .xb = []
  bug : s.bug = false
  returned : ∀ e ∈ s.returned, e.2 = e.1

structure Threads where
  pc : Nat → Pc
  preemptCount : Nat → Nat
  lockCount : Nat → Nat
  wq : Queue → List Nat
  bug : Bool
  returned : List (Nat × Nat)

def threads (s : State) : Threads := ⟨s.pc, s.preemptCount, s.lockCount, s.wq, s.bug, s.returned⟩

structure Inv (s : State) : Prop where
  core : Core s
  threads : Local s

variable {r : RingSize} {s s' : State} {t u id n : Nat} {c : Call} {p q : Pc} {w : Wait}

/-! ## Steps and ids -/

theorem held_update (hpc : s'.pc = update s.pc t p) :
    held s' = update (held s) t p.phase.held := by
  funext u
  by_cases hu : u = t
  · subst hu
    simp [held, hpc]
  · simp [held, hpc, hu]

theorem core_move (h : Core s) (hpc : s'.pc = update s.pc t p)
    (hheld : p.phase.held = held s t) (hinUse : s'.inUse = s.inUse)
    (hrun : ∀ u, u ≠ t → held s u ≠ none → s'.runnable u = s.runnable u)
    (hslot : ∀ id, held s t ≠ some id → slot s' id = slot s id)
    (hfact : ∀ id, held s t = some id → Fact t (s'.runnable t) (slot s' id) p.phase) : Core s' := by
  have hsame : held s' = held s := by
    rw [held_update hpc, hheld]
    exact update_eq_self t (held s)
  refine ⟨?_, ?_, ?_, ?_⟩
  · rw [hsame]
    exact h.exclusive
  · rw [hsame, hinUse]
    exact h.inUse
  · intro u id hu
    rw [hsame] at hu
    by_cases hut : u = t
    · subst hut
      rw [hpc, update_self]
      exact hfact id hu
    · have hne : held s t ≠ some id := fun ht => hut (h.exclusive u t id hu ht)
      rw [hpc, update_of_ne hut, hrun u hut (by rw [hu]; simp), hslot id hne]
      exact h.owned u id hu
  · intro id hid
    rw [hsame] at hid
    rw [hslot id (hid t)]
    exact h.unowned id hid

theorem inv_keep (h : Inv s) (hpc : s.pc t = q) (hl : Local s')
    (hs : (s'.pc, s'.inUse, s'.runnable, slot s') = (update s.pc t p, s.inUse, s.runnable, slot s))
    (hp : p.phase = q.phase) : Inv s' := by
  simp only [Prod.mk.injEq] at hs
  obtain ⟨hpc', hinUse, hrun, hslot⟩ := hs
  have hphase : p.phase = (s.pc t).phase := by rw [hp, hpc]
  refine ⟨core_move h.core hpc' (congrArg Phase.held hphase) hinUse ?_ ?_ ?_, hl⟩
  · intro u _ _
    rw [hrun]
  · intro id _
    rw [hslot]
  · intro id ht
    rw [hrun, hslot, hphase]
    exact h.core.owned t id ht

theorem core_outside (h : Core s) (hpc : s'.pc = update s.pc t p)
    (hp : p.phase = .outside) (ht : (s.pc t).phase = .outside) (hinUse : s'.inUse = s.inUse)
    (hrun : ∀ u, u ≠ t → held s u ≠ none → s'.runnable u = s.runnable u)
    (hslot : ∀ id, slot s' id = slot s id) : Core s' := by
  have hnone : held s t = none := by
    rw [held, ht]
    rfl
  apply core_move h hpc _ hinUse hrun (fun id _ => hslot id)
  · intro id hid
    rw [hnone] at hid
    cases hid
  · rw [hp, hnone]
    rfl

theorem core_same (h : Core s) (hpc : s'.pc = s.pc) (hinUse : s'.inUse = s.inUse)
    (hrun : ∀ u, held s u ≠ none → s'.runnable u = s.runnable u)
    (hslot : ∀ id, slot s' id = slot s id) :
    Core s' := by
  -- thread 0 moves to where it is
  refine core_move (t := 0) (p := s.pc 0) h ?_ rfl hinUse (fun u _ => hrun u) (fun id _ => hslot id)
    ?_
  · rw [hpc, update_eq_self]
  · intro id hid
    rw [hslot, hrun 0 (by rw [hid]; simp)]
    exact h.owned 0 id hid

/-! ## Locks and counters -/

theorem local_move (h : Local s) (hpc : s'.pc = update s.pc t p)
    (hpre : s'.preemptCount = update s.preemptCount t p.preempts)
    (hlock : s'.lockCount = update s.lockCount t p.locks)
    (hspace : p.queuesForSpace = false)
    (hreq : ∀ u ∈ s'.wq .req, u ≠ t ∧ u ∈ s.wq .req ∨ u = t ∧ ∃ c w, p = .waitId c w ∧ w ≠ .test)
    (hxb : s'.wq .xb = []) (hbug : s'.bug = false) (hret : ∀ e ∈ s'.returned, e.2 = e.1) :
    Local s' := by
  refine ⟨?_, ?_, ?_, ?_, hxb, hbug, hret⟩
  · intro u
    rw [hpre, hpc]
    by_cases hu : u = t
    · subst hu
      simp
    · simp [hu, h.preempts]
  · intro u
    rw [hlock, hpc]
    by_cases hu : u = t
    · subst hu
      simp
    · simp [hu, h.locks]
  · intro u c id w hu
    by_cases hut : u = t
    · subst hut
      rw [hpc, update_self] at hu
      rw [hu] at hspace
      simpa [Pc.queuesForSpace] using hspace
    · rw [hpc, update_of_ne hut] at hu
      exact h.space u c id w hu
  · intro u hu
    rcases hreq u hu with ⟨hut, hmem⟩ | ⟨hut, c, w, hp⟩
    · rw [hpc, update_of_ne hut]
      exact h.req u hmem
    · rw [hut, hpc, update_self]
      exact ⟨c, w, hp⟩

theorem preempts_at (h : Local s) (hpc : s.pc t = q) (hq : q.preempts = n) :
    s.preemptCount t = n := by
  rw [h.preempts, hpc, hq]

theorem locks_at (h : Local s) (hpc : s.pc t = q) (hq : q.locks = n) : s.lockCount t = n := by
  rw [h.locks, hpc, hq]

section Step

variable (h : Local s) (hpc : s.pc t = q) (hq : q.queuesForId = false)
  (hspace : p.queuesForSpace = false)

include h hpc hq hspace

theorem local_step {m : Nat} (hs : threads s' = ⟨update s.pc t p, update s.preemptCount t m,
      update s.lockCount t n, s.wq, s.bug, s.returned⟩)
    (hm : m = p.preempts) (hn : n = p.locks) : Local s' := by
  simp only [threads, Threads.mk.injEq] at hs
  obtain ⟨hpc', hpre, hlock, hwq, hbug, hret⟩ := hs
  refine local_move h hpc' (hm ▸ hpre) (hn ▸ hlock) hspace ?_ (hwq ▸ h.xb) (hbug ▸ h.bug)
    (hret ▸ h.returned)
  intro u hu
  rw [hwq] at hu
  have hut : u ≠ t := by
    rintro rfl
    obtain ⟨c, w, hw, hne⟩ := h.req u hu
    rw [← hpc, hw] at hq
    simp [Pc.queuesForId, hne] at hq
  exact .inl ⟨hut, hu⟩

theorem local_lock (hp : p.preempts = q.preempts + 1) (hp' : p.locks = q.locks + 1) :
    Local (setPc (spinLock s t) t p) := by
  apply local_step h hpc hq hspace rfl
  · rw [preempts_at h hpc rfl, hp]
  · change s.lockCount t + 1 = p.locks
    rw [locks_at h hpc rfl, hp']

theorem local_unlock (hp : p.preempts + 1 = q.preempts) (hp' : p.locks + 1 = q.locks) :
    Local (setPc (spinUnlock s t) t p) := by
  apply local_step h hpc hq hspace rfl
  · rw [preempts_at h hpc hp.symm, Nat.add_sub_cancel]
  · change s.lockCount t - 1 = p.locks
    rw [locks_at h hpc hp'.symm, Nat.add_sub_cancel]

theorem local_preemptDisable (hp : p.preempts = q.preempts + 1) (hp' : p.locks = q.locks) :
    Local (setPc (preemptDisable s t) t p) := by
  apply local_step h hpc hq hspace (m := s.preemptCount t + 1) (n := s.lockCount t)
  · rw [update_eq_self]
    rfl
  · rw [preempts_at h hpc rfl, hp]
  · exact locks_at h hpc hp'.symm

theorem local_preemptEnable (hp : p.preempts + 1 = q.preempts) (hp' : p.locks = q.locks) :
    Local (setPc (preemptEnable s t) t p) := by
  apply local_step h hpc hq hspace (m := s.preemptCount t - 1) (n := s.lockCount t)
  · rw [update_eq_self]
    rfl
  · rw [preempts_at h hpc hp.symm, Nat.add_sub_cancel]
  · exact locks_at h hpc hp'.symm

theorem local_pc (hp : p.preempts = q.preempts) (hp' : p.locks = q.locks) :
    Local (setPc s t p) := by
  apply local_step h hpc hq hspace (m := s.preemptCount t) (n := s.lockCount t)
  · rw [update_eq_self, update_eq_self]
    rfl
  · exact preempts_at h hpc hp.symm
  · exact locks_at h hpc hp'.symm

end Step

/-! ## Ids -/

theorem probeLoop_free {inUse : Nat → Bool} {probe fuel oProbe : Nat}
    (h : probeLoop inUse probe fuel oProbe = some id) : inUse id = false := by
  induction fuel generalizing oProbe with
  | zero => cases h
  | succ fuel ih =>
    rw [probeLoop] at h
    split at h
    case isTrue hfree =>
      cases h
      simpa using hfree
    case isFalse =>
      split at h
      · cases h
      · exact ih h

theorem core_take (h : Core s) (ht : held s t = none) (hfree : s.inUse id = false)
    (hpc : s'.pc = update s.pc t (.initQueue c id))
    (hinUse : s'.inUse = update s.inUse id true) (hrun : s'.runnable = s.runnable)
    (hslot : ∀ i, slot s' i = slot s i) : Core s' := by
  have hheld : held s' = update (held s) t (some id) := held_update hpc
  have hunowned : Unowned (held s) id := by
    intro u hu
    have hin := h.inUse u id hu
    rw [hfree] at hin
    cases hin
  refine ⟨?_, ?_, ?_, ?_⟩
  · rw [hheld]
    exact exclusive_take h.exclusive hunowned
  · intro u i hu
    rw [hinUse, update_apply]
    split
    · rfl
    · rename_i hi
      rw [hheld, update_apply] at hu
      split at hu
      · cases hu
        exact absurd rfl hi
      · exact h.inUse u i hu
  · intro u i hu
    rw [hslot, hrun]
    by_cases hut : u = t
    · subst hut
      rw [hheld, update_self] at hu
      cases hu
      rw [hpc, update_self]
      exact h.unowned id hunowned
    · rw [hheld, update_of_ne hut] at hu
      rw [hpc, update_of_ne hut]
      exact h.owned u i hu
  · intro i hi
    rw [hheld, unowned_take ht] at hi
    rw [hslot]
    exact h.unowned i hi.1

theorem core_drop (h : Core s) (ht : held s t = some id) (hquiet : Quiet (slot s id))
    (hpc : s'.pc = update s.pc t .idle) (hinUse : s'.inUse = update s.inUse id false)
    (hrun : ∀ u, held s u ≠ none → s'.runnable u = s.runnable u) (hslot : ∀ i, slot s' i = slot s i)
    :
    Core s' := by
  have hheld : held s' = update (held s) t none := held_update hpc
  have hother : ∀ {u i}, held s' u = some i → u ≠ t ∧ held s u = some i := by
    intro u i hu
    rw [hheld, update_apply] at hu
    split at hu
    · cases hu
    · exact ⟨‹_›, hu⟩
  refine ⟨?_, ?_, ?_, ?_⟩
  · rw [hheld]
    exact exclusive_drop h.exclusive
  · intro u i hu
    obtain ⟨hut, hu⟩ := hother hu
    have hi : i ≠ id := by
      rintro rfl
      exact hut (h.exclusive u t i hu ht)
    rw [hinUse, update_of_ne hi]
    exact h.inUse u i hu
  · intro u i hu
    obtain ⟨hut, hu⟩ := hother hu
    rw [hslot, hpc, update_of_ne hut, hrun u (by rw [hu]; simp)]
    exact h.owned u i hu
  · intro i hi
    rw [hheld, unowned_drop h.exclusive ht] at hi
    rw [hslot]
    rcases hi with hi | rfl
    · exact h.unowned i hi
    · exact hquiet

/-! ## Waiting for an id -/

theorem local_wait {w' : Wait} {wq : Queue → List Nat} (h : Local s) (hpc : s.pc t = .waitId c w)
    (hs : threads s' = ⟨update s.pc t (.waitId c w'), s.preemptCount, s.lockCount, wq, s.bug,
      s.returned⟩) (hw' : w' ≠ .test) (hreq : ∀ u ∈ wq .req, u = t ∨ u ∈ s.wq .req)
    (hxb : wq .xb = s.wq .xb) : Local s' := by
  simp only [threads, Threads.mk.injEq] at hs
  obtain ⟨hpc', hpre, hlock, hwq, hbug, hret⟩ := hs
  have hm : s.preemptCount t = (Pc.waitId c w').preempts := preempts_at h hpc rfl
  have hn : s.lockCount t = (Pc.waitId c w').locks := locks_at h hpc rfl
  refine local_move h hpc' ?_ ?_ rfl ?_ ?_ (hbug ▸ h.bug) (hret ▸ h.returned)
  · rw [hpre, ← hm, update_eq_self]
  · rw [hlock, ← hn, update_eq_self]
  · intro u hu
    rw [hwq] at hu
    by_cases hut : u = t
    · exact .inr ⟨hut, c, w', rfl, hw'⟩
    · exact .inl ⟨hut, (hreq u hu).resolve_left hut⟩
  · rw [hwq, hxb]
    exact h.xb

theorem inv_waitId {condition : Bool} (h : Inv s) (hpc : s.pc t = .waitId c w)
    (hs : waitEvent s t .req condition (.waitId c) (.lockReq c) w = some s') : Inv s' := by
  have hout : (s.pc t).phase = .outside := by
    rw [hpc]
    rfl
  have hself : ∀ {b : Bool} u, u ≠ t → held s u ≠ none → update s.runnable t b u = s.runnable u :=
    fun u hu _ => update_of_ne hu ..
  cases w with
  | test =>
    cases hs
    cases condition with
    | true =>
      exact inv_keep h hpc (local_pc h.threads hpc rfl rfl rfl rfl) rfl rfl
    | false =>
      exact inv_keep h hpc (local_wait h.threads hpc rfl (by decide) (fun _ => .inr) rfl) rfl rfl
  | enqueue =>
    cases hs
    refine ⟨core_outside h.core rfl rfl hout rfl hself (fun _ => rfl), ?_⟩
    refine local_wait h.threads hpc rfl (by decide) ?_ rfl
    intro u hu
    change u ∈ update s.wq .req _ .req at hu
    rw [update_self] at hu
    split at hu
    · exact .inr hu
    · rcases List.mem_append.mp hu with hu | hu
      · exact .inr hu
      · exact .inl (List.mem_singleton.mp hu)
  | retest =>
    cases hs
    refine inv_keep h hpc ?_ rfl rfl
    refine local_wait h.threads hpc rfl ?_ (fun _ => .inr) rfl
    cases condition <;> decide
  | wakeSelf =>
    cases hs
    refine ⟨core_outside h.core rfl rfl hout rfl hself (fun _ => rfl), ?_⟩
    exact local_wait h.threads hpc rfl (by decide) (fun _ => .inr) rfl
  | schedule =>
    have hlock : s.lockCount t = 0 := locks_at h.threads hpc rfl
    have hpre : s.preemptCount t = 0 := preempts_at h.threads hpc rfl
    simp only [waitEvent, gukSchedule, hlock, hpre, ne_eq, not_true_eq_false, or_self, if_false,
      Option.some.injEq] at hs
    subst hs
    exact inv_keep h hpc (local_wait h.threads hpc rfl (by decide) (fun _ => .inr) rfl) rfl rfl
  | asleep =>
    obtain ⟨-, rfl⟩ := of_when hs
    exact inv_keep h hpc (local_wait h.threads hpc rfl (by decide) (fun _ => .inr) rfl) rfl rfl
  | dequeue =>
    cases hs
    refine inv_keep h hpc ?_ rfl rfl
    have hpre : s.preemptCount t = (Pc.lockReq c).preempts := preempts_at h.threads hpc rfl
    have hlock : s.lockCount t = (Pc.lockReq c).locks := locks_at h.threads hpc rfl
    refine local_move h.threads rfl ?_ ?_ rfl ?_ h.threads.xb h.threads.bug h.threads.returned
    · rw [← hpre, update_eq_self]
      rfl
    · rw [← hlock, update_eq_self]
      rfl
    · intro u hu
      simp only [setPc, update_self, List.mem_filter, decide_eq_true_eq] at hu
      exact .inl ⟨hu.2, hu.1⟩

end Guk.XenbusReply
