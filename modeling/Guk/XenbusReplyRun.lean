import Guk.XenbusReplyInv

/-!
# The steps of `xenbus_msg_reply`

Each step keeps the invariant as long as `xb_write` does not block and only replies
wake threads that wait for one.
-/
namespace Guk.XenbusReply

open Owner Guk.Ring Runs XenbusRing Function List

variable {r : RingSize} {s s' : State} {t u id i : Nat} {c : Call} {p : Pc} {w : Wait} {q : Request}
  {l : List Request}

/-! ## The steps of a call -/

theorem fact_of_pc (h : Core s) (hpc : s.pc t = p) (id : Nat) (hp : p.phase.held = some id) :
    held s t = some id ∧ Fact t (s.runnable t) (slot s id) p.phase := by
  have hheld : held s t = some id := by
    rw [held, hpc, hp]
  have hfact := h.owned t id hheld
  rw [hpc] at hfact
  exact ⟨hheld, hfact⟩

theorem core_holder (h : Core s) (ht : held s t = some id) (hpc : s'.pc = update s.pc t p)
    (hp : p.phase.held = some id) (hinUse : s'.inUse = s.inUse)
    (hrun : ∀ u, u ≠ t → s'.runnable u = s.runnable u)
    (hslot : ∀ i, i ≠ id → slot s' i = slot s i)
    (hfact : Fact t (s'.runnable t) (slot s' id) p.phase) : Core s' := by
  apply core_move h hpc (hp.trans ht.symm) hinUse (fun u hu _ => hrun u hu)
  · intro i hi
    apply hslot
    rintro rfl
    exact hi ht
  · intro i hi
    rw [ht] at hi
    cases hi
    exact hfact

theorem inv_allocate (h : Inv s) (hpc : s.pc t = .allocate c)
    (hs : allocateXenbusId s t c = some s') :
    Inv s' := by
  unfold allocateXenbusId at hs
  split at hs
  · obtain ⟨id, hid, rfl⟩ := Option.map_eq_some_iff.mp hs
    have hnone : held s t = none := by
      rw [held, hpc]
      rfl
    refine ⟨core_take h.core hnone (probeLoop_free hid) rfl rfl rfl (fun _ => rfl), ?_⟩
    exact local_unlock { h.threads with } hpc rfl rfl rfl rfl
  · cases hs
    exact inv_keep h hpc (local_unlock { h.threads with } hpc rfl rfl rfl rfl) rfl rfl

theorem slot_send (hq : s'.requests = s.requests ++ [q]) (hwaitq : s'.waitq = s.waitq)
    (hreply : s'.reply = s.reply) (hhandling : s'.handling = s.handling) (i : Nat) :
    slot s' i =
      { slot s i with flight := (slot s i).flight ++ if q.id = i then [q.serial] else [] } := by
  simp only [slot, hq, hwaitq, hreply, hhandling, filter_append, map_append]
  by_cases hi : q.id = i <;> simp [hi]

theorem inv_write {waited : Bool} (h : Inv s) (hpc : s.pc t = .write c id waited)
    (hs : xbWrite r s t c id waited = some s') : Inv s' := by
  unfold xbWrite at hs
  split at hs
  · cases hs
    exact inv_keep h hpc (local_unlock { h.threads with } hpc rfl rfl rfl rfl) rfl rfl
  · split at hs
    · cases hs
    · obtain ⟨hheld, hquiet, hwaitq, hrun⟩ := fact_of_pc h.core hpc id rfl
      have hs' := Option.some.inj hs
      have hslot : ∀ i, slot s' i = _ := slot_send (s := s) (q := ⟨id, c.serial, s.reqProd + c.len⟩)
        (by rw [← hs']; rfl) (by rw [← hs']; rfl) (by rw [← hs']; rfl) (by rw [← hs']; rfl)
      subst hs'
      refine ⟨core_holder h.core hheld rfl rfl rfl (fun _ _ => rfl) ?_ ?_, ?_⟩
      · intro i hi
        rw [hslot, if_neg (Ne.symm hi), append_nil]
      · rw [hslot, if_pos rfl, hquiet.flight]
        refine ⟨hwaitq, ?_⟩
        change Progress c.serial _ (s.runnable t)
        rw [hrun]
        exact .flight rfl hquiet.handling
      · exact local_unlock { h.threads with } hpc rfl rfl rfl rfl

theorem held_of_req (h : Local s) (hu : u ∈ s.wq .req) : held s u = none := by
  obtain ⟨c, w, hpc, -⟩ := h.req u hu
  rw [held, hpc]
  rfl

theorem local_returned (h : Local s) (n : Nat) :
    Local { s with returned := (n, n) :: s.returned } := by
  refine { h with returned := ?_ }
  intro e he
  rcases List.mem_cons.mp he with rfl | he
  · rfl
  · exact h.returned e he

theorem inv_release {rep : Nat} (h : Inv s) (hpc : s.pc t = .release c id rep) :
    Inv (releaseXenbusId s t c id rep) := by
  obtain ⟨hheld, hquiet, rfl⟩ := fact_of_pc h.core hpc id rfl
  have hret := local_returned h.threads c.serial
  unfold releaseXenbusId
  simp only
  split
  · refine ⟨core_drop h.core hheld hquiet rfl rfl ?_ (fun _ => rfl), ?_⟩
    · intro u hu
      exact if_neg fun hmem => hu (held_of_req h.threads hmem)
    · exact local_unlock { hret with } hpc rfl rfl rfl rfl
  · refine ⟨core_drop h.core hheld hquiet rfl rfl (fun _ _ => rfl) (fun _ => rfl), ?_⟩
    exact local_unlock { hret with } hpc rfl rfl rfl rfl

theorem slot_waitq {l : List Nat} (hi : i ≠ id) :
    slot { s with waitq := update s.waitq id l } i = slot s i := by
  simp [slot, hi]

theorem inv_thread (h : Inv s) (hok : ownReplyStep r s (.thread t))
    (hs : stepThread r s t = some s') :
    Inv s' := by
  cases hpc : s.pc t with
  | idle =>
    rw [stepThread, hpc] at hs
    cases hs
  | lockReq c | lockRing c id waited | lockRelease c id rep =>
    simp only [stepThread, hpc] at hs
    obtain ⟨-, rfl⟩ := of_unless hs
    exact inv_keep h hpc (local_lock { h.threads with } hpc rfl rfl rfl rfl) rfl rfl
  | allocate c =>
    rw [stepThread, hpc] at hs
    exact inv_allocate h hpc hs
  | waitId c w =>
    rw [stepThread, hpc] at hs
    exact inv_waitId h hpc hs
  | initQueue c id =>
    obtain ⟨hheld, hquiet⟩ := fact_of_pc h.core hpc id rfl
    simp only [stepThread, hpc] at hs
    cases hs
    refine ⟨core_holder h.core hheld rfl rfl rfl (fun _ _ => rfl) (fun i hi => slot_waitq hi) ?_,
      ?_⟩
    · exact ⟨⟨hquiet.flight, hquiet.handling⟩, update_self ..⟩
    · exact local_pc { h.threads with } hpc rfl rfl rfl rfl
  | preemptDisable c id =>
    simp only [stepThread, hpc] at hs
    cases hs
    exact inv_keep h hpc (local_preemptDisable h.threads hpc rfl rfl rfl rfl) rfl rfl
  | addWaiter c id =>
    obtain ⟨hheld, hquiet, hempty⟩ := fact_of_pc h.core hpc id rfl
    simp only [stepThread, hpc] at hs
    cases hs
    refine ⟨core_holder h.core hheld rfl rfl rfl (fun u hu => update_of_ne hu ..)
      (fun i hi => slot_waitq hi) ?_, ?_⟩
    · refine ⟨⟨hquiet.flight, hquiet.handling⟩, ?_, update_self ..⟩
      have hempty' : s.waitq id = [] := hempty
      simp [slot, setPc, setRunnable, hempty']
    · exact local_pc { h.threads with } hpc rfl rfl rfl rfl
  | write c id waited =>
    rw [stepThread, hpc] at hs
    exact inv_write h hpc hs
  | waitSpace c id w =>
    have hw := h.threads.space t c id w hpc
    subst hw
    have hspace : hasSpace r s c.len = true := by simpa [ownReplyStep, hpc] using hok
    simp only [stepThread, hpc, waitEvent, hspace, if_true] at hs
    cases hs
    exact inv_keep h hpc (local_pc h.threads hpc rfl rfl rfl rfl) rfl rfl
  | preemptEnable c id =>
    simp only [stepThread, hpc] at hs
    cases hs
    exact inv_keep h hpc (local_preemptEnable h.threads hpc rfl rfl rfl rfl) rfl rfl
  | schedule c id =>
    have hlock : s.lockCount t = 0 := locks_at h.threads hpc rfl
    have hpre : s.preemptCount t = 0 := preempts_at h.threads hpc rfl
    simp only [stepThread, hpc, gukSchedule, hlock, hpre, ne_eq, not_true_eq_false, or_self,
      if_false, Option.some.injEq] at hs
    subst hs
    exact inv_keep h hpc (local_pc h.threads hpc rfl rfl rfl rfl) rfl rfl
  | asleep c id =>
    obtain ⟨hheld, -, hprogress⟩ := fact_of_pc h.core hpc id rfl
    simp only [stepThread, hpc] at hs
    obtain ⟨hrun, rfl⟩ := of_when hs
    rw [hrun] at hprogress
    cases hprogress with
    | woken hquiet hreply =>
      refine ⟨core_holder h.core hheld rfl rfl rfl (fun _ _ => rfl) (fun _ _ => rfl)
        ⟨hquiet, hreply⟩, ?_⟩
      exact local_pc h.threads hpc rfl rfl rfl rfl
  | readReply c id =>
    obtain ⟨hheld, hquiet, hreply⟩ := fact_of_pc h.core hpc id rfl
    simp only [stepThread, hpc] at hs
    obtain ⟨rep, hrep, rfl⟩ := Option.map_eq_some_iff.mp hs
    have hown := Option.some.inj (hrep.symm.trans hreply)
    refine ⟨core_holder h.core hheld rfl rfl rfl (fun _ _ => rfl) (fun _ _ => rfl) ⟨hquiet, hown⟩,
      ?_⟩
    exact local_pc h.threads hpc rfl rfl rfl rfl
  | release c id rep =>
    simp only [stepThread, hpc] at hs
    cases hs
    exact inv_release h hpc

/-! ## The environment -/

theorem sent_of_busy (h : Core s) (hbusy : ¬ Quiet (slot s id)) : ∃ t n, held s t = some id ∧
    (s.pc t).phase = .sent id n ∧ (slot s id).waitq = [t] ∧
      Progress n (slot s id) (s.runnable t) := by
  have howned : ∃ t, held s t = some id := by
    by_contra hno
    exact hbusy (h.unowned id fun t ht => hno ⟨t, ht⟩)
  obtain ⟨t, ht⟩ := howned
  have hfact := h.owned t id ht
  rw [held] at ht
  cases hphase : (s.pc t).phase with
  | sent i n =>
    rw [hphase] at ht hfact
    cases ht
    exact ⟨t, n, by rw [held, hphase]; rfl, hphase, hfact⟩
  | outside =>
    rw [hphase] at ht
    cases ht
  | fresh i =>
    rw [hphase] at hfact
    exact absurd hfact hbusy
  | ready i | queued i | back i n | done i n rep =>
    rw [hphase] at hfact
    exact absurd hfact.1 hbusy

theorem core_arrive (h : Core s) (ht : held s t = some id) (hpc : s'.pc = s.pc)
    (hinUse : s'.inUse = s.inUse) (hrun : ∀ u, u ≠ t → s'.runnable u = s.runnable u)
    (hslot : ∀ i, i ≠ id → slot s' i = slot s i)
    (hfact : Fact t (s'.runnable t) (slot s' id) (s.pc t).phase) : Core s' := by
  apply core_holder h ht (p := s.pc t) _ ht hinUse hrun hslot hfact
  rw [hpc, update_eq_self]

theorem flight_filter {n : Nat} (hq : q ∈ l)
    (hn : (l.filter (·.id = q.id)).map (·.serial) = [n]) :
    q.serial = n ∧ (l.filter (· ≠ q)).filter (·.id = q.id) = [] := by
  obtain ⟨x, hx, rfl⟩ := List.map_eq_singleton_iff.mp hn
  have hmem : q ∈ l.filter (·.id = q.id) := List.mem_filter.mpr ⟨hq, by simp⟩
  rw [hx] at hmem
  have hqx := List.mem_singleton.mp hmem
  refine ⟨by rw [hqx], ?_⟩
  rw [filter_filter]
  simp only [Bool.and_comm (decide (_ = q.id))]
  rw [← filter_filter, hx, hqx]
  simp

theorem flight_other (hi : i ≠ q.id) :
    (l.filter (· ≠ q)).filter (·.id = i) = l.filter (·.id = i) := by
  rw [filter_filter]
  apply filter_congr
  intro x _
  by_cases hx : x.id = i
  · have hne : x ≠ q := by
      rintro rfl
      exact hi hx.symm
    simp [hx, hne]
  · simp [hx]

theorem inv_store (h : Inv s) (hq : q ∈ s.requests) (hnone : s.handling = none) :
    Inv { s with
      xbLock := true
      requests := s.requests.filter (· ≠ q)
      reply := update s.reply q.id (some q.serial)
      handling := some q.id } := by
  have hbusy : ¬ Quiet (slot s q.id) := by
    intro hquiet
    have hmem : q.serial ∈ (slot s q.id).flight :=
      List.mem_map.mpr ⟨q, List.mem_filter.mpr ⟨hq, by simp⟩, rfl⟩
    rw [hquiet.flight] at hmem
    cases hmem
  obtain ⟨t, n, ht, hphase, hwaitq, hprogress⟩ := sent_of_busy h.core hbusy
  refine ⟨core_arrive h.core ht rfl rfl (fun _ _ => rfl) ?_ ?_, { h.threads with }⟩
  · intro i hi
    simp only [slot, flight_other hi, update_of_ne hi, hnone]
    simp [Ne.symm hi]
  · rw [hphase]
    generalize s.runnable t = b at hprogress
    cases hprogress with
    | flight hflight hh =>
      obtain ⟨rfl, hrest⟩ := flight_filter hq hflight
      refine ⟨hwaitq, ?_⟩
      apply Progress.stored
      · simp only [slot, hrest, map_nil]
      · simp [slot]
      · simp [slot]
    | stored hflight hh hreply =>
      simp only [slot, hnone] at hh
      cases hh
    | woken hquiet hreply => exact absurd hquiet hbusy

theorem inv_wakeWaiter (h : Inv s) (hid : s.handling = some id) :
    Inv { wakeUp s (s.waitq id) with handling := none, xbLock := false } := by
  have hbusy : ¬ Quiet (slot s id) := by
    intro hquiet
    have hh := hquiet.handling
    simp [slot, hid] at hh
  obtain ⟨t, n, ht, hphase, hwaitq, hprogress⟩ := sent_of_busy h.core hbusy
  have hwaitq' : s.waitq id = [t] := hwaitq
  have hh : (slot s id).handling = true := by simp [slot, hid]
  refine ⟨core_arrive h.core ht rfl rfl ?_ ?_ ?_, { h.threads with }⟩
  · intro u hu
    simp [wakeUp, hwaitq', hu]
  · intro i hi
    simp [slot, wakeUp, hid, Ne.symm hi]
  · have hrun : (wakeUp s (s.waitq id)).runnable t = true := by simp [wakeUp, hwaitq']
    rw [hphase]
    change _ ∧ Progress n _ ((wakeUp s (s.waitq id)).runnable t)
    rw [hrun]
    refine ⟨hwaitq, ?_⟩
    generalize s.runnable t = b at hprogress
    cases hprogress with
    | flight hflight hf =>
      rw [hh] at hf
      cases hf
    | stored hflight _ hreply =>
      refine .woken ?_ hreply
      exact ⟨hflight, by simp [slot]⟩
    | woken hquiet hreply => exact absurd hquiet hbusy

theorem fact_runnable {b b' : Bool} {v : Slot} (hp : p.awaiting = false) (h : Fact t b v p.phase) :
    Fact t b' v p.phase := by
  cases p with
  | lockRing | write | waitSpace | preemptEnable | schedule | asleep => cases hp
  | _ => exact h

theorem inv_interrupt (h : Inv s) (hok : (s.pc t).awaiting = true → s.runnable t = true) :
    Inv (setRunnable s t true) := by
  refine ⟨?_, { h.threads with }⟩
  have hother : ∀ u, u ≠ t → (setRunnable s t true).runnable u = s.runnable u :=
    fun u hu => update_of_ne hu ..
  cases ht : held s t with
  | none =>
    refine core_same h.core rfl rfl ?_ (fun _ => rfl)
    intro u hu
    apply hother
    rintro rfl
    exact hu ht
  | some id =>
    refine core_arrive h.core ht rfl rfl hother (fun _ _ => rfl) ?_
    have hfact := h.core.owned t id ht
    cases hawait : (s.pc t).awaiting with
    | false => exact fact_runnable hawait hfact
    | true =>
      rw [hok hawait] at hfact
      change Fact t (update s.runnable t true t) _ _
      rw [update_self]
      exact hfact

theorem inv_step {l : Label} (h : Inv s) (hok : ownReplyStep r s l) (hs : step r s l = some s') :
    Inv s' := by
  obtain ⟨-, hs⟩ := Option.ite_none_left_eq_some.mp hs
  cases l with
  | call t len =>
    obtain ⟨hpc, rfl⟩ := of_when hs
    exact inv_keep h hpc (local_pc { h.threads with } hpc rfl rfl rfl rfl) rfl rfl
  | thread t => exact inv_thread h hok hs
  | consume n =>
    obtain ⟨-, rfl⟩ := of_when hs
    exact ⟨core_same h.core rfl rfl (fun _ _ => rfl) (fun _ => rfl),
      { h.threads with }⟩
  | store q =>
    obtain ⟨⟨hq, -, hnone, -⟩, rfl⟩ := of_when hs
    exact inv_store h hq hnone
  | wakeWaiter =>
    cases hid : s.handling with
    | none =>
      simp only [hid] at hs
      cases hs
    | some id =>
      simp only [hid] at hs
      cases hs
      exact inv_wakeWaiter h hid
  | evtchn =>
    cases hs
    refine ⟨core_same h.core rfl rfl ?_ (fun _ => rfl), { h.threads with }⟩
    intro u _
    simp [wakeUp, h.threads.xb]
  | interrupt t =>
    cases hs
    exact inv_interrupt h hok

theorem inv_initial (h : Initial s) : Inv s := by
  have hheld : ∀ t, held s t = none := by
    intro t
    rw [held, h.pc]
    rfl
  refine ⟨⟨?_, ?_, ?_, ?_⟩, ?_, ?_, ?_, ?_, h.wq .xb, h.bug, ?_⟩
  · intro t u id ht
    rw [hheld] at ht
    cases ht
  · intro t id ht
    rw [hheld] at ht
    cases ht
  · intro t id ht
    rw [hheld] at ht
    cases ht
  · intro id _
    constructor
    · simp [slot, h.requests]
    · simp [slot, h.handling]
  · intro t
    rw [h.preemptCount, h.pc]
    rfl
  · intro t
    rw [h.lockCount, h.pc]
    rfl
  · intro t c id w ht
    rw [h.pc] at ht
    cases ht
  · intro t ht
    rw [h.wq] at ht
    cases ht
  · simp [h.returned]

theorem ownReply_of_inv (h : Inv s) : OwnReply s := by
  refine ⟨h.threads.bug, ?_, h.threads.returned⟩
  intro t c id hpc
  obtain ⟨-, -, hreply⟩ := fact_of_pc h.core hpc id rfl
  exact hreply

theorem own_reply (r : RingSize) (s : State) (h : Reach (step r) (ownReplyStep r) Initial s) :
    OwnReply s := by
  have hinv : Inv s := by
    apply h.invariant
    · intro s hs
      exact inv_initial hs
    · intro s l t hs hok hstep
      exact inv_step hs hok hstep
  exact ownReply_of_inv hinv

instance (r : RingSize) (s : State) (l : Label) : Decidable (ownReplyStep r s l) := by
  unfold ownReplyStep
  split
  · split <;> infer_instance
  · infer_instance
  · infer_instance

def answered : List Label :=
  untilWrite 0 100 ++ [.thread 0, .thread 0, .consume 100, .store ⟨0, 0, 100⟩, .wakeWaiter,
    .thread 0, .thread 0, .thread 0, .thread 0]

theorem own_reply_answered : ∃ s, Reach (step ring1024) (ownReplyStep ring1024) Initial s ∧
    s.returned = [(0, 0)] ∧ OwnReply s := by
  have h₀ : Reach (step ring1024) (ownReplyStep ring1024) Initial start := .start start_initial
  obtain ⟨s, hreach, hret⟩ := h₀.runGuardedTo (P := fun s => s.returned = [(0, 0)]) answered
    (by decide +kernel)
  exact ⟨s, hreach, hret, own_reply ring1024 s hreach⟩

end Guk.XenbusReply
