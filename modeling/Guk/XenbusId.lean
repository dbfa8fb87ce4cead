import Guk.XenbusReplyInv

/-!
# The pool of request ids (`allocate_xenbus_id`, `release_xenbus_id`)

What the sections under `req_lock` do to the table of requests, whoever runs them and
in whatever order. The calls of `Guk.XenbusReply` run these sections between other
steps.
-/
namespace Guk.XenbusId

open Runs XenbusReply XenbusRing Function List

/-! ## Circular probing -/

section Probing

variable {inUse : Nat → Bool} {q i fuel id : Nat}

structure FirstFree (inUse : Nat → Bool) (q id : Nat) : Prop where
  free : inUse id = false
  within : ∃ i < NR_REQS, id = (q + i) % NR_REQS ∧ ∀ j < i, inUse ((q + j) % NR_REQS) = true

theorem mod_cover (hq : q < NR_REQS) (hid : id < NR_REQS) : ∃ j < NR_REQS,
    (q + j) % NR_REQS = id := by
  unfold NR_REQS at *
  by_cases hle : q ≤ id
  · exact ⟨id - q, by omega, by omega⟩
  · exact ⟨id + 32 - q, by omega, by omega⟩

theorem probeLoop_from (hq : q < NR_REQS) (hfuel : i + fuel = NR_REQS)
    (hbusy : ∀ j < i, inUse ((q + j) % NR_REQS) = true) (hid : id < NR_REQS)
    (hfree : inUse id = false) :
    ∃ id', probeLoop inUse q fuel ((q + i) % NR_REQS) = some id' ∧ FirstFree inUse q id' := by
  -- once all entries have been seen in use, the free one has been seen too
  have hall : ¬ ∀ j < NR_REQS, inUse ((q + j) % NR_REQS) = true := by
    intro hall
    obtain ⟨j, hj, heq⟩ := mod_cover hq hid
    have hset := hall j hj
    rw [heq, hfree] at hset
    cases hset
  induction fuel generalizing i with
  | zero =>
    have hi : i = NR_REQS := hfuel
    rw [hi] at hbusy
    exact absurd hbusy hall
  | succ fuel ih =>
    rw [probeLoop]
    cases hset : inUse ((q + i) % NR_REQS) with
    | false => exact ⟨_, rfl, hset, i, by omega, rfl, hbusy⟩
    | true =>
      have hbusy' : ∀ j < i + 1, inUse ((q + j) % NR_REQS) = true := by
        intro j hj
        by_cases heq : j = i
        · rw [heq]
          exact hset
        · exact hbusy j (by omega)
      have hnext : ((q + i) % NR_REQS + 1) % NR_REQS = (q + (i + 1)) % NR_REQS := by
        unfold NR_REQS
        omega
      have hturn : ¬ (q + (i + 1)) % NR_REQS = q := by
        intro heq
        have hlast : i + 1 = NR_REQS := by
          unfold NR_REQS at *
          omega
        rw [hlast] at hbusy'
        exact hall hbusy'
      simp only [Bool.not_true, Bool.false_eq_true, if_false, hnext, if_neg hturn]
      exact ih (by omega) hbusy'

theorem probeLoop_finds (hq : q < NR_REQS) (hid : id < NR_REQS) (hfree : inUse id = false) :
    ∃ id', probeLoop inUse q NR_REQS q = some id' ∧ FirstFree inUse q id' := by
  have hfind := probeLoop_from (i := 0) hq (Nat.zero_add NR_REQS) nofun hid hfree
  rw [Nat.add_zero, Nat.mod_eq_of_lt hq] at hfind
  exact hfind

end Probing

/-! ## The sections -/

/-- The table of requests as far as ids are concerned. Not in the code: `held`, the ids that threads
have, and `waiting`, the threads in `wait_event`. -/
structure State where
  inUse : Nat → Bool
  nrLiveReqs : Nat
  probe : Nat
  held : List (Nat × Nat)
  waiting : Nat → Bool

inductive Label where
  | allocate (t : Nat)
  /-- `wait_event` ends -/
  | awake (t : Nat)
  | release (t id : Nat)

def allocateXenbusId (s : State) (t : Nat) : Option State :=
  if s.nrLiveReqs < NR_REQS then
    (probeLoop s.inUse s.probe NR_REQS s.probe).map fun id =>
      { s with
        nrLiveReqs := s.nrLiveReqs + 1
        inUse := update s.inUse id true
        probe := (id + 1) % NR_REQS
        held := (t, id) :: s.held }
  else some { s with waiting := update s.waiting t true }

def releaseXenbusId (s : State) (t id : Nat) : State :=
  { s with
    nrLiveReqs := s.nrLiveReqs - 1
    inUse := update s.inUse id false
    held := s.held.erase (t, id) }

def step (s : State) : Label → Option State
  | .allocate t => if s.waiting t then none else allocateXenbusId s t
  | .awake t => if s.waiting t then some { s with waiting := update s.waiting t false } else none
  | .release t id => if s.held.contains (t, id) then some (releaseXenbusId s t id) else none

def Initial (s : State) : Prop :=
  s.inUse = (fun _ => false) ∧ s.nrLiveReqs = 0 ∧ s.probe = 0 ∧ s.held = [] ∧ s.waiting = fun _ =>
    false

/-! ## The invariant -/

def used (s : State) : Nat := (List.range NR_REQS).countP s.inUse

structure Inv (s : State) : Prop where
  probe : s.probe < NR_REQS
  live : s.nrLiveReqs = used s
  distinct : (s.held.map Prod.snd).Nodup
  below : ∀ x ∈ s.held, x.2 < NR_REQS
  marked : ∀ id, s.inUse id = true ↔ id ∈ s.held.map Prod.snd

variable {s s' : State} {t id : Nat} {f : Nat → Bool} {l : List Nat}

theorem countP_update_true (hnodup : l.Nodup) (hmem : id ∈ l)
    (hf : f id = false) : l.countP (update f id true) = l.countP f + 1 := by
  induction l with
  | nil => cases hmem
  | cons a l ih =>
    obtain ⟨hnot, hnodup⟩ := List.nodup_cons.mp hnodup
    rw [countP_cons, countP_cons]
    by_cases heq : a = id
    · have hrest : l.countP (update f id true) = l.countP f := by
        apply countP_congr
        intro b hb
        rw [update_of_ne]
        rintro rfl
        exact hnot (heq ▸ hb)
      rw [hrest, heq, update_self, hf, if_pos rfl, if_neg Bool.false_ne_true]
    · have hmem' : id ∈ l := (List.mem_cons.mp hmem).resolve_left (Ne.symm heq)
      rw [ih hnodup hmem', update_of_ne heq]
      omega

theorem countP_update_false (hnodup : l.Nodup) (hmem : id ∈ l)
    (hf : f id = true) : l.countP (update f id false) + 1 = l.countP f := by
  have hback := countP_update_true (f := update f id false) hnodup hmem (update_self ..)
  rw [update_idem, ← hf, update_eq_self] at hback
  exact hback.symm

theorem exists_free (h : Inv s) (hlt : s.nrLiveReqs < NR_REQS) :
    ∃ id < NR_REQS, s.inUse id = false := by
  by_contra hnone
  have hall : used s = NR_REQS := by
    rw [used, List.countP_eq_length.mpr, length_range]
    intro id hid
    by_contra hfree
    exact hnone ⟨id, List.mem_range.mp hid, Bool.eq_false_iff.mpr hfree⟩
  rw [h.live, hall] at hlt
  exact lt_irrefl _ hlt

theorem inv_allocate (h : Inv s) (hs : allocateXenbusId s t = some s') : Inv s' := by
  unfold allocateXenbusId at hs
  split at hs
  case isFalse =>
    cases hs
    exact { h with }
  case isTrue hlt =>
    obtain ⟨free, hfree, hclear⟩ := exists_free h hlt
    obtain ⟨id, hfind, hfirst⟩ := probeLoop_finds h.probe hfree hclear
    rw [hfind] at hs
    cases hs
    have hpos : 0 < NR_REQS := by decide
    have hid : id < NR_REQS := by
      obtain ⟨i, -, heq, -⟩ := hfirst.within
      rw [heq]
      exact Nat.mod_lt _ hpos
    have hnew : id ∉ s.held.map Prod.snd := by
      intro hmem
      have hset := (h.marked id).mpr hmem
      rw [hfirst.free] at hset
      cases hset
    constructor
    · exact Nat.mod_lt _ hpos
    · have hcount := countP_update_true nodup_range (List.mem_range.mpr hid) hfirst.free
      have hlive := h.live
      unfold used at hlive ⊢
      simp only
      omega
    · exact List.nodup_cons.mpr ⟨hnew, h.distinct⟩
    · intro x hx
      cases hx with
      | head => exact hid
      | tail _ hx => exact h.below x hx
    · intro k
      simp only [map_cons, mem_cons]
      by_cases heq : k = id
      · rw [heq, update_self]
        simp
      · rw [update_of_ne heq, h.marked]
        simp [heq]

theorem inv_release (h : Inv s) (hmem : (t, id) ∈ s.held) : Inv (releaseXenbusId s t id) := by
  have hid : id < NR_REQS := h.below _ hmem
  have hset := (h.marked id).mpr (mem_map_of_mem hmem)
  have hperm := perm_cons_erase hmem
  have hids := (hperm.map Prod.snd).nodup_iff.mp h.distinct
  obtain ⟨hnot, hnodup⟩ := List.nodup_cons.mp hids
  constructor
  · exact h.probe
  · have hcount := countP_update_false nodup_range (List.mem_range.mpr hid) hset
    have hlive := h.live
    unfold used at hlive
    change s.nrLiveReqs - 1 = (List.range NR_REQS).countP (update s.inUse id false)
    omega
  · exact hnodup
  · exact fun x hx => h.below x (mem_of_mem_erase hx)
  · intro k
    simp only [releaseXenbusId]
    by_cases heq : k = id
    · rw [heq, update_self]
      exact ⟨nofun, fun hk => absurd hk hnot⟩
    · rw [update_of_ne heq, h.marked, (hperm.map Prod.snd).mem_iff, map_cons, mem_cons]
      exact ⟨fun hk => hk.resolve_left heq, .inr⟩

theorem inv_step {l : Label} (h : Inv s) (hs : step s l = some s') : Inv s' := by
  cases l with
  | allocate t =>
    obtain ⟨-, hs⟩ := Option.ite_none_left_eq_some.mp hs
    exact inv_allocate h hs
  | awake t =>
    obtain ⟨-, rfl⟩ := of_when hs
    exact { h with }
  | release t id =>
    obtain ⟨hheld, rfl⟩ := of_when hs
    exact inv_release h (List.contains_iff_mem.mp hheld)

/-! ## The result -/

structure Sane (s : State) : Prop where
  live : s.nrLiveReqs = used s
  distinct : (s.held.map Prod.snd).Nodup
  below : ∀ x ∈ s.held, x.2 < NR_REQS
  marked : ∀ x ∈ s.held, s.inUse x.2 = true
  probe : s.probe < NR_REQS
  finds : s.nrLiveReqs < NR_REQS → ∀ q < NR_REQS,
    ∃ id, probeLoop s.inUse q NR_REQS q = some id ∧ FirstFree s.inUse q id

theorem inv_initial (h : Initial s) : Inv s := by
  obtain ⟨hinUse, hlive, hprobe, hheld, -⟩ := h
  constructor
  · rw [hprobe]
    decide
  · rw [hlive, used, hinUse]
    rfl
  · rw [hheld]
    exact nodup_nil
  · rw [hheld]
    exact nofun
  · intro id
    rw [hheld, hinUse]
    exact ⟨nofun, nofun⟩

theorem ids_sane (s : State) (h : Reach step anyStep Initial s) : Sane s := by
  have hinv : Inv s := h.invariant (fun _ => inv_initial) fun _ _ _ hinv _ hs => inv_step hinv hs
  refine { hinv with marked := ?_, finds := ?_ }
  · exact fun x hx => (hinv.marked x.2).mpr (mem_map_of_mem hx)
  · intro hlt q hq
    obtain ⟨id, hid, hfree⟩ := exists_free hinv hlt
    exact probeLoop_finds hq hid hfree

def start : State := ⟨fun _ => false, 0, 0, [], fun _ => false⟩

theorem ids_sane_full : ∃ s, Reach step anyStep Initial s ∧
    (s.nrLiveReqs = 31 ∧ s.waiting 40 = true ∧
    s.probe = 0 ∧ probeLoop s.inUse 0 NR_REQS 0 = some 5) ∧ Sane s := by
  have hstart : Reach step anyStep Initial start := .start ⟨rfl, rfl, rfl, rfl, rfl⟩
  obtain ⟨s, hreach, hfacts⟩ := hstart.runTo
    (P := fun s => s.nrLiveReqs = 31 ∧ s.waiting 40 = true ∧ s.probe = 0 ∧
      probeLoop s.inUse 0 NR_REQS 0 = some 5)
    ((List.range 32).map Label.allocate ++ [.allocate 40, .release 5 5]) (by decide +kernel)
  exact ⟨s, hreach, hfacts, ids_sane s hreach⟩

/-! ## The sections in the calls -/

def ofReply (s : XenbusReply.State) (held : List (Nat × Nat)) (waiting : Nat → Bool) : State :=
  ⟨s.inUse, s.nrLiveReqs, s.probe, held, waiting⟩

/-- The sections that the calls have run lead to the ids that they hold. -/
def Refines (s : XenbusReply.State) : Prop :=
  ∃ held, Reach step anyStep Initial (ofReply s held fun _ => false) ∧
    ∀ t id, (t, id) ∈ held ↔ XenbusReply.held s t = some id

section

variable {r : RingSize} {s s' : XenbusReply.State} {c : Call} {p q : Pc} {rep : Nat}

theorem refines_same (h : Refines s) (hids : ofReply s' = ofReply s)
    (hheld : XenbusReply.held s' = XenbusReply.held s) : Refines s' := by
  obtain ⟨held, hreach, hagrees⟩ := h
  refine ⟨held, ?_, ?_⟩
  · rw [hids]
    exact hreach
  · rw [hheld]
    exact hagrees

theorem refines_move (h : Refines s) (hpc : s.pc t = q) (hids : ofReply s' = ofReply s)
    (hpc' : s'.pc = update s.pc t p) (hheld : p.phase.held = q.phase.held) : Refines s' := by
  apply refines_same h hids
  rw [held_update hpc', hheld, ← hpc]
  exact update_eq_self t (XenbusReply.held s)

theorem refines_allocate (h : Refines s) (hpc : s.pc t = .allocate c)
    (hs : XenbusReply.allocateXenbusId s t c = some s') : Refines s' := by
  unfold XenbusReply.allocateXenbusId at hs
  split at hs
  case isTrue hlt =>
    obtain ⟨id, hid, rfl⟩ := Option.map_eq_some_iff.mp hs
    obtain ⟨held, hreach, hagrees⟩ := h
    refine ⟨(t, id) :: held, .next (.allocate t) hreach trivial ?_, fun u i => ?_⟩
    · simp [step, allocateXenbusId, ofReply, hlt, hid, setPc, spinUnlock, XenbusReply.preemptEnable]
    · rw [held_update (s := s) (t := t) (p := .initQueue c id) rfl]
      by_cases hu : u = t
      · simp [hu, hagrees, XenbusReply.held, hpc, Pc.phase, Phase.held, eq_comm]
      · simp [hu, hagrees]
  case isFalse hge =>
    cases hs
    exact refines_move h hpc rfl rfl rfl

theorem ofReply_release {held : List (Nat × Nat)} {waiting : Nat → Bool} :
    ofReply (XenbusReply.releaseXenbusId s t c id rep) (held.erase (t, id)) waiting =
      releaseXenbusId (ofReply s held waiting) t id := by
  unfold XenbusReply.releaseXenbusId
  simp only
  split <;> rfl

section

variable (h : Refines s)

include h

theorem refines_release (hpc : s.pc t = .release c id rep) :
    Refines (XenbusReply.releaseXenbusId s t c id rep) := by
  obtain ⟨held, hreach, hagrees⟩ := h
  have hinv := hreach.invariant (fun _ => inv_initial) fun _ _ _ hi _ hs => inv_step hi hs
  have hnodup : held.Nodup :=
    List.Pairwise.of_map Prod.snd (fun _ _ hne heq => hne (congrArg Prod.snd heq)) hinv.distinct
  have hheld : XenbusReply.held s t = some id := by rw [XenbusReply.held, hpc]; rfl
  have hpc' : (XenbusReply.releaseXenbusId s t c id rep).pc = update s.pc t .idle := by
    unfold XenbusReply.releaseXenbusId
    simp only
    split <;> rfl
  refine ⟨held.erase (t, id), .next (.release t id) hreach trivial ?_, fun u i => ?_⟩
  · rw [ofReply_release]
    exact if_pos (List.contains_iff_mem.mpr ((hagrees t id).mpr hheld))
  · rw [hnodup.mem_erase_iff, hagrees, held_update hpc']
    by_cases hu : u = t
    · simp [hu, hheld, Pc.phase, Phase.held, eq_comm]
    · simp [hu]

theorem refines_schedule (hpc : s.pc t = q) (hheld : p.phase.held = q.phase.held) :
    Refines (gukSchedule s t p) := by
  unfold gukSchedule
  split
  · exact refines_same h rfl rfl
  · exact refines_move h hpc rfl rfl hheld

theorem refines_waitEvent {k : Queue} {condition : Bool} {inside : Wait → Pc} {w : Wait}
    (hpc : s.pc t = inside w) (hin : ∀ v, (inside v).phase.held = (inside w).phase.held)
    (hout : p.phase.held = (inside w).phase.held)
    (hs : waitEvent s t k condition inside p w = some s') :
    Refines s' := by
  cases w with
  | test =>
    cases hs
    exact refines_move h hpc rfl rfl (by split; exacts [hout, hin _])
  | enqueue | retest | wakeSelf =>
    cases hs
    exact refines_move h hpc rfl rfl (hin _)
  | schedule =>
    cases hs
    exact refines_schedule h hpc (hin _)
  | asleep =>
    obtain ⟨-, rfl⟩ := of_when hs
    exact refines_move h hpc rfl rfl (hin _)
  | dequeue =>
    cases hs
    exact refines_move h hpc rfl rfl hout

theorem refines_thread (hs : stepThread r s t = some s') : Refines s' := by
  cases hpc : s.pc t with
  | idle =>
    rw [stepThread, hpc] at hs
    cases hs
  | lockReq c | lockRing c id waited | lockRelease c id rep =>
    simp only [stepThread, hpc] at hs
    obtain ⟨-, rfl⟩ := of_unless hs
    exact refines_move h hpc rfl rfl rfl
  | allocate c =>
    rw [stepThread, hpc] at hs
    exact refines_allocate h hpc hs
  | waitId c w =>
    rw [stepThread, hpc] at hs
    exact refines_waitEvent h hpc (fun _ => rfl) (p := .lockReq c) rfl hs
  | initQueue c id | preemptDisable c id | addWaiter c id | preemptEnable c id =>
    simp only [stepThread, hpc] at hs
    cases hs
    exact refines_move h hpc rfl rfl rfl
  | write c id waited =>
    simp only [stepThread, hpc, xbWrite] at hs
    split at hs
    · cases hs
      exact refines_move h hpc rfl rfl rfl
    · obtain ⟨-, rfl⟩ := of_unless hs
      exact refines_move h hpc rfl rfl rfl
  | waitSpace c id w =>
    rw [stepThread, hpc] at hs
    exact refines_waitEvent h hpc (fun _ => rfl) (p := .lockRing c id true) rfl hs
  | schedule c id =>
    simp only [stepThread, hpc] at hs
    cases hs
    exact refines_schedule h hpc rfl
  | asleep c id =>
    simp only [stepThread, hpc] at hs
    obtain ⟨-, rfl⟩ := of_when hs
    exact refines_move h hpc rfl rfl rfl
  | readReply c id =>
    simp only [stepThread, hpc] at hs
    obtain ⟨rep, -, rfl⟩ := Option.map_eq_some_iff.mp hs
    exact refines_move h hpc rfl rfl rfl
  | release c id rep =>
    simp only [stepThread, hpc] at hs
    cases hs
    exact refines_release h hpc

theorem refines_step {l : XenbusReply.Label} (hs : XenbusReply.step r s l = some s') :
    Refines s' := by
  obtain ⟨-, hs⟩ := Option.ite_none_left_eq_some.mp hs
  cases l with
  | call t len =>
    obtain ⟨hpc, rfl⟩ := of_when hs
    exact refines_move h hpc rfl rfl rfl
  | thread t => exact refines_thread h hs
  | consume n | store q =>
    obtain ⟨-, rfl⟩ := of_when hs
    exact refines_same h rfl rfl
  | wakeWaiter =>
    simp only at hs
    split at hs
    · cases hs
    · cases hs
      exact refines_same h rfl rfl
  | evtchn | interrupt t =>
    cases hs
    exact refines_same h rfl rfl

end

end

/-- Whatever the threads, xenstored and the xenbus thread do, the ids of the calls are those of a
run of the two sections. -/
theorem calls_refine_sections (r : RingSize) (s : XenbusReply.State)
    (h : Reach (XenbusReply.step r) anyStep (fun s => XenbusReply.Initial s ∧ s.probe = 0) s) :
    Refines s := by
  refine h.invariant (fun s hinit => ⟨[], .start ?_, fun t id => ?_⟩) fun _ _ _ hi _ hs =>
    refines_step hi hs
  · exact ⟨funext hinit.1.inUse, hinit.1.nrLiveReqs, hinit.2, rfl, rfl⟩
  · simp [XenbusReply.held, hinit.1.pc, Pc.phase, Phase.held]

theorem calls_refine_sections_two :
    ∃ s, Refines s ∧ XenbusReply.held s 0 = some 0 ∧ XenbusReply.held s 1 = some 1 := by
  have hstart :
    Reach (XenbusReply.step ring1024) anyStep (fun s => XenbusReply.Initial s ∧ s.probe = 0)
      XenbusReply.start := .start ⟨start_initial, rfl⟩
  obtain ⟨s, hs, hheld⟩ := hstart.runTo
    (P := fun s => XenbusReply.held s 0 = some 0 ∧ XenbusReply.held s 1 = some 1)
    [.call 0 100, .thread 0, .thread 0, .call 1 100, .thread 1, .thread 1] (by decide +kernel)
  exact ⟨s, calls_refine_sections ring1024 s hs, hheld⟩

end Guk.XenbusId
