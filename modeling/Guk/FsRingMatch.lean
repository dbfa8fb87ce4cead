import Guk.FsRing

/-!
# Responses find their requests

The invariant behind `FsRing.Matching`: the order of the indices, what the threads
own, and what the slots between the indices hold. All live indices are in one window
of the size of the ring, so different indices mean different slots.
-/
namespace Guk.FsRing

open Owner Guk.Ring Runs Function List

structure Counters (c : Config) (s : State) : Prop where
  read : s.rspCons ≤ readPos s
  readProd : readPos s ≤ s.rspProd
  prod : s.rspProd ≤ s.rspProdPvt
  balance : s.rspProdPvt + s.pending.length = s.reqCons
  consumed : s.reqCons ≤ s.reqProd
  committed : s.reqProd ≤ s.reqProdPvt
  window : s.reqProdPvt ≤ s.rspCons + c.ringSize
  loop : ∀ cons rp, s.handler = .loop cons rp → cons ≤ rp ∧ rp ≤ s.rspProd

structure Ids (s : State) : Prop where
  inUse : ∀ id, id ∈ s.inUse ↔ ∃ t, (s.thread t).id? = some id
  nodup : s.inUse.Nodup
  owner : ∀ t id, (s.thread t).id? = some id → s.reqThread id = t

def Reserved (s : State) (idx : Nat) : Prop := s.reqProd ≤ idx ∧ idx < s.reqProdPvt

/-- What a thread knows at its place. The index it has read is not above `req_prod_pvt`, and once
the free slot test has passed it stays below the end of the ring, as `rsp_cons` only grows. -/
def At (c : Config) (s : State) (t : Nat) : Pc → Prop
  | .check _ idx => idx ≤ s.reqProdPvt
  | .cas _ idx => idx < s.rspCons + c.ringSize
  | .fill _ idx => Reserved s idx
  | .block id idx => Reserved s idx ∧ (s.ring (idx % c.ringSize)).requestId = some id
  | .commit id idx =>
    Reserved s idx ∧ (s.ring (idx % c.ringSize)).requestId = some id ∧ s.runnable t = false
  | .waiting id => s.runnable t = true → s.answer id = some (s.shadowRsp id)
  | .done id retVal => s.answer id = some retVal
  | _ => True

structure Flight (c : Config) (s : State) (reqs : List Nat) (rsps : List (Nat × Nat)) : Prop where
  reqLen : s.reqCons + reqs.length = s.reqProd
  rspLen : readPos s + rsps.length = s.rspProdPvt
  reqSeg : Segment (fun i => (s.ring i).requestId) c.ringSize s.reqCons (reqs.map some)
  rspSeg : Segment (fun i => (s.ring i).answer) c.ringSize (readPos s) (rsps.map some)
  nodup : (reqs ++ s.pending ++ rsps.map Prod.fst).Nodup
  waiting : ∀ id ∈ reqs ++ s.pending ++ rsps.map Prod.fst,
    ∃ t, s.thread t = .waiting id ∧ s.runnable t = false
  answered : ∀ r ∈ rsps, s.answer r.1 = some r.2

structure Inv (c : Config) (s : State) : Prop where
  counters : Counters c s
  ids : Ids s
  slotOwner : Exclusive fun t => (s.thread t).slot?
  threads : ∀ t, At c s t (s.thread t)
  flight : ∃ reqs rsps, Flight c s reqs rsps

variable {c : Config} {s : State} {cons rp t id idx retVal type : Nat} {rsps : List (Nat × Nat)}
  {reqs : List Nat}

theorem sameIdx_loop (h : Counters c s) (hh : s.handler = .loop cons rp) :
    sameIdx cons rp ↔ cons = rp := by
  have hpos : readPos s = cons := by simp [readPos, hh]
  obtain ⟨hread, -, hprod, hbal, hcons, hcomm, hwin, hloop⟩ := h
  have hle := hloop cons rp hh
  have hsmall := c.small
  exact sameIdx_iff (by omega) (by omega)

theorem lt_of_loop (h : Counters c s) (hh : s.handler = .loop cons rp)
    (hne : ¬ sameIdx cons rp) : cons < rp ∧ rp ≤ s.rspProd := by
  obtain ⟨hle, hrp⟩ := h.loop cons rp hh
  have hneq : cons ≠ rp := fun he => hne ((sameIdx_loop h hh).mpr he)
  exact ⟨by omega, hrp⟩

theorem owner_unique (h : Ids s) {u : Nat} (ht : (s.thread t).id? = some id)
    (hu : (s.thread u).id? = some id) : t = u := (h.owner t id ht).symm.trans (h.owner u id hu)

theorem Inv.here {pc : Pc} (h : Inv c s) (ht : s.thread t = pc) : At c s t pc := ht ▸ h.threads t

theorem reserved_of_slot {pc : Pc} (h : At c s t pc) (hs : pc.slot? = some idx) :
    Reserved s idx := by
  cases pc with
  | fill id i =>
    cases hs
    exact h
  | block id i | commit id i =>
    cases hs
    exact h.1
  | _ => cases hs

theorem next_response (h : Inv c s) (hh : s.handler = .loop cons rp)
    (hne : ¬ sameIdx cons rp) : ∃ id retVal rsps reqs,
      Flight c s reqs ((id, retVal) :: rsps) ∧ s.ring (cons % c.ringSize) = .response id retVal ∧
      s.thread (s.reqThread id) = .waiting id ∧ s.runnable (s.reqThread id) = false := by
  have hpos : readPos s = cons := by simp [readPos, hh]
  obtain ⟨hlt, hle⟩ := lt_of_loop h.counters hh hne
  have hprod := h.counters.prod
  obtain ⟨reqs, rsps, hf⟩ := h.flight
  cases rsps with
  | nil =>
    have := hf.rspLen
    simp only [length_nil] at this
    omega
  | cons r rsps =>
    obtain ⟨id, retVal⟩ := r
    have hseg := hf.rspSeg.1
    rw [hpos] at hseg
    have hslot : s.ring (cons % c.ringSize) = .response id retVal := by
      cases hr : s.ring (cons % c.ringSize) with
      | empty | request type i => simp [hr, Slot.answer] at hseg
      | response i v =>
        simp only [hr, Slot.answer, Option.some.injEq, Prod.mk.injEq] at hseg
        rw [hseg.1, hseg.2]
    obtain ⟨t, ht, hrun⟩ := hf.waiting id (by simp)
    have hown := h.ids.owner t id (by simp [ht, Pc.id?])
    exact ⟨id, retVal, rsps, reqs, hf, hslot, by rw [hown, ht], by rw [hown, hrun]⟩

theorem matching_of_inv (h : Inv c s) : Matching c s := by
  constructor
  · intro cons rp hh hne
    obtain ⟨hlt, hle⟩ := lt_of_loop h.counters hh hne
    exact lt_of_lt_of_le hlt hle
  · intro cons rp hh hne
    obtain ⟨id, retVal, rsps, reqs, hf, hslot, hwait, _⟩ := next_response h hh hne
    exact ⟨id, retVal, hslot, hf.answered (id, retVal) mem_cons_self, hwait⟩
  · exact fun t id ht => h.here ht
  · exact fun t id retVal ht => h.here ht
  · have hr := h.counters.read
    have hp := h.counters.readProd
    have hw := h.counters.window
    exact ⟨by omega, by omega⟩

theorem inv_initial (h : Initial s) : Inv c s := by
  obtain ⟨reqThread, shadowRsp, rfl⟩ := h
  refine ⟨⟨le_refl _, le_refl _, le_refl _, rfl, le_refl _, le_refl _, Nat.zero_le _, ?_⟩,
    ⟨?_, nodup_nil, ?_⟩, ?_, fun _ => trivial, [], [], ?_⟩
  · intro cons rp hh
    cases hh
  · simp [initial, Pc.id?]
  · intro t id ht
    cases ht
  · intro t u idx ht
    cases ht
  · exact ⟨rfl, rfl, trivial, trivial, nodup_nil, by simp [initial], by simp⟩

/-! ## A thread moves on -/

theorem setPc_thread (s : State) (t u : Nat) (pc : Pc) :
    (setPc s t pc).thread u = if u = t then pc else s.thread u := by
  simp [setPc, update_apply]

theorem setPc_self (s : State) (t : Nat) (pc : Pc) : (setPc s t pc).thread t = pc := by
  simp [setPc]

theorem setPc_other (s : State) {u : Nat} (pc : Pc) (h : u ≠ t) :
    (setPc s t pc).thread u = s.thread u := by
  simp [setPc, h]

def Grows (s s' : State) : Prop := s.reqProdPvt ≤ s'.reqProdPvt ∧ s.rspCons ≤ s'.rspCons

theorem Grows.refl (s : State) : Grows s s := ⟨le_refl _, le_refl _⟩

theorem at_congr {s' : State} {pc : Pc} (h : At c s t pc) (hgrows : Grows s s')
    (hslot : ∀ idx, pc.slot? = some idx → Reserved s idx →
      Reserved s' idx ∧ s'.ring (idx % c.ringSize) = s.ring (idx % c.ringSize))
    (hrun : s'.runnable t = s.runnable t)
    (hid : ∀ id, pc.id? = some id → s'.answer id = s.answer id ∧ s'.shadowRsp id = s.shadowRsp id) :
    At c s' t pc := by
  cases pc with
  | check id idx => exact le_trans h hgrows.1
  | cas id idx => exact lt_of_lt_of_le h (Nat.add_le_add_right hgrows.2 _)
  | fill id idx => exact (hslot idx rfl h).1
  | block id idx =>
    refine ⟨(hslot idx rfl h.1).1, ?_⟩
    rw [(hslot idx rfl h.1).2]
    exact h.2
  | commit id idx =>
    refine ⟨(hslot idx rfl h.1).1, ?_, ?_⟩
    · rw [(hslot idx rfl h.1).2]
      exact h.2.1
    · rw [hrun]
      exact h.2.2
  | waiting id =>
    intro hr
    rw [(hid id rfl).1, (hid id rfl).2]
    exact h (hrun ▸ hr)
  | done id retVal => exact (hid id rfl).1.trans h
  | _ => trivial

theorem ids_setPc {pc : Pc} (h : Ids s) (hid : pc.id? = (s.thread t).id?) :
    Ids (setPc s t pc) := by
  have hids : ∀ u, ((setPc s t pc).thread u).id? = (s.thread u).id? := by
    intro u
    rw [setPc_thread]
    split
    · rename_i hu
      rw [hu, hid]
    · rfl
  refine ⟨?_, h.nodup, ?_⟩
  · intro id
    simp only [hids]
    exact h.inUse id
  · intro u id hu
    rw [hids] at hu
    exact h.owner u id hu

theorem flight_setPc {pc : Pc}
    (h : Flight c s reqs rsps) (ht : ∀ id, s.thread t = .waiting id → s.runnable t = true) :
    Flight c (setPc s t pc) reqs rsps := by
  refine { h with waiting := fun id hid => ?_ }
  obtain ⟨u, hu, hrun⟩ := h.waiting id hid
  have hne : u ≠ t := by
    rintro rfl
    rw [ht id hu] at hrun
    cases hrun
  exact ⟨u, by rw [setPc_other s pc hne, hu], hrun⟩

theorem inv_setPc {pc : Pc} (hcount : Counters c s) (hids : Ids (setPc s t pc))
    (howner : Exclusive fun u => (s.thread u).slot?)
    (hslot : ∀ u idx, u ≠ t → pc.slot? = some idx → (s.thread u).slot? ≠ some idx)
    (hothers : ∀ u, u ≠ t → At c s u (s.thread u)) (hself : At c s t pc)
    (hflight : ∃ reqs rsps, Flight c (setPc s t pc) reqs rsps) : Inv c (setPc s t pc) := by
  refine ⟨{ hcount with }, hids, ?_, ?_, hflight⟩
  · intro u v idx hu hv
    simp only [setPc_thread] at hu hv
    split at hu <;> split at hv
    · rename_i hut hvt
      rw [hut, hvt]
    · exact absurd hv (hslot v idx ‹_› hu)
    · exact absurd hu (hslot u idx ‹_› hv)
    · exact howner u v idx hu hv
  · intro u
    have hat : At c s u ((setPc s t pc).thread u) := by
      rw [setPc_thread]
      split
      · rename_i hut
        rw [hut]
        exact hself
      · exact hothers u ‹_›
    exact hat

theorem kept_slot (h : Inv c s) {pc : Pc} (hpc : pc.slot? = (s.thread t).slot?) :
    ∀ u idx, u ≠ t → pc.slot? = some idx → (s.thread u).slot? ≠ some idx := by
  intro u idx hne hidx hu
  exact hne (h.slotOwner u t idx hu (hpc.symm.trans hidx))

theorem inv_searching {pc : Pc} (h : Inv c s) (hold : (s.thread t).id? = some id)
    (hwait : ∀ i, s.thread t ≠ .waiting i) (hid : pc.id? = some id) (hslot : pc.slot? = none)
    (hself : At c s t pc) : Inv c (setPc s t pc) := by
  obtain ⟨reqs, rsps, hf⟩ := h.flight
  exact inv_setPc h.counters (ids_setPc h.ids (hid.trans hold.symm)) h.slotOwner (by simp [hslot])
    (fun u _ => h.threads u) hself
    ⟨reqs, rsps, flight_setPc hf fun i hi => absurd hi (hwait i)⟩

/-- The free slot test compares an index that may be old with the current `rsp_cons`. -/
theorem room_of_check (h : Counters c s) (hidx : idx ≤ s.reqProdPvt)
    (hfree : ¬ ringFull c s idx) : idx < s.rspCons + c.ringSize := by
  have hwin := h.window
  have hsmall := c.small
  have hpos := c.pos
  rcases Nat.lt_or_ge idx s.rspCons with hlt | hge
  · omega
  · rw [ringFull, subIdx_eq hge (by omega)] at hfree
    omega

theorem inv_reserved (h : Inv c s) (ht : s.thread t = .cas id s.reqProdPvt) :
    Inv c (setPc { s with reqProdPvt := s.reqProdPvt + 1 } t (.fill id s.reqProdPvt)) := by
  have hcomm := h.counters.committed
  have hroom := h.here ht
  obtain ⟨reqs, rsps, hf⟩ := h.flight
  have hf' : Flight c { s with reqProdPvt := s.reqProdPvt + 1 } reqs rsps := { hf with }
  refine inv_setPc { h.counters with committed := Nat.le_succ_of_le hcomm, window := hroom }
    (ids_setPc { h.ids with } (by simp [ht, Pc.id?])) h.slotOwner ?_ ?_
    ⟨hcomm, Nat.lt_succ_self _⟩ ⟨reqs, rsps, flight_setPc hf' fun i hi => ?_⟩
  · intro u i _ hi hu
    cases hi
    exact absurd (reserved_of_slot (h.threads u) hu).2 (lt_irrefl _)
  · intro u _
    exact at_congr (h.threads u) ⟨Nat.le_succ _, le_refl _⟩
      (fun i _ hres => ⟨⟨hres.1, Nat.lt_succ_of_lt hres.2⟩, rfl⟩) rfl fun _ _ => ⟨rfl, rfl⟩
  · simp [ht] at hi

/-- A write outside the requests and the responses leaves both as they are. -/
theorem segments_write (h : Counters c s) (hf : Flight c s reqs rsps) (slot : Slot)
    (hlo : s.rspProdPvt ≤ idx) (hout : idx < s.reqCons ∨ s.reqProd ≤ idx) (hhi : idx < s.reqProdPvt)
    :
    Segment (fun i => (update s.ring (idx % c.ringSize) slot i).requestId)
        c.ringSize s.reqCons (reqs.map some) ∧
      Segment (fun i => (update s.ring (idx % c.ringSize) slot i).answer)
        c.ringSize (readPos s) (rsps.map some) := by
  obtain ⟨hread, hreadProd, hprod, hbal, hcons, hcomm, hwin, -⟩ := h
  have hreqLen := hf.reqLen
  have hrspLen := hf.rspLen
  rw [← length_map (f := some)] at hreqLen hrspLen
  constructor
  · exact segment_write (readPos s) hf.reqSeg (by omega) (by omega) (by omega) (by omega) (by omega)
  · exact segment_write (readPos s) hf.rspSeg (le_refl _) (by omega) (by omega) (by omega)
      (by omega)

section

variable (h : Inv c s)

include h

theorem inv_filled (ht : s.thread t = .fill id idx) :
    Inv c (setPc { s with ring := update s.ring (idx % c.ringSize) (.request type id) } t
      (.block id idx)) := by
  have hres := reserved_of_slot (h.threads t) (by rw [ht]; rfl)
  obtain ⟨reqs, rsps, hf⟩ := h.flight
  obtain ⟨hread, hreadProd, hprod, hbal, hcons, hcomm, hwin, -⟩ := h.counters
  obtain ⟨hreqSeg, hrspSeg⟩ :=
    segments_write h.counters hf (.request type id) (by have := hres.1; omega)
    (.inr hres.1) hres.2
  have hf' :
      Flight c { s with ring := update s.ring (idx % c.ringSize) (.request type id) } reqs rsps :=
    { hf with reqSeg := hreqSeg, rspSeg := hrspSeg }
  refine inv_setPc { h.counters with } (ids_setPc { h.ids with } (by simp [ht, Pc.id?])) h.slotOwner
    (kept_slot h (by rw [ht]; rfl)) ?_ ⟨hres, by simp [Slot.requestId]⟩
    ⟨reqs, rsps, flight_setPc hf' fun i hi => by simp [ht] at hi⟩
  intro u hu
  refine at_congr (h.threads u) (.refl _) (fun i hi hres' => ?_) rfl fun _ _ => ⟨rfl, rfl⟩
  have hne : i ≠ idx := by
    rintro rfl
    exact hu (h.slotOwner u t i hi (by simp [ht, Pc.slot?]))
  obtain ⟨hlo, hhi⟩ := hres
  obtain ⟨hlo', hhi'⟩ := hres'
  exact ⟨⟨hlo', hhi'⟩, update_of_ne
    (slot_ne s.rspCons (by omega) (by omega) (by omega) (by omega) hne) _ _⟩

theorem inv_blocked (ht : s.thread t = .block id idx) :
    Inv c (setPc { s with runnable := update s.runnable t false } t (.commit id idx)) := by
  have hat := h.here ht
  obtain ⟨reqs, rsps, hf⟩ := h.flight
  have hf' : Flight c { s with runnable := update s.runnable t false } reqs rsps := by
    refine { hf with waiting := fun i hi => ?_ }
    obtain ⟨u, hu, hrun⟩ := hf.waiting i hi
    refine ⟨u, hu, ?_⟩
    change update s.runnable t false u = false
    rw [update_apply, hrun, ite_self]
  refine inv_setPc { h.counters with } (ids_setPc { h.ids with } (by simp [ht, Pc.id?])) h.slotOwner
    (kept_slot h (by rw [ht]; rfl)) ?_ ⟨hat.1, hat.2, by simp⟩
    ⟨reqs, rsps, flight_setPc hf' fun i hi => by simp [ht] at hi⟩
  intro u hu
  exact at_congr (h.threads u) (.refl _) (fun _ _ hres => ⟨hres, rfl⟩) (update_of_ne hu _ _)
    fun _ _ => ⟨rfl, rfl⟩

theorem flight_commit
    (hf : Flight c s reqs rsps) (ht : s.thread t = .commit id s.reqProd) :
    Flight c (setPc { s with reqProd := s.reqProd + 1 } t (.waiting id)) (reqs ++ [id]) rsps := by
  have hat := h.here ht
  have hnew : id ∉ reqs ++ s.pending ++ rsps.map Prod.fst := by
    intro hmem
    obtain ⟨u, hu, -⟩ := hf.waiting id hmem
    have hid : (s.thread t).id? = some id := by simp [ht, Pc.id?]
    have hut : u = t := owner_unique h.ids (by simp [hu, Pc.id?]) hid
    rw [hut, ht] at hu
    cases hu
  have hperm : (reqs ++ [id] ++ s.pending ++ rsps.map Prod.fst).Perm
      (id :: (reqs ++ s.pending ++ rsps.map Prod.fst)) := by
    simp only [append_assoc, singleton_append]
    exact perm_middle
  refine ⟨?_, hf.rspLen, ?_, hf.rspSeg, ?_, ?_, hf.answered⟩
  · change s.reqCons + _ = s.reqProd + 1
    rw [length_append, length_singleton, ← hf.reqLen]
    omega
  · rw [map_append]
    refine segment_push hf.reqSeg ?_
    rw [length_map]
    change (s.ring ((s.reqCons + reqs.length) % c.ringSize)).requestId = some id
    rw [hf.reqLen]
    exact hat.2.1
  · exact hperm.nodup_iff.mpr (List.nodup_cons.mpr ⟨hnew, hf.nodup⟩)
  · intro i hi
    rcases List.mem_cons.mp (hperm.mem_iff.mp hi) with rfl | hi
    · exact ⟨t, setPc_self _ _ _, hat.2.2⟩
    · obtain ⟨u, hu, hrun⟩ := hf.waiting i hi
      refine ⟨u, ?_, hrun⟩
      rw [setPc_other _ _ (by rintro rfl; rw [ht] at hu; cases hu)]
      exact hu

theorem inv_committed (ht : s.thread t = .commit id s.reqProd) :
    Inv c (setPc { s with reqProd := s.reqProd + 1 } t (.waiting id)) := by
  have hat := h.here ht
  obtain ⟨⟨-, hlt⟩, hfilled, hsleep⟩ := hat
  obtain ⟨reqs, rsps, hf⟩ := h.flight
  refine inv_setPc
    { h.counters with consumed := Nat.le_succ_of_le h.counters.consumed, committed := hlt }
    (ids_setPc { h.ids with } (by simp [ht, Pc.id?])) h.slotOwner
    (by simp [Pc.slot?]) ?_ (fun hr => absurd hr (by simp [hsleep]))
    ⟨_, _, flight_commit h hf ht⟩
  intro u hu
  refine at_congr (h.threads u) (.refl _) (fun i hi hres => ⟨?_, rfl⟩) rfl fun _ _ => ⟨rfl, rfl⟩
  have hne : i ≠ s.reqProd := by
    rintro rfl
    exact hu (h.slotOwner u t _ hi (by simp [ht, Pc.slot?]))
  exact ⟨by have := hres.1; change s.reqProd + 1 ≤ i; omega, hres.2⟩

theorem inv_returned (ht : s.thread t = .waiting id)
    (hrun : s.runnable t = true) : Inv c (setPc s t (.done id (s.shadowRsp id))) := by
  have hat := h.here ht
  obtain ⟨reqs, rsps, hf⟩ := h.flight
  exact inv_setPc h.counters (ids_setPc h.ids (by simp [ht, Pc.id?])) h.slotOwner
    (by simp [Pc.slot?]) (fun u _ => h.threads u) (hat hrun)
    ⟨reqs, rsps, flight_setPc hf fun _ _ => hrun⟩

theorem inv_finished (ht : s.thread t = .done id retVal) :
    Inv c (setPc { s with inUse := s.inUse.erase id } t .idle) := by
  have hid : (s.thread t).id? = some id := by simp [ht, Pc.id?]
  obtain ⟨reqs, rsps, hf⟩ := h.flight
  have hf' : Flight c { s with inUse := s.inUse.erase id } reqs rsps := { hf with }
  refine inv_setPc { h.counters with } ⟨?_, h.ids.nodup.erase id, ?_⟩ h.slotOwner
    (by simp [Pc.slot?]) ?_ trivial ⟨reqs, rsps, flight_setPc hf' fun i hi => by simp [ht] at hi⟩
  · intro i
    change i ∈ s.inUse.erase id ↔ _
    rw [h.ids.nodup.mem_erase_iff, h.ids.inUse]
    constructor
    · rintro ⟨hne, u, hu⟩
      refine ⟨u, ?_⟩
      rw [setPc_other]
      · exact hu
      · rintro rfl
        rw [hid] at hu
        cases hu
        exact hne rfl
    · rintro ⟨u, hu⟩
      rw [setPc_thread] at hu
      split at hu
      · cases hu
      · refine ⟨?_, u, hu⟩
        rintro rfl
        exact absurd (owner_unique h.ids hu hid) ‹_›
  · intro u i hu
    rw [setPc_thread] at hu
    split at hu
    · cases hu
    · exact h.ids.owner u i hu
  · exact fun u _ => h.threads u

theorem inv_start (hidle : s.thread t = .idle) (hfresh : id ∉ s.inUse) : Inv c (setPc { s with
      inUse := id :: s.inUse
      reqThread := update s.reqThread id t
      answer := update s.answer id none } t (.reserve id)) := by
  have hnoid : ∀ u i, (s.thread u).id? = some i → i ≠ id := by
    rintro u i hu rfl
    exact hfresh ((h.ids.inUse i).mpr ⟨u, hu⟩)
  have hanswer : ∀ u i, (s.thread u).id? = some i → update s.answer id none i = s.answer i :=
    fun u i hu => update_of_ne (hnoid u i hu) _ _
  obtain ⟨reqs, rsps, hf⟩ := h.flight
  have hf' : Flight c { s with
      inUse := id :: s.inUse
      reqThread := update s.reqThread id t
      answer := update s.answer id none } reqs rsps := by
    refine { hf with answered := fun r hr => ?_ }
    obtain ⟨u, hu, -⟩ := hf.waiting r.1 (by
      simp only [mem_append, mem_map]
      exact .inr ⟨r, hr, rfl⟩)
    exact (hanswer u r.1 (by simp [hu, Pc.id?])).trans (hf.answered r hr)
  refine inv_setPc { h.counters with } ⟨?_, List.nodup_cons.mpr ⟨hfresh, h.ids.nodup⟩, ?_⟩
    h.slotOwner
    (by simp [Pc.slot?]) ?_ trivial ⟨reqs, rsps, flight_setPc hf' fun i hi => by simp [hidle] at hi⟩
  · intro i
    change i ∈ id :: s.inUse ↔ _
    rw [mem_cons, h.ids.inUse]
    constructor
    · rintro (rfl | ⟨u, hu⟩)
      · exact ⟨t, by rw [setPc_self]; rfl⟩
      · refine ⟨u, ?_⟩
        rw [setPc_other _ _ (by rintro rfl; rw [hidle] at hu; cases hu)]
        exact hu
    · rintro ⟨u, hu⟩
      rw [setPc_thread] at hu
      split at hu
      · cases hu
        exact .inl rfl
      · exact .inr ⟨u, hu⟩
  · intro u i hu
    change update s.reqThread id t i = u
    rw [setPc_thread] at hu
    split at hu
    · cases hu
      rw [update_self]
      exact (‹u = t›).symm
    · rw [update_of_ne (hnoid u i hu)]
      exact h.ids.owner u i hu
  · intro u _
    exact at_congr (h.threads u) (.refl _) (fun _ _ hres => ⟨hres, rfl⟩) rfl
      fun i hi => ⟨hanswer u i hi, rfl⟩

end

/-! ## The backend -/

theorem inv_consumed (h : Inv c s) (hlt : s.reqCons < s.reqProd)
    (hreq : (s.ring (s.reqCons % c.ringSize)).requestId = some id) :
    Inv c { s with reqCons := s.reqCons + 1, pending := s.pending ++ [id] } := by
  obtain ⟨reqs, rsps, hf⟩ := h.flight
  refine ⟨{ h.counters with balance := ?_, consumed := hlt }, { h.ids with }, h.slotOwner,
    h.threads, ?_⟩
  · change s.rspProdPvt + (s.pending ++ [id]).length = s.reqCons + 1
    rw [length_append, length_singleton, ← h.counters.balance]
    omega
  · cases reqs with
    | nil =>
      have := hf.reqLen
      simp only [length_nil] at this
      omega
    | cons i reqs =>
      obtain ⟨hhead, htail⟩ := hf.reqSeg
      have hi : i = id := Option.some.inj (hhead.symm.trans hreq)
      subst hi
      have hperm : (reqs ++ (s.pending ++ [i]) ++ rsps.map Prod.fst).Perm
          (i :: reqs ++ s.pending ++ rsps.map Prod.fst) := by
        simp only [append_assoc, cons_append, nil_append]
        rw [← append_assoc, ← append_assoc]
        exact perm_middle
      refine ⟨reqs, rsps, ?_, hf.rspLen, htail, hf.rspSeg, hperm.nodup_iff.mpr hf.nodup, ?_,
        hf.answered⟩
      · have := hf.reqLen
        simp only [length_cons] at this
        change s.reqCons + 1 + reqs.length = s.reqProd
        omega
      · intro j hj
        exact hf.waiting j (hperm.mem_iff.mp hj)

theorem flight_responded
    (hcount : Counters c s) (hf : Flight c s reqs rsps) (hmem : id ∈ s.pending) :
    Flight c { s with
      ring := update s.ring (s.rspProdPvt % c.ringSize) (.response id retVal)
      rspProdPvt := s.rspProdPvt + 1
      pending := s.pending.erase id
      answer := update s.answer id (some retVal) } reqs (rsps ++ [(id, retVal)]) := by
  have hpos := length_pos_of_mem hmem
  have hbal := hcount.balance
  have hcons := hcount.consumed
  have hcomm := hcount.committed
  obtain ⟨hreqSeg, hrspSeg⟩ :=
    segments_write hcount hf (.response id retVal) (le_refl _) (.inl (by omega)) (by omega)
  have hrspLen := hf.rspLen
  rw [← length_map (f := some)] at hrspLen
  have hperm : (reqs ++ s.pending.erase id ++ (rsps ++ [(id, retVal)]).map Prod.fst).Perm
      (reqs ++ s.pending ++ rsps.map Prod.fst) := by
    rw [map_append, append_assoc, append_assoc]
    apply List.Perm.append_left reqs
    rw [← append_assoc]
    apply List.perm_append_comm.trans
    exact ((perm_cons_erase hmem).symm.append_right _)
  refine ⟨hf.reqLen, ?_, hreqSeg, ?_, hperm.nodup_iff.mpr hf.nodup,
    fun i hi => hf.waiting i (hperm.mem_iff.mp hi), ?_⟩
  · change readPos s + _ = s.rspProdPvt + 1
    rw [length_append, length_singleton, ← hf.rspLen]
    omega
  · rw [map_append]
    refine segment_push hrspSeg ?_
    change (update s.ring (s.rspProdPvt % c.ringSize) (.response id retVal)
      ((readPos s + _) % c.ringSize)).answer = _
    rw [hrspLen, update_self]
    rfl
  · intro r hr
    change update s.answer id (some retVal) r.1 = some r.2
    rcases List.mem_append.mp hr with hr | hr
    · have hne : r.1 ≠ id := by
        intro he
        have hdisj := (List.nodup_append.mp hf.nodup).2.2
        exact hdisj id (by simp [hmem]) r.1 (mem_map_of_mem hr) he.symm
      rw [update_of_ne hne]
      exact hf.answered r hr
    · rw [List.mem_singleton.mp hr, update_self]

theorem inv_responded (h : Inv c s) (hmem : id ∈ s.pending) :
    Inv c { s with
      ring := update s.ring (s.rspProdPvt % c.ringSize) (.response id retVal)
      rspProdPvt := s.rspProdPvt + 1
      pending := s.pending.erase id
      answer := update s.answer id (some retVal) } := by
  obtain ⟨reqs, rsps, hf⟩ := h.flight
  obtain ⟨hread, hreadProd, hprod, hbal, hcons, hcomm, hwin, -⟩ := h.counters
  have hlen := length_erase_of_mem hmem
  have hpos := length_pos_of_mem hmem
  obtain ⟨t, ht, hsleep⟩ := hf.waiting id (by simp [hmem])
  refine ⟨{ h.counters with prod := Nat.le_succ_of_le hprod, balance := ?_ }, { h.ids with },
    h.slotOwner, ?_, reqs, rsps ++ [(id, retVal)], flight_responded h.counters hf hmem⟩
  · change s.rspProdPvt + 1 + (s.pending.erase id).length = s.reqCons
    omega
  · intro u
    by_cases hut : u = t
    · -- the thread that waits for this answer is asleep
      subst hut
      change At c _ u (s.thread u)
      rw [ht]
      intro hrun
      exact absurd (hsleep.symm.trans hrun) (by decide)
    · refine at_congr (h.threads u) (.refl _) (fun i _ hres => ⟨hres, ?_⟩) rfl fun i hi => ⟨?_, rfl⟩
      · have hlo := hres.1
        have hhi := hres.2
        exact update_of_ne (slot_ne s.rspCons (by omega) (by omega) (by omega) (by omega)
          (by omega)) _ _
      · refine update_of_ne ?_ _ _
        rintro rfl
        exact hut (owner_unique h.ids hi (by simp [ht, Pc.id?]))

/-! ## The handler -/

section

variable (h : Inv c s) {junk : Nat × Nat} {u : State}

include h

theorem inv_handler {rspCons rspProd : Nat} {handler : Handler}
    (hpos : readPos { s with rspCons := rspCons, rspProd := rspProd, handler := handler } =
    readPos s)
    (hgrows : s.rspCons ≤ rspCons)
    (hcount : Counters c { s with rspCons := rspCons, rspProd := rspProd, handler := handler }) :
    Inv c { s with rspCons := rspCons, rspProd := rspProd, handler := handler } := by
  obtain ⟨reqs, rsps, hf⟩ := h.flight
  refine ⟨hcount, { h.ids with }, h.slotOwner, ?_, reqs, rsps, ?_⟩
  · intro u
    exact at_congr (h.threads u) ⟨le_refl _, hgrows⟩ (fun _ _ hres => ⟨hres, rfl⟩) rfl
      fun _ _ => ⟨rfl, rfl⟩
  · exact { hf with
      rspLen := by rw [hpos]; exact hf.rspLen
      rspSeg := by rw [hpos]; exact hf.rspSeg }

theorem inv_pushed : Inv c { s with rspProd := s.rspProdPvt } := by
  obtain ⟨-, hreadProd, hprod, -, -, -, -, hloop⟩ := h.counters
  refine inv_handler h rfl (le_refl _)
    { h.counters with readProd := le_trans hreadProd hprod, prod := le_refl _, loop := ?_ }
  intro cons rp hh
  exact ⟨(hloop cons rp hh).1, le_trans (hloop cons rp hh).2 hprod⟩

theorem inv_delivered
    (hh : s.handler = .loop cons rp) (hne : ¬ sameIdx cons rp) :
    Inv c { deliver s (readResponse junk (s.ring (cons % c.ringSize))) with
      handler := .loop (cons + 1) rp } := by
  obtain ⟨id, retVal, rsps, reqs, hf, hslot, hwait, hsleep⟩ := next_response h hh hne
  have hrsp : readResponse junk (s.ring (cons % c.ringSize)) = (id, retVal) := by
    simp [hslot, readResponse, Slot.answer]
  have hpos : readPos s = cons := by simp [readPos, hh]
  obtain ⟨hlt, hrp⟩ := lt_of_loop h.counters hh hne
  have hread := h.counters.read
  rw [hpos] at hread
  rw [hrsp]
  refine ⟨{ h.counters with
    read := Nat.le_succ_of_le hread, readProd := le_trans hlt hrp, loop := ?_ },
    { h.ids with }, h.slotOwner, ?_, reqs, rsps, ?_⟩
  · intro cons' rp' hh'
    cases hh'
    exact ⟨hlt, hrp⟩
  · intro u
    by_cases hu : u = s.reqThread id
    · subst hu
      change At c _ _ (s.thread (s.reqThread id))
      rw [hwait]
      intro _
      change s.answer id = some (update s.shadowRsp id retVal id)
      rw [update_self]
      exact hf.answered (id, retVal) mem_cons_self
    · refine at_congr (h.threads u) (.refl _) (fun _ _ hres => ⟨hres, rfl⟩) (update_of_ne hu _ _)
        fun i hi => ⟨rfl, update_of_ne ?_ _ _⟩
      rintro rfl
      exact hu (h.ids.owner u i hi).symm
  · have hperm : (reqs ++ s.pending ++ ((id, retVal) :: rsps).map Prod.fst).Perm
        (id :: (reqs ++ s.pending ++ rsps.map Prod.fst)) := perm_middle
    have hnodup := hperm.nodup_iff.mp hf.nodup
    refine ⟨hf.reqLen, ?_, hf.reqSeg, ?_, (List.nodup_cons.mp hnodup).2, ?_,
      fun r hr => hf.answered r (mem_cons_of_mem _ hr)⟩
    · have := hf.rspLen
      rw [hpos, length_cons] at this
      change cons + 1 + rsps.length = s.rspProdPvt
      omega
    · have := hf.rspSeg
      rw [hpos] at this
      exact this.2
    · intro i hi
      obtain ⟨u, hu, hrun⟩ := hf.waiting i (hperm.mem_iff.mpr (mem_cons_of_mem _ hi))
      refine ⟨u, hu, ?_⟩
      change update s.runnable (s.reqThread id) true u = false
      rw [update_of_ne]
      · exact hrun
      · rintro rfl
        rw [hwait] at hu
        cases hu
        exact (List.nodup_cons.mp hnodup).1 hi

theorem inv_stepHandler
    (hok : s.handler = .entry → s.reqProd = s.rspProd) (hs : stepHandler c s junk = some u) :
    Inv c u := by
  obtain ⟨hread, hreadProd, -, -, -, -, hwin, -⟩ := h.counters
  unfold stepHandler at hs
  cases hh : s.handler with
  | idle =>
    rw [hh] at hs
    cases hs
  | entry =>
    have hpos : readPos s = s.rspCons := by simp [readPos, hh]
    rw [hh] at hs
    cases hs
    rw [hpos] at hread hreadProd
    refine inv_handler h hpos.symm (le_refl _)
      { h.counters with read := hread, readProd := hreadProd, loop := ?_ }
    intro cons rp he
    cases he
    exact ⟨by rw [hok hh]; exact hreadProd, (hok hh).le⟩
  | loop cons rp =>
    have hpos : readPos s = cons := by simp [readPos, hh]
    rw [hh] at hs
    simp only at hs
    split at hs
    · have heq := (sameIdx_loop h.counters hh).mp ‹_›
      subst heq
      cases hs
      rw [hpos] at hread hreadProd
      refine inv_handler h hpos.symm hread
        { h.counters with read := le_refl _, readProd := hreadProd, window := ?_, loop := by simp }
      change s.reqProdPvt ≤ cons + c.ringSize
      omega
    · cases hs
      exact inv_delivered h hh ‹_›
  | final =>
    have hpos : readPos s = s.rspCons := by simp [readPos, hh]
    rw [hpos] at hread hreadProd
    rw [hh] at hs
    simp only at hs
    split at hs <;> cases hs <;>
      exact inv_handler h hpos.symm (le_refl _)
        { h.counters with read := hread, readProd := hreadProd, loop := by simp }

theorem inv_stepThread
    (hok : noTurn s (s.thread t)) (hs : stepThread c s t type = some u) : Inv c u := by
  unfold stepThread at hs
  cases ht : s.thread t with
  | idle => simp [ht] at hs
  | reserve id =>
    rw [ht] at hs
    cases hs
    exact inv_searching h (by simp [ht, Pc.id?]) (by simp [ht]) rfl rfl (le_refl _)
  | check id idx =>
    rw [ht] at hs
    simp only at hs
    have hidx := h.here ht
    split at hs <;> cases hs
    · exact inv_searching h (by simp [ht, Pc.id?]) (by simp [ht]) rfl rfl trivial
    · exact inv_searching h (by simp [ht, Pc.id?]) (by simp [ht]) rfl rfl
        (room_of_check h.counters hidx ‹_›)
  | cas id idx =>
    rw [ht] at hs hok
    simp only at hs
    split at hs <;> cases hs
    · obtain rfl : s.reqProdPvt = idx := hok ‹_›
      exact inv_reserved h ht
    · exact inv_searching h (by simp [ht, Pc.id?]) (by simp [ht]) rfl rfl trivial
  | fill id idx =>
    rw [ht] at hs
    cases hs
    exact inv_filled h ht
  | block id idx =>
    rw [ht] at hs
    cases hs
    exact inv_blocked h ht
  | commit id idx =>
    rw [ht] at hs
    simp only at hs
    split at hs <;> cases hs
    · have hres := reserved_of_slot (h.threads t) (by rw [ht]; rfl)
      obtain ⟨hlo, hhi⟩ := hres
      obtain ⟨hread, hreadProd, hprod, hbal, hcons, hcomm, hwin, -⟩ := h.counters
      have hsmall := c.small
      have heq : s.reqProd = idx := (sameIdx_iff (by omega) (by omega)).mp ‹_›
      subst heq
      exact inv_committed h ht
    · exact h
  | waiting id =>
    rw [ht] at hs
    simp only at hs
    split at hs <;> cases hs
    exact inv_returned h ht ‹_›
  | done id retVal =>
    rw [ht] at hs
    cases hs
    exact inv_finished h ht

theorem inv_step {a : Label} (hok : safeStep s a)
    (hs : step c s a = some u) : Inv c u := by
  cases a with
  | start t id =>
    obtain ⟨⟨hidle, -⟩, rfl⟩ := of_when hs
    exact inv_start h hidle hok
  | thread t type => exact inv_stepThread h hok hs
  | consume =>
    obtain ⟨hlt, hs⟩ := Option.ite_none_right_eq_some.mp hs
    split at hs <;> cases hs
    exact inv_consumed h hlt ‹_›
  | respond id retVal =>
    obtain ⟨hmem, rfl⟩ := of_when hs
    exact inv_responded h hmem
  | push =>
    cases hs
    exact inv_pushed h
  | irq =>
    obtain ⟨hidle, rfl⟩ := of_when hs
    have hpos : readPos s = s.rspCons := by simp [readPos, hidle]
    exact inv_handler h hpos.symm (le_refl _)
      { h.counters with read := le_refl _, readProd := hpos ▸ h.counters.readProd, loop := by simp }
  | handle junk => exact inv_stepHandler h hok hs

end

/-- Responses find their requests in every run in which the handler enters its loop only when all
committed requests have been answered, operations in progress have ids of their own and
`req_prod_pvt` makes no full turn under a `cmpxchg`. -/
theorem responses_match (c : Config) (s : State) (h : Reach (step c) safeStep Initial s) :
    Matching c s := by
  exact matching_of_inv (h.invariant (fun _ => inv_initial) fun _ _ _ hi => inv_step hi)

def ringOfFour : Config := ⟨4, by decide, by decide, by decide⟩

theorem responses_match_one_request : ∃ s, Reach (step ringOfFour) safeStep Initial s ∧
    s.thread 0 = .done 0 7 ∧ Matching ringOfFour s := by
  have h₀ : Reach (step ringOfFour) safeStep Initial (initial (fun _ => 0) fun _ => 0) :=
    .start ⟨_, _, rfl⟩
  obtain ⟨s, hreach, hs⟩ := h₀.runGuardedTo (P := fun s => s.thread 0 = .done 0 7)
    (.start 0 0 :: List.replicate 6 (.thread 0 1) ++
      [.consume, .respond 0 7, .push, .irq, .handle (0, 0), .handle (0, 0), .thread 0 1])
    (by decide +kernel)
  exact ⟨s, hreach, hs, responses_match ringOfFour s hreach⟩

/-- Two requests are committed and one is answered: the handler goes on to read the second slot. -/
theorem responses_not_matched :
    ¬ ∀ c s, Reach (step c) anyStep Initial s → Matching c s := by
  intro hall
  let request (t : Nat) : List Label := .start t t :: List.replicate 6 (.thread t 1)
  have h₀ : Reach (step ringOfFour) anyStep Initial (initial (fun _ => 0) fun _ => 0) :=
    .start ⟨_, _, rfl⟩
  obtain ⟨s, hreach, hhandler, hprod⟩ :=
    h₀.runTo (P := fun s => s.handler = .loop 1 2 ∧ s.rspProd = 1)
    (request 0 ++ request 1 ++
      [.consume, .consume, .respond 0 7, .push, .irq, .handle (0, 0), .handle (0, 0)])
    (by decide +kernel)
  have hlt := (hall ringOfFour s hreach).reads 1 2 hhandler (by decide)
  rw [hprod] at hlt
  exact absurd hlt (by decide)

end Guk.FsRing
