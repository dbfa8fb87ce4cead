import Guk.BlkRing

/-!
# Transmit buffers of the network frontend (`netfront.c`)

`guk_netfront_xmit` takes the id of a buffer from the free list, under the lock of
the list, and then sends its request under `net_info_lock`, unless the device is
not ready: in that case the id is gone. `network_tx_buf_gc` holds
`net_info_lock` and returns the ids of the responses one after the other, while
other threads can take ids from the list.

The free list is that of the FS frontend, the ring that of a block device, with
`okay` for every status other than `NETIF_RSP_NULL`. Grant references, the
contents of packets and notifications are left out.
-/
namespace Guk.NetTx

open Chain Owner FsFreelist Guk.Ring Runs Function
open BlkRing (BlkDev Slot RingSize backendTake backendAnswer DevInv)

inductive NetState where
  | unknown
  | ready
  | suspending
  | suspended
  | resuming
  deriving DecidableEq, Repr

/-- `call t` is the id that a call of `guk_netfront_xmit` by thread `t` has taken
and not yet sent; `inFlight` are the ids of the requests that have been sent and
whose responses have not been collected. -/
structure State where
  freelist : Nat → Nat
  state : NetState
  tx : BlkDev
  call : Nat → Option Nat
  inFlight : List Nat

inductive Label where
  /-- `guk_netfront_xmit` starts with `get_id_from_freelist` -/
  | getId (t : Nat)
  | send (t : Nat)
  | take
  | answer (id : Nat) (okay : Bool)
  | gc
  /-- it handles the next response, or comes to the end of its loop -/
  | collect
  | setState (st : NetState)

section

variable (n : Nat)

def sendRequest (s : State) (t id : Nat) : State :=
  let s := { s with call := Function.update s.call t none }
  if s.state ≠ .ready then s
  else { s with
    tx := { s.tx with
      ring := Function.update s.tx.ring (s.tx.reqProdPvt % n) (.request id)
      reqProdPvt := s.tx.reqProdPvt + 1 } }

def collectResponse (s : State) (cons prod id : Nat) (okay : Bool) : State :=
  { s with
    freelist := if okay then addIdToFreelist s.freelist id else s.freelist
    tx := { s.tx with handler := some (cons + 1, prod) } }

def endOfPass (v : BlkDev) (prod : Nat) : BlkDev :=
  { v with
    rspCons := prod
    handler := if sameIdx prod v.rspProd then none else some (prod, v.rspProd) }

def stepCollect (s : State) : Option State :=
  match s.tx.handler with
  | none => none
  | some (cons, prod) =>
    if sameIdx cons prod then some { s with tx := endOfPass s.tx prod }
    else
      match s.tx.ring (cons % n) with
      | .response id okay => some (collectResponse s cons prod id okay)
      | _ => none

def step (s : State) : Label → Option State
  | .getId t =>
    if s.call t = none then
      let (id, f) := getIdFromFreelist s.freelist
      some { s with freelist := f, call := Function.update s.call t (some id) }
    else none
  | .send t =>
    if s.tx.handler = none then
      (s.call t).map fun id => { sendRequest n s t id with
        inFlight := if s.state = .ready then id :: s.inFlight else s.inFlight }
    else none
  | .take => (backendTake n s.tx).map fun v => { s with tx := v }
  | .answer id okay => (backendAnswer n s.tx id okay).map fun v => { s with tx := v }
  | .gc =>
    if s.tx.handler = none then
      if s.state ≠ .ready then some s
      else some { s with tx := { s.tx with handler := some (s.tx.rspCons, s.tx.rspProd) } }
    else none
  | .collect => (stepCollect n s).map fun u => { u with
      inFlight := (s.tx.nextId n).elim s.inFlight s.inFlight.erase }
  | .setState st => if s.tx.handler = none then some { s with state := st } else none

structure Initial (s : State) : Prop where
  freelist : s.freelist = allocRequestTable n
  tx : s.tx.reqProdPvt = 0 ∧ s.tx.reqCons = 0 ∧ s.tx.rspProd = 0 ∧ s.tx.rspCons = 0 ∧
    s.tx.taken = [] ∧ s.tx.handler = none
  call : ∀ t, s.call t = none
  inFlight : s.inFlight = []

def OnList (f : Nat → Nat) (id : Nat) : Prop := ∃ k, f^[k] (f 0) = id

structure BuffersConserved (s : State) : Prop where
  distinct : s.inFlight.Nodup
  bound : subIdx s.tx.reqProdPvt s.tx.rspCons ≤ n
  idle : s.inFlight = [] → (∀ t, s.call t = none) →
    ∀ id, OnList s.freelist id ↔ OnList (allocRequestTable n) id

def isNull : Slot → Bool
  | .response _ okay => !okay
  | _ => false

def safeStep (s : State) : Label → Prop
  | .getId _ => s.freelist 0 ≠ 0
  | .send _ => s.state = .ready
  | .collect => ∀ window ∈ s.tx.handler, ¬ sameIdx window.1 window.2 →
      isNull (s.tx.ring (window.1 % n)) = false
  | _ => True

/-! ## The invariant -/

def Out (s : State) (i : Nat) : Prop := i ∈ s.inFlight ∨ ¬ Unowned s.call i

structure Inv (s : State) : Prop where
  chain : FreeIds n s.freelist (Out s)
  calls : Exclusive s.call
  nodup : s.inFlight.Nodup
  apart : ∀ t i, s.call t = some i → i ∉ s.inFlight
  range : ∀ i, Out s i → 0 < i ∧ i < n
  ring : ∃ queued answered, DevInv n s.tx (· ∈ s.inFlight) queued answered

end

variable {n t id : Nat} {s u : State} {v : BlkDev}

theorem out_of_call (h : s.call t = some id) : Out s id := .inr fun hu => hu t h

theorem onList_alloc (hn : n ≤ 65536) : OnList (allocRequestTable n) id ↔ id = 0 ∨
    (0 < id ∧ id < n) := by
  have halloc := freeIds_alloc hn fun _ => not_false
  rw [OnList, freeIds_iterate halloc]
  simp

theorem buffersConserved_of_inv (hn : n ≤ 65536) (h : Inv n s) : BuffersConserved n s := by
  refine ⟨h.nodup, ?_, ?_⟩
  · obtain ⟨queued, answered, hd⟩ := h.ring
    obtain ⟨hwindow, -⟩ := BlkRing.devInv_window hd
    have hbound := hd.bound
    have hcursor := hd.cursor
    have hmod : n < idxMod := lt_of_le_of_lt hn (by decide)
    rw [subIdx_eq (by omega) (by omega)]
    omega
  · intro hflight hcall i
    have hout : ¬ Out s i := by
      rintro (hi | hi)
      · rw [hflight] at hi
        cases hi
      · exact hi fun t => by rw [hcall t]; exact nofun
    rw [onList_alloc hn, OnList, freeIds_iterate h.chain]
    simp only [hout, not_false_eq_true, and_true]

theorem inv_initial (hn : n ≤ 65536) (hpos : 0 < n) (h : Initial n s) : Inv n s := by
  have hout : ∀ i, ¬ Out s i := by
    intro i hi
    simp [Out, h.inFlight, Unowned, h.call] at hi
  refine ⟨?_, ?_, ?_, ?_, ?_, [], [], ?_⟩
  · rw [h.freelist]
    exact freeIds_alloc hn hout
  · intro t u i ht
    rw [h.call t] at ht
    cases ht
  · simp [h.inFlight]
  · simp [h.inFlight]
  · exact fun i hi => absurd hi (hout i)
  · apply BlkRing.devInv_initial hpos ?_ h.tx
    simp [h.inFlight]

theorem inv_getId (h : Inv n s) (ht : s.call t = none) (hne : s.freelist 0 ≠ 0) :
    Inv n { s with
      freelist := update s.freelist 0 (s.freelist (s.freelist 0))
      call := update s.call t (some (s.freelist 0)) } := by
  obtain ⟨⟨hpos, hlt, hfree⟩, hchain⟩ := freeIds_take h.chain hne
  have hout : ∀ i, Out { s with
      freelist := update s.freelist 0 (s.freelist (s.freelist 0))
      call := update s.call t (some (s.freelist 0)) } i ↔ Out s i ∨ i = s.freelist 0 := by
    intro i
    simp only [Out, unowned_take ht]
    tauto
  have hunowned : Unowned s.call (s.freelist 0) := by
    by_contra hu
    exact hfree (.inr hu)
  refine ⟨freeIds_congr hout hchain, exclusive_take h.calls hunowned, h.nodup, ?_, ?_, h.ring⟩
  · intro u i hu
    simp only [update_apply] at hu
    split at hu
    · cases hu
      exact fun hi => hfree (.inl hi)
    · exact h.apart u i hu
  · intro i hi
    rcases (hout i).mp hi with hi | hi
    · exact h.range i hi
    · rw [hi]
      exact ⟨hpos, hlt⟩

def sent (n : Nat) (s : State) (t id : Nat) : State :=
  { s with
    call := update s.call t none
    tx := { s.tx with
      ring := update s.tx.ring (s.tx.reqProdPvt % n) (.request id)
      reqProdPvt := s.tx.reqProdPvt + 1 }
    inFlight := id :: s.inFlight }

theorem inv_send (h : Inv n s) (hidle : s.tx.handler = none) (ht : s.call t = some id) :
    Inv n (sent n s t id) := by
  obtain ⟨queued, answered, hd⟩ := h.ring
  have hnot := h.apart t id ht
  have hroom := BlkRing.devInv_room hd hnot (by
    rintro i (hi | rfl)
    · exact h.range i (.inl hi)
    · exact h.range i (out_of_call ht))
  have hout : ∀ i, Out (sent n s t id) i ↔ Out s i := by
    intro i
    simp only [Out, sent, List.mem_cons, unowned_drop h.calls ht, not_or]
    have hid : i = id → ¬ Unowned s.call i := by
      rintro rfl hu
      exact hu t ht
    tauto
  refine ⟨freeIds_congr hout h.chain, exclusive_drop h.calls, List.nodup_cons.mpr ⟨hnot, h.nodup⟩,
    ?_, fun i hi => h.range i ((hout i).mp hi), queued ++ [id], answered, ?_⟩
  · intro u i hu
    simp only [sent, update_apply] at hu
    split at hu
    · cases hu
    · rename_i hut
      rw [sent, List.mem_cons, not_or]
      refine ⟨?_, h.apart u i hu⟩
      rintro rfl
      exact hut (h.calls u t i hu ht)
  · apply BlkRing.devInv_congr _ (BlkRing.devInv_submit hd hidle hnot hroom)
    intro i
    rw [sent, List.mem_cons]
    exact or_comm

theorem inv_collectResponse {c p : Nat} {queued rest : List Nat} (hn : n ≤ 65536) (h : Inv n s)
    (hd : DevInv n s.tx (· ∈ s.inFlight) queued (id :: rest)) (hc : s.tx.handler = some (c, p))
    (hlt : c < p) :
    Inv n { collectResponse s c p id true with inFlight := s.inFlight.erase id } := by
  have hid := (hd.owned id).mpr (by simp)
  have hunowned : Unowned s.call id := fun t ht => h.apart t id ht hid
  obtain ⟨hpos, hlast⟩ := h.range id (.inl hid)
  have hmem : ∀ i, i ∈ s.inFlight.erase id ↔ i ∈ s.inFlight ∧ i ≠ id := by
    intro i
    rw [h.nodup.mem_erase_iff, and_comm]
  have hout : ∀ i, Out { collectResponse s c p id true with inFlight := s.inFlight.erase id } i ↔
      Out s i ∧ i ≠ id := by
    intro i
    simp only [Out, collectResponse, hmem]
    have hfree : i = id → Unowned s.call i := by
      rintro rfl
      exact hunowned
    tauto
  refine ⟨?_, h.calls, h.nodup.erase id, ?_, ?_, queued, rest, ?_⟩
  · exact freeIds_congr hout (freeIds_put hn h.chain hpos hlast (.inl hid))
  · intro t i ht hi
    exact h.apart t i ht ((hmem i).mp hi).1
  · intro i hi
    exact h.range i ((hout i).mp hi).1
  · exact BlkRing.devInv_congr hmem (BlkRing.devInv_handle hd hc hlt)

theorem inv_tx (h : Inv n s)
    (hv : ∃ queued answered, DevInv n v (· ∈ s.inFlight) queued answered) :
    Inv n { s with tx := v } := { h with ring := hv }

theorem devInv_endOfPass {owns : Nat → Prop} {queued answered : List Nat} {c p : Nat}
    (hn : n ≤ 65536) (h : DevInv n v owns queued answered) (hc : v.handler = some (c, p))
    (hsame : sameIdx c p) : DevInv n (endOfPass v p) owns queued answered := by
  obtain ⟨hwindow, hbound⟩ := BlkRing.devInv_window h
  obtain ⟨hle, hp⟩ := h.handler c p hc
  have hprod := h.prod
  have hcursor : v.cursor = c := by simp [BlkDev.cursor, hc]
  have hmod : n < idxMod := lt_of_le_of_lt hn (by decide)
  obtain rfl : c = p := (sameIdx_iff (by omega) (by omega)).mp hsame
  have hend := BlkRing.devInv_return h hc
  unfold endOfPass
  split
  · exact hend
  · exact BlkRing.devInv_interrupt hend rfl

theorem inv_collect (hn : n ≤ 65536) (h : Inv n s) (hsafe : safeStep n s .collect)
    (hu : stepCollect n s = some u) :
    Inv n { u with inFlight := (s.tx.nextId n).elim s.inFlight s.inFlight.erase } := by
  obtain ⟨queued, answered, hd⟩ := h.ring
  cases hc : s.tx.handler with
  | none =>
    rw [stepCollect, hc] at hu
    cases hu
  | some window =>
    obtain ⟨c, p⟩ := window
    simp only [stepCollect, hc] at hu
    split at hu
    · rename_i hsame
      cases hu
      rw [BlkRing.nextId_same hc hsame]
      exact inv_tx (s := s) h ⟨queued, answered, devInv_endOfPass hn hd hc hsame⟩
    · rename_i hne
      obtain ⟨id, okay, rest, rfl, hslot, hlt⟩ := BlkRing.devInv_next hd hc hne
      rw [hslot] at hu
      cases hu
      cases okay with
      | false =>
        have hnull := hsafe (c, p) hc hne
        rw [hslot] at hnull
        cases hnull
      | true =>
        rw [BlkRing.nextId_response hc hne hslot]
        exact inv_collectResponse hn h hd hc hlt

theorem inv_step {a : Label} (hn : n ≤ 65536) (h : Inv n s) (hsafe : safeStep n s a)
    (hu : step n s a = some u) : Inv n u := by
  cases a with
  | getId t =>
    obtain ⟨ht, rfl⟩ := of_when hu
    exact inv_getId h ht hsafe
  | send t =>
    obtain ⟨hidle, hu⟩ := Option.ite_none_right_eq_some.mp hu
    obtain ⟨id, ht, rfl⟩ := Option.map_eq_some_iff.mp hu
    have hready : s.state = .ready := hsafe
    simpa [sendRequest, sent, hready] using inv_send h hidle ht
  | take =>
    obtain ⟨v, hv, rfl⟩ := Option.map_eq_some_iff.mp hu
    obtain ⟨queued, answered, hd⟩ := h.ring
    obtain ⟨queued', hd⟩ := BlkRing.devInv_take hd hv
    exact inv_tx h ⟨queued', answered, hd⟩
  | answer id okay =>
    obtain ⟨v, hv, rfl⟩ := Option.map_eq_some_iff.mp hu
    obtain ⟨queued, answered, hd⟩ := h.ring
    exact inv_tx h ⟨queued, answered ++ [id], BlkRing.devInv_answer hd hv⟩
  | gc =>
    obtain ⟨hidle, hu⟩ := Option.ite_none_right_eq_some.mp hu
    split at hu
    · cases hu
      exact h
    · cases hu
      obtain ⟨queued, answered, hd⟩ := h.ring
      exact inv_tx h ⟨queued, answered, BlkRing.devInv_interrupt hd hidle⟩
  | collect =>
    obtain ⟨v, hv, rfl⟩ := Option.map_eq_some_iff.mp hu
    exact inv_collect hn h hsafe hv
  | setState st =>
    obtain ⟨-, rfl⟩ := of_when hu
    exact { h with }

/-- In every run whose calls find an id on the list and the device ready, and whose responses have
a status other than `NETIF_RSP_NULL`, buffers are exclusive and conserved. -/
theorem transmit_buffers_conserved (r : RingSize) (s : State)
    (h : Reach (step r.size) (safeStep r.size) (Initial r.size) s) : BuffersConserved r.size s := by
  have hn := r.size_le
  have hpos : 0 < r.size := Nat.two_pow_pos r.bits
  apply buffersConserved_of_inv hn
  apply h.invariant
  · intro s hs
    exact inv_initial hn hpos hs
  · intro s a u hs hsafe hu
    exact inv_step hn hs hsafe hu

def start (n : Nat) (st : NetState) : State where
  freelist := allocRequestTable n
  state := st
  tx := ⟨fun _ => .empty, 0, 0, 0, 0, [], none⟩
  call _ := none
  inFlight := []

theorem start_initial (n : Nat) (st : NetState) : Initial n (start n st) :=
  ⟨rfl, ⟨rfl, rfl, rfl, rfl, rfl, rfl⟩, fun _ => rfl, rfl⟩

instance (n : Nat) (s : State) (a : Label) : Decidable (safeStep n s a) := by
  cases a <;> unfold safeStep <;> infer_instance

theorem transmit_buffers_conserved_suspend : ∃ s, Reach (step 256) (safeStep 256) (Initial 256) s ∧
    s.inFlight = [254] ∧ s.freelist 0 = 255 ∧ BuffersConserved 256 s := by
  have h₀ : Reach (step 256) (safeStep 256) (Initial 256) (start 256 .ready) :=
    .start (start_initial 256 .ready)
  obtain ⟨s, hreach, hflight, hfirst⟩ := h₀.runGuardedTo
    (P := fun s => s.inFlight = [254] ∧ s.freelist 0 = 255)
    [.getId 0, .getId 1, .send 1, .send 0, .take, .take, .answer 255 true, .setState .suspended,
      .gc, .setState .ready, .gc, .collect, .collect]
    (by decide +kernel)
  exact ⟨s, hreach, hflight, hfirst, transmit_buffers_conserved ⟨8, by decide⟩ s hreach⟩

def xmit (t : Nat) : List Label := [.getId t, .send t]

theorem xmit_loses_id (hfit : n ≤ 65536) (hne : allocRequestTable n 0 ≠ 0) :
    ∃ s, Reach (step n) anyStep (Initial n) s ∧ s.inFlight = [] ∧ (∀ t, s.call t = none) ∧
      ¬ OnList s.freelist (allocRequestTable n 0) := by
  have hrun : run (step n) (start n .suspended) (xmit 0) = some { start n .suspended with
      freelist := update (allocRequestTable n) 0 (allocRequestTable n (allocRequestTable n 0)) } := by
    simp [run, xmit, step, getIdFromFreelist, sendRequest, start]
  refine ⟨_, Reach.run (.start (start_initial n .suspended)) _ hrun, rfl, fun _ => rfl, ?_⟩
  have halloc := freeIds_alloc hfit fun _ => not_false
  intro hlost
  rcases (freeIds_iterate (freeIds_take halloc hne).2).mp hlost with h0 | hfree
  · exact hne h0
  · exact hfree.2.2 (.inr rfl)

/-- A burst of 257 packets has two of them in flight with one id and more requests in the ring than
it has slots; a packet for a device that is not ready loses its id. -/
theorem transmit_buffers_not_conserved :
    (∃ s, Reach (step 256) anyStep (Initial 256) s ∧ ¬ s.inFlight.Nodup ∧
      ¬ subIdx s.tx.reqProdPvt s.tx.rspCons ≤ 256) ∧
    ∃ s, Reach (step 256) anyStep (Initial 256) s ∧ s.inFlight = [] ∧ (∀ t, s.call t = none) ∧
      ¬ ∀ id, OnList s.freelist id ↔ OnList (allocRequestTable 256) id := by
  constructor
  · have h₀ : Reach (step 256) anyStep (Initial 256) (start 256 .ready) :=
      .start (start_initial 256 .ready)
    obtain ⟨s, hs, htwice, hmany⟩ := h₀.runTo
      (P := fun s => s.inFlight.take 2 = [0, 0] ∧ ¬ subIdx s.tx.reqProdPvt s.tx.rspCons ≤ 256)
      (List.replicate 257 (xmit 0)).flatten (by decide +kernel)
    refine ⟨s, hs, fun hnodup => ?_, hmany⟩
    have hfirst := hnodup.sublist (List.take_sublist 2 _)
    rw [htwice] at hfirst
    exact absurd hfirst (by decide)
  · obtain ⟨s, hs, hflight, hcall, hlost⟩ :=
      xmit_loses_id (n := 256) (by decide) (by decide +kernel)
    refine ⟨s, hs, hflight, hcall, ?_⟩
    intro hall
    exact hlost ((hall _).mpr ⟨0, iterate_zero_apply _ _⟩)

end Guk.NetTx
