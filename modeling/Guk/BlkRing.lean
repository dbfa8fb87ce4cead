import Guk.FsFreelist
import Guk.Ring

/-!
# Requests of the block frontend (`blk_front.c`)

All devices take the ids of their requests from one free list, threaded through
`freelist` like that of the FS frontend, and every device has its own ring.
`guk_blk_do_io` and a run of `blk_front_handler` hold the lock of their device.
A call of `guk_blk_do_io` is one step: what it does behind `get_freelist_id`
concerns its own device and the id it has just got. A run of the handler handles
one response after the other, while other devices go on; it publishes `rsp_cons`
at its end only.

The backend of a device consumes requests in ring order and answers each of them
once, in any order. Indices keep their unwrapped value (`Guk.Ring`). Grant
references, sector numbers and notifications are left out.
-/
namespace Guk.BlkRing

open Chain FsFreelist Guk.Ring Runs Function
open List hiding cons

/-- The number of slots, as a power of two. -/
structure RingSize where
  bits : Nat
  le : bits ≤ 16

def RingSize.size (r : RingSize) : Nat := 2 ^ r.bits

theorem RingSize.size_le (r : RingSize) : r.size ≤ 65536 := Nat.pow_le_pow_right (by decide) r.le

inductive Slot where
  | empty
  | request (id : Nat)
  | response (id : Nat) (okay : Bool)
  deriving DecidableEq, Repr

def Slot.requestId : Slot → Option Nat
  | .request id => some id
  | _ => none

def Slot.responseId : Slot → Option Nat
  | .response id _ => some id
  | _ => none

inductive ReqState where
  | empty
  | submitted
  | doneSuccess
  | doneError
  deriving DecidableEq, Repr

/-- One device: its ring, what its backend has taken, and its handler with `cons` and `prod`. -/
structure BlkDev where
  ring : Nat → Slot
  reqProdPvt : Nat
  reqCons : Nat
  rspProd : Nat
  rspCons : Nat
  taken : List Nat
  handler : Option (Nat × Nat)

/-- The list `outstanding`, of the device and the id of each request, is not in the code. -/
structure State where
  freelist : Nat → Nat
  free : Nat → Bool
  request : Nat → Nat
  reqState : Nat → ReqState
  dev : Nat → BlkDev
  outstanding : List (Nat × Nat)

inductive Label where
  | doIo (d request : Nat)
  | take (d : Nat)
  | answer (d id : Nat) (okay : Bool)
  | interrupt (d : Nat)
  /-- it handles the next response, or returns -/
  | handle (d : Nat)

def setDev (s : State) (d : Nat) (v : BlkDev) : State := { s with dev := Function.update s.dev d v }

def getFreelistId (s : State) : Nat × State :=
  let id := s.freelist 0
  (id, { s with
    freelist := Function.update s.freelist 0 (s.freelist id)
    free := Function.update s.free id false })

def addIdFreelist (s : State) (id : Nat) : State :=
  { s with freelist := addIdToFreelist s.freelist id, free := Function.update s.free id true }

inductive Err where
  | enomem
  deriving DecidableEq, Repr

section

variable (n : Nat)

def doIo (s : State) (d request : Nat) : State × Option Err :=
  let v := s.dev d
  let (id, s) := getFreelistId s
  if id = 0 then (s, some .enomem)
  else
    (setDev { s with
      request := Function.update s.request id request
      reqState := Function.update s.reqState request .submitted } d { v with
        ring := Function.update v.ring (v.reqProdPvt % n) (.request id)
        reqProdPvt := v.reqProdPvt + 1 }, none)

def backendTake (v : BlkDev) : Option BlkDev :=
  if sameIdx v.reqCons v.reqProdPvt then none
  else (v.ring (v.reqCons % n)).requestId.map fun id =>
    { v with reqCons := v.reqCons + 1, taken := v.taken ++ [id] }

def backendAnswer (v : BlkDev) (id : Nat) (okay : Bool) : Option BlkDev :=
  if id ∈ v.taken then
    some { v with
      ring := Function.update v.ring (v.rspProd % n) (.response id okay)
      rspProd := v.rspProd + 1
      taken := v.taken.erase id }
  else none

def handleResponse (s : State) (d cons prod id : Nat) (okay : Bool) : Option State :=
  let ioReq := s.request id
  if s.free id ∨ s.reqState ioReq ≠ .submitted then none
  else
    let s' := addIdFreelist s id
    some (setDev { s' with
      reqState := Function.update s.reqState ioReq (if okay then .doneSuccess else .doneError) } d
      { s.dev d with handler := some (cons + 1, prod) })

def stepHandler (s : State) (d : Nat) : Option State :=
  let v := s.dev d
  match v.handler with
  | none => none
  | some (cons, prod) =>
    if sameIdx cons prod then some (setDev s d { v with rspCons := cons, handler := none })
    else
      match v.ring (cons % n) with
      | .response id okay => handleResponse s d cons prod id okay
      | _ => none

/-- The outstanding requests behind `guk_blk_do_io`. -/
def issued (s : State) (d : Nat) : List (Nat × Nat) :=
  if s.freelist 0 = 0 then s.outstanding else (d, s.freelist 0) :: s.outstanding

/-- The id of the response that the handler comes to next. -/
def BlkDev.nextId (v : BlkDev) : Option Nat :=
  match v.handler with
  | none => none
  | some (cons, prod) => if sameIdx cons prod then none else (v.ring (cons % n)).responseId

/-- The outstanding requests behind the handler's next step. -/
def retired (s : State) (d : Nat) : List (Nat × Nat) :=
  ((s.dev d).nextId n).elim s.outstanding fun id => s.outstanding.filter (·.2 ≠ id)

def step (s : State) : Label → Option State
  | .doIo d request =>
    if (s.dev d).handler = none ∧ s.reqState request = .empty then
      some { (doIo n s d request).1 with outstanding := issued s d }
    else none
  | .take d => (backendTake n (s.dev d)).map (setDev s d)
  | .answer d id okay => (backendAnswer n (s.dev d) id okay).map (setDev s d)
  | .interrupt d =>
    if (s.dev d).handler = none then
      some (setDev s d { s.dev d with handler := some ((s.dev d).rspCons, (s.dev d).rspProd) })
    else none
  | .handle d => (stepHandler n s d).map fun t => { t with outstanding := retired n s d }

structure Initial (s : State) : Prop where
  freelist : s.freelist = allocRequestTable n
  outstanding : s.outstanding = []
  dev : ∀ d, (s.dev d).reqProdPvt = 0 ∧ (s.dev d).reqCons = 0 ∧ (s.dev d).rspProd = 0 ∧
    (s.dev d).rspCons = 0 ∧ (s.dev d).taken = [] ∧ (s.dev d).handler = none

def ids (s : State) : List Nat := s.outstanding.map Prod.snd

def BlkDev.cursor (v : BlkDev) : Nat :=
  match v.handler with
  | none => v.rspCons
  | some (cons, _) => cons

/-- What holds of ids and rings: distinct ids, `-ENOMEM` when all are in use, no slot reused. -/
structure Consistent (s : State) : Prop where
  distinct : (ids s).Nodup
  nonzero : 0 ∉ ids s
  enomem : ∀ d request, (doIo n s d request).2 = some .enomem ↔ s.outstanding.length = n - 1
  bound : ∀ d, subIdx (s.dev d).reqProdPvt (s.dev d).rspCons ≤ n - 1
  /-- no slot is overwritten before the request or response in it has been consumed -/
  intact : ∀ d id, (d, id) ∈ s.outstanding → id ∈ (s.dev d).taken ∨
    (∃ k, (s.dev d).reqCons ≤ k ∧ k < (s.dev d).reqProdPvt ∧
      ((s.dev d).ring (k % n)).requestId = some id) ∨
    ∃ k, (s.dev d).cursor ≤ k ∧ k < (s.dev d).rspProd ∧
      ((s.dev d).ring (k % n)).responseId = some id
  /-- a handler that looks at the next response finds one, to a request that is not free and has
  been submitted -/
  noBug : ∀ d cons prod, (s.dev d).handler = some (cons, prod) → ¬ sameIdx cons prod →
    ∃ id okay, (s.dev d).ring (cons % n) = .response id okay ∧ s.free id = false ∧
      s.reqState (s.request id) = .submitted

/-- The requests `owns` of a device are queued, taken or answered, in the order of the ring. -/
structure DevInv (v : BlkDev) (owns : Nat → Prop) (queued answered : List Nat) : Prop where
  owned : ∀ i, owns i ↔ i ∈ queued ++ v.taken ++ answered
  nodup : (queued ++ v.taken ++ answered).Nodup
  pvt : v.reqProdPvt = v.reqCons + queued.length
  cons : v.reqCons = v.rspProd + v.taken.length
  prod : v.rspProd = v.cursor + answered.length
  cursor : v.rspCons ≤ v.cursor
  handler : ∀ cons prod, v.handler = some (cons, prod) → cons ≤ prod ∧ prod ≤ v.rspProd
  bound : v.reqProdPvt < v.rspCons + n
  requests : Segment (fun i => (v.ring i).requestId) n v.reqCons (queued.map some)
  responses : Segment (fun i => (v.ring i).responseId) n v.cursor (answered.map some)

/-- The free list has the ids that no request has, and every device keeps `DevInv`. -/
structure Inv (s : State) : Prop where
  chain : ∃ l, Follows s.freelist 0 (s.freelist 0) l ∧ ∀ i, i ∈ l ↔ 0 < i ∧ i < n ∧ i ∉ ids s
  nodup : (ids s).Nodup
  range : ∀ i ∈ ids s, 0 < i ∧ i < n
  shadow : ∀ i ∈ ids s, s.free i = false ∧ s.reqState (s.request i) = .submitted
  requests : ∀ i ∈ ids s, ∀ j ∈ ids s, s.request i = s.request j → i = j
  dev : ∀ d, ∃ queued answered, DevInv n (s.dev d) (fun i => (d, i) ∈ s.outstanding) queued answered

end

variable {n id c p : Nat} {v : BlkDev} {owns : Nat → Prop} {queued answered l : List Nat}
  {okay : Bool}

theorem owned_perm {l' : List Nat} (hp : l.Perm l') (ho : ∀ i, owns i ↔ i ∈ l) (hn : l.Nodup) :
    (∀ i, owns i ↔ i ∈ l') ∧ l'.Nodup :=
  ⟨fun i => (ho i).trans hp.mem_iff, hp.nodup_iff.mp hn⟩

theorem devInv_congr {owns' : Nat → Prop} (hiff : ∀ i, owns' i ↔ owns i)
    (h : DevInv n v owns queued answered) : DevInv n v owns' queued answered := by
  have he := funext fun i => propext (hiff i)
  rw [he]
  exact h

theorem devInv_initial (hpos : 0 < n) (howns : ∀ i, ¬ owns i)
    (h : v.reqProdPvt = 0 ∧ v.reqCons = 0 ∧ v.rspProd = 0 ∧ v.rspCons = 0 ∧ v.taken = [] ∧
      v.handler = none) : DevInv n v owns [] [] := by
  obtain ⟨hpvt, hcons, hprod, hrsp, htaken, hhandler⟩ := h
  constructor
  · simp [howns, htaken]
  · simp [htaken]
  · simp [hpvt, hcons]
  · simp [hcons, hprod, htaken]
  · simp [hprod, hrsp, BlkDev.cursor, hhandler]
  · simp [BlkDev.cursor, hhandler]
  · simp [hhandler]
  · omega
  · trivial
  · trivial

theorem devInv_window (h : DevInv n v owns queued answered) :
    v.cursor + answered.length + v.taken.length + queued.length = v.reqProdPvt ∧
      v.reqProdPvt < v.cursor + n := by
  have hpvt := h.pvt
  have hcons := h.cons
  have hprod := h.prod
  have hcursor := h.cursor
  have hbound := h.bound
  omega

theorem segment_mem {view : Nat → Option Nat} {lo : Nat}
    (h : Segment view n lo (l.map some)) (hid : id ∈ l) :
    ∃ k, lo ≤ k ∧ k < lo + l.length ∧ view (k % n) = some id := by
  obtain ⟨i, hi, rfl⟩ := getElem_of_mem hid
  have hslot := segment_iff.mp h i (by simpa using hi)
  rw [getElem_map] at hslot
  exact ⟨lo + i, by omega, by omega, hslot⟩

section

variable (h : DevInv n v owns queued answered) {v' : BlkDev}

include h

theorem devInv_intact (hid : owns id) : id ∈ v.taken ∨
    (∃ k, v.reqCons ≤ k ∧ k < v.reqProdPvt ∧ (v.ring (k % n)).requestId = some id) ∨
    ∃ k, v.cursor ≤ k ∧ k < v.rspProd ∧ (v.ring (k % n)).responseId = some id := by
  rw [h.pvt, h.prod]
  rcases mem_append.mp ((h.owned id).mp hid) with hmem | hmem
  · rcases mem_append.mp hmem with hmem | hmem
    · exact .inr (.inl (segment_mem h.requests hmem))
    · exact .inl hmem
  · exact .inr (.inr (segment_mem h.responses hmem))

theorem devInv_take
    (ht : backendTake n v = some v') : ∃ queued', DevInv n v' owns queued' answered := by
  obtain ⟨hne, ht⟩ := Option.ite_none_left_eq_some.mp ht
  obtain ⟨id, hslot, rfl⟩ := Option.map_eq_some_iff.mp ht
  cases queued with
  | nil =>
    rw [h.pvt] at hne
    exact absurd rfl hne
  | cons i queued =>
    have hid : id = i := Option.some.inj (hslot.symm.trans h.requests.1)
    subst hid
    have hperm :
        (id :: queued ++ v.taken ++ answered).Perm (queued ++ (v.taken ++ [id]) ++ answered) := by
      have hmove :
          (queued ++ v.taken ++ id :: answered).Perm (id :: (queued ++ v.taken ++ answered)) :=
        perm_middle
      simpa using hmove.symm
    obtain ⟨howned, hnodup⟩ := owned_perm hperm h.owned h.nodup
    refine ⟨queued, howned, hnodup, ?_, ?_, h.prod, h.cursor, h.handler, h.bound, h.requests.2,
      h.responses⟩
    · have hpvt := h.pvt
      rw [length_cons] at hpvt
      simp only
      omega
    · simp only [length_append, length_singleton]
      rw [h.cons, Nat.add_assoc]

theorem devInv_answer (ha : backendAnswer n v id okay = some v') :
    DevInv n v' owns queued (answered ++ [id]) := by
  obtain ⟨hmem, rfl⟩ := of_when ha
  have hlen : (v.taken.erase id).length + 1 = v.taken.length := by
    rw [length_erase_of_mem hmem]
    have := length_pos_of_mem hmem
    omega
  obtain ⟨hwindow, hbound⟩ := devInv_window h
  have hpvt := h.pvt
  have hcons := h.cons
  have hprod := h.prod
  have hperm :
      (queued ++ v.taken ++ answered).Perm (queued ++ v.taken.erase id ++ (answered ++ [id])) := by
    have herase := perm_cons_erase hmem
    have hmove : (queued ++ id :: (v.taken.erase id ++ answered)).Perm
        (id :: (queued ++ (v.taken.erase id ++ answered))) := perm_middle
    have hlast : (queued ++ (v.taken.erase id ++ answered) ++ [id]).Perm
        (id :: (queued ++ (v.taken.erase id ++ answered))) := perm_append_singleton ..
    rw [append_assoc]
    apply ((herase.append_right answered).append_left queued).trans
    simpa using hmove.trans hlast.symm
  obtain ⟨howned, hnodup⟩ := owned_perm hperm h.owned h.nodup
  have hq : (queued.map some).length = queued.length := length_map _
  have ha : (answered.map some).length = answered.length := length_map _
  refine ⟨howned, hnodup, h.pvt, ?_, ?_, h.cursor, ?_, h.bound, ?_, ?_⟩
  · simp only
    omega
  · change v.rspProd + 1 = v.cursor + (answered ++ [id]).length
    rw [length_append, length_singleton]
    omega
  · intro c p hc
    obtain ⟨hle, hp⟩ := h.handler c p hc
    exact ⟨hle, Nat.le_succ_of_le hp⟩
  · apply segment_write v.cursor h.requests <;> omega
  · change Segment _ n v.cursor _
    rw [map_append]
    apply segment_push
    · apply segment_write v.cursor h.responses <;> omega
    · change (update v.ring (v.rspProd % n) (.response id okay) _).responseId = some id
      rw [ha, ← hprod, update_self]
      rfl

theorem devInv_interrupt (hidle : v.handler = none) :
    DevInv n { v with handler := some (v.rspCons, v.rspProd) } owns queued answered := by
  have hcursor : v.cursor = v.rspCons := by simp [BlkDev.cursor, hidle]
  have hprod := h.prod
  have hresponses := h.responses
  rw [hcursor] at hprod hresponses
  refine ⟨h.owned, h.nodup, h.pvt, h.cons, hprod, le_rfl, ?_, h.bound, h.requests, hresponses⟩
  intro c p hc
  cases hc
  exact ⟨by omega, le_rfl⟩

theorem devInv_return (hc : v.handler = some (c, p)) :
    DevInv n { v with rspCons := c, handler := none } owns queued answered := by
  have hcursor : v.cursor = c := by simp [BlkDev.cursor, hc]
  have hprod := h.prod
  have hresponses := h.responses
  have hle := h.cursor
  have hbound := h.bound
  rw [hcursor] at hprod hresponses hle
  refine ⟨h.owned, h.nodup, h.pvt, h.cons, hprod, le_rfl, ?_, ?_, h.requests, hresponses⟩
  · intro c p hc
    cases hc
  · change v.reqProdPvt < c + n
    omega

theorem devInv_next
    (hc : v.handler = some (c, p)) (hne : ¬ sameIdx c p) : ∃ id okay rest, answered = id :: rest ∧
      v.ring (c % n) = .response id okay ∧ c < p := by
  have hcursor : v.cursor = c := by simp [BlkDev.cursor, hc]
  obtain ⟨hle, hp⟩ := h.handler c p hc
  obtain ⟨hwindow, hbound⟩ := devInv_window h
  have hprod := h.prod
  have hlt : c < p := by
    rcases Nat.lt_or_eq_of_le hle with hlt | rfl
    · exact hlt
    · exact absurd rfl hne
  have hresponses := h.responses
  cases answered with
  | nil =>
    rw [length_nil] at hprod
    omega
  | cons id rest =>
    have hslot := hresponses.1
    rw [hcursor] at hslot
    cases hring : v.ring (c % n) with
    | response id' okay =>
      simp only [hring, Slot.responseId, Option.some.injEq] at hslot
      exact ⟨id, okay, rest, rfl, by rw [hslot], hlt⟩
    | empty | request id' =>
      simp only [hring, Slot.responseId] at hslot
      cases hslot

end

theorem nextId_same (hc : v.handler = some (c, p)) (hsame : sameIdx c p) : v.nextId n = none := by
  simp only [BlkDev.nextId, hc, if_pos hsame]

theorem nextId_response (hc : v.handler = some (c, p)) (hne : ¬ sameIdx c p)
    (hslot : v.ring (c % n) = .response id okay) : v.nextId n = some id := by
  simp only [BlkDev.nextId, hc, if_neg hne, hslot, Slot.responseId]

theorem devInv_handle {rest : List Nat} (h : DevInv n v owns queued (id :: rest))
    (hc : v.handler = some (c, p)) (hlt : c < p) :
    DevInv n { v with handler := some (c + 1, p) } (fun i => owns i ∧ i ≠ id) queued rest := by
  have hcursor : v.cursor = c := by simp [BlkDev.cursor, hc]
  have hprod := h.prod
  have hresponses := h.responses
  have hle := h.cursor
  rw [hcursor] at hprod hresponses hle
  have hmove : (queued ++ v.taken ++ id :: rest).Perm (id :: (queued ++ v.taken ++ rest)) :=
    perm_middle
  obtain ⟨howned, hnodup⟩ := owned_perm hmove h.owned h.nodup
  obtain ⟨hid, hnodup⟩ := nodup_cons.mp hnodup
  refine ⟨?_, hnodup, h.pvt, h.cons, ?_, Nat.le_succ_of_le hle, ?_, h.bound, h.requests,
    hresponses.2⟩
  · intro i
    rw [howned, mem_cons]
    constructor
    · rintro ⟨hi | hi, hne⟩
      · exact absurd hi hne
      · exact hi
    · intro hi
      exact ⟨.inr hi, ne_of_mem_of_not_mem hi hid⟩
  · change v.rspProd = c + 1 + rest.length
    rw [length_cons] at hprod
    omega
  · intro c' p' hc'
    cases hc'
    exact ⟨hlt, (h.handler c p hc).2⟩

/-- The ids in the ring and a new one are different positive numbers below the ring's size. -/
theorem devInv_room (h : DevInv n v owns queued answered) (hid : ¬ owns id)
    (hrange : ∀ i, owns i ∨ i = id → 0 < i ∧ i < n) :
    (queued ++ v.taken ++ answered).length + 1 < n := by
  have hnot : id ∉ queued ++ v.taken ++ answered := fun hmem => hid ((h.owned id).mpr hmem)
  have hsub : id :: (queued ++ v.taken ++ answered) ⊆ range' 1 (n - 1) := by
    intro i hi
    have := hrange i ((mem_cons.mp hi).symm.imp_left (h.owned i).mpr)
    rw [mem_range'_1]
    omega
  have hlen := (subperm_of_subset (nodup_cons.mpr ⟨hnot, h.nodup⟩) hsub).length_le
  have := hrange id (.inr rfl)
  rw [length_cons, length_range'] at hlen
  omega

theorem devInv_submit (h : DevInv n v owns queued answered) (hidle : v.handler = none)
    (hid : ¬ owns id) (hroom : (queued ++ v.taken ++ answered).length + 1 < n) :
    DevInv n { v with
        ring := update v.ring (v.reqProdPvt % n) (.request id)
        reqProdPvt := v.reqProdPvt + 1 }
      (fun i => owns i ∨ i = id) (queued ++ [id]) answered := by
  have hcursor : v.cursor = v.rspCons := by simp [BlkDev.cursor, hidle]
  obtain ⟨hwindow, hbound⟩ := devInv_window h
  have hpvt := h.pvt
  have hcons := h.cons
  have hprod := h.prod
  have hq : (queued.map some).length = queued.length := length_map _
  have ha : (answered.map some).length = answered.length := length_map _
  rw [length_append, length_append] at hroom
  have hmove :
      (queued ++ id :: (v.taken ++ answered)).Perm (id :: (queued ++ (v.taken ++ answered))) :=
    perm_middle
  have hnot : id ∉ queued ++ v.taken ++ answered := fun hmem => hid ((h.owned id).mpr hmem)
  refine ⟨?_, ?_, ?_, h.cons, h.prod, h.cursor, h.handler, ?_, ?_, ?_⟩
  · intro i
    rw [h.owned]
    simp only [mem_append, mem_singleton]
    tauto
  · rw [append_assoc, append_assoc, singleton_append, hmove.nodup_iff, nodup_cons,
      ← append_assoc]
    exact ⟨hnot, h.nodup⟩
  · change v.reqProdPvt + 1 = v.reqCons + (queued ++ [id]).length
    rw [length_append, length_singleton]
    omega
  · change v.reqProdPvt + 1 < v.rspCons + n
    omega
  · rw [map_append]
    apply segment_push
    · apply segment_write v.cursor h.requests <;> omega
    · change (update v.ring (v.reqProdPvt % n) (.request id) _).requestId = some id
      rw [hq, ← hpvt, update_self]
      rfl
  · change Segment _ n v.cursor _
    apply segment_write v.cursor h.responses <;> omega

end Guk.BlkRing
