import Guk.BlkRing

/-!
# Requests at the FS backend (`tools/fs-back`)

One thread serves a mount. In `handle_aio_events` it waits for asynchronous
operations and for the event channel; after an event it goes through the requests
of the ring. Most requests are answered at once. Reads, writes and syncs get a
private id, a shadow copy and an asynchronous operation, and are answered when
`handle_aio_events` finds that operation finished.

The frontend posts requests as long as at most `n` of them are unanswered. Grants,
file descriptors and results are left out, and so are failures of the host's
calls. Indices keep their unwrapped value (`Guk.Ring`).
-/
namespace Guk.FsBackend

open FsFreelist Guk.Ring Runs Function List
open BlkRing (RingSize)

structure Request where
  type : Nat
  id : Nat
  deriving DecidableEq, Repr

inductive Slot where
  | empty
  | request (r : Request)
  | response (id : Nat)
  deriving DecidableEq, Repr

inductive Handler where
  | respond
  /-- it starts an asynchronous operation, and `response_handler` responds -/
  | aio
  deriving DecidableEq, Repr

structure FsOp where
  type : Nat
  dispatchHandler : Handler
  responseHandler : Bool
  deriving DecidableEq, Repr

def fsops : List FsOp :=
  [⟨1, .respond, false⟩, ⟨2, .respond, false⟩, ⟨3, .aio, true⟩, ⟨4, .aio, true⟩,
    ⟨14, .respond, false⟩, ⟨6, .respond, false⟩, ⟨7, .respond, false⟩, ⟨8, .respond, false⟩,
    ⟨9, .respond, false⟩, ⟨10, .respond, false⟩, ⟨11, .respond, false⟩, ⟨12, .respond, false⟩,
    ⟨13, .aio, true⟩, ⟨5, .respond, false⟩]

def findOp (type : Nat) : Option FsOp := fsops.find? (·.type = type)

def Known (type : Nat) : Prop := (findOp type).isSome

def Async (type : Nat) : Prop := ∃ op ∈ findOp type, op.dispatchHandler = .aio

instance (type : Nat) : Decidable (Async type) :=
  match h : findOp type with
  | none => isFalse (by simp [Async, h])
  | some op => decidable_of_iff (op.dispatchHandler = .aio) (by simp [Async, h])

structure FsRequest where
  active : Bool
  reqShadow : Request
  index : Nat
  deriving DecidableEq, Repr

inductive Phase where
  | listing
  /-- in the loop over `cb_list`, with these private ids and the event channel to come -/
  | scanning (rest : List Nat)
  /-- in the loop over the requests up to `rp` -/
  | dispatching (rp : Nat)
  deriving DecidableEq, Repr

/-- `cbCount` is the number of entries of `cb_list` at its last use. `posted` are all requests of
the frontend, in ring order; `active` are the asynchronous requests that have been dispatched and
not been answered, by index and private id; `answers` are the responses, with the index of the
request that they answer and the id they carry. -/
structure State where
  ring : Nat → Slot
  reqProd : Nat
  reqCons : Nat
  rspProdPvt : Nat
  rspProd : Nat
  freelist : Nat → Nat
  requests : Nat → FsRequest
  phase : Phase
  cbCount : Nat
  posted : List Request
  active : List (Nat × Nat)
  answers : List (Nat × Nat)

inductive Label where
  | submit (r : Request)
  | list
  /-- it looks at the next entry, whose operation is done or still in progress -/
  | scan (done : Bool)
  | dispatch

def ids (s : State) : List Nat := s.active.map Prod.snd

section

variable (n : Nat)

def submit (s : State) (r : Request) : Option State :=
  if s.reqProd < s.rspProdPvt + n then
    some { s with
      ring := update s.ring (s.reqProd % n) (.request r)
      reqProd := s.reqProd + 1
      posted := s.posted ++ [r] }
  else none

def putResponse (s : State) (index id : Nat) : State :=
  { s with
    ring := update s.ring (s.rspProdPvt % n) (.response id)
    rspProdPvt := s.rspProdPvt + 1
    answers := s.answers ++ [(index, id)] }

def getRequest (s : State) (r : Request) : State :=
  let (id, f) := getIdFromFreelist s.freelist
  { s with
    freelist := f
    requests := update s.requests id ⟨true, r, s.reqCons⟩
    active := s.active ++ [(s.reqCons, id)] }

def dispatchRequest (s : State) (r : Request) : State :=
  match findOp r.type with
  | none => { s with reqCons := s.reqCons + 1 }
  | some op =>
    match op.dispatchHandler with
    | .respond => putResponse n { s with reqCons := s.reqCons + 1 } s.reqCons r.id
    | .aio => { getRequest s r with reqCons := s.reqCons + 1 }

def dispatchResponse (s : State) (id : Nat) : Option State :=
  let req := s.requests id
  match findOp req.reqShadow.type with
  | none => none
  | some op =>
    if op.responseHandler then
      let s := putResponse n s req.index req.reqShadow.id
      some { s with
        requests := update s.requests id { req with active := false }
        freelist := addIdToFreelist s.freelist id
        active := s.active.erase (req.index, id) }
    else none

def activeIds (s : State) : List Nat := (List.range n).filter fun i => (s.requests i).active

def pushResponses (s : State) : State := { s with rspProd := s.rspProdPvt, phase := .listing }

def unconsumed (s : State) : Nat :=
  min (subIdx s.reqProd s.reqCons) (n - subIdx s.reqCons s.rspProdPvt)

def nextRequest (s : State) : Option Request :=
  match s.ring (s.reqCons % n) with
  | .request r => some r
  | _ => none

def step (s : State) : Label → Option State
  | .submit r => submit n s r
  | .list =>
    match s.phase with
    | .listing => some { s with
        phase := .scanning (activeIds n s)
        cbCount := (activeIds n s).length + 1 }
    | _ => none
  | .scan done =>
    match s.phase with
    | .scanning (id :: rest) =>
      if done then (dispatchResponse n s id).map fun s => { s with phase := .scanning rest }
      else some { s with phase := .scanning rest }
    | .scanning [] =>
      if done then some { s with phase := .dispatching s.reqProd } else some (pushResponses s)
    | _ => none
  | .dispatch =>
    match s.phase with
    | .dispatching rp =>
      if sameIdx s.reqCons rp then
        if unconsumed n s = 0 then some (pushResponses s)
        else some { s with phase := .dispatching s.reqProd }
      else (nextRequest n s).map (dispatchRequest n s)
    | _ => none

structure Initial (s : State) : Prop where
  indices : s.reqProd = 0 ∧ s.reqCons = 0 ∧ s.rspProdPvt = 0 ∧ s.rspProd = 0
  freelist : s.freelist = allocRequestTable n
  requests : ∀ i, (s.requests i).active = false
  thread : s.phase = .listing ∧ s.cbCount = 0
  histories : s.posted = [] ∧ s.active = [] ∧ s.answers = []

structure AnsweredOnce (s : State) : Prop where
  distinct : (ids s).Nodup
  fits : s.cbCount ≤ n
  /-- the requests to come are in the ring, in their order -/
  inOrder : ∀ k, s.reqCons ≤ k → k < s.reqProd →
    ∃ r, s.posted[k]? = some r ∧ s.ring (k % n) = .request r
  /-- a dispatched request of a known type has been answered once, or is active -/
  once : ∀ k r, k < s.reqCons → s.posted[k]? = some r → Known r.type →
    (s.answers.map Prod.fst).count k + (s.active.map Prod.fst).count k = 1
  /-- an active request is in the array as it was posted, and will be found in `cb_list` -/
  intact : ∀ k id, (k, id) ∈ s.active →
    id < n ∧ ∃ r, s.posted[k]? = some r ∧ s.requests id = ⟨true, r, k⟩
  /-- a response carries the id of its request -/
  carried : ∀ k id, (k, id) ∈ s.answers →
    k < s.reqCons ∧ ∃ r, s.posted[k]? = some r ∧ Known r.type ∧ id = r.id
  /-- a response is in the ring until the frontend posts a request to its slot -/
  responses : ∀ k, k < s.rspProdPvt → s.reqProd ≤ k + n →
    ∃ answer, s.answers[k]? = some answer ∧ s.ring (k % n) = .response answer.2
  /-- the thread does not wait with responses that have not been pushed -/
  pushed : s.phase = .listing → s.rspProd = s.answers.length
  /-- no assertion fails -/
  scans : ∀ rest done, s.phase = .scanning rest → (step n s (.scan done)).isSome
  dispatches : ∀ rp, s.phase = .dispatching rp → (step n s .dispatch).isSome

def dispatched (s : State) : Option Request :=
  match s.phase with
  | .dispatching rp => if sameIdx s.reqCons rp then none else nextRequest n s
  | _ => none

def safeStep (s : State) : Label → Prop
  | .dispatch => ∀ r ∈ dispatched n s, Async r.type → s.active.length < n - 1
  | _ => True

/-! ## The invariant -/

structure Private (freelist : Nat → Nat) (requests : Nat → FsRequest) (posted : List Request)
    (active : List (Nat × Nat)) : Prop where
  chain : FreeIds n freelist (· ∈ active.map Prod.snd)
  nodup : (active.map Prod.snd).Nodup
  range : ∀ i ∈ active.map Prod.snd, 0 < i ∧ i < n
  shadow : ∀ k i, (k, i) ∈ active →
    ∃ r, posted[k]? = some r ∧ Async r.type ∧ requests i = ⟨true, r, k⟩
  inactive : ∀ i, i ∉ active.map Prod.snd → (requests i).active = false
  few : active.length < n

end

structure Answers (posted : List Request) (cons : Nat) (answers active : List (Nat × Nat)) :
    Prop where
  once : (answers.map Prod.fst ++ active.map Prod.fst).Nodup
  below : ∀ k ∈ answers.map Prod.fst ++ active.map Prod.fst, k < cons
  complete : ∀ k r, k < cons → posted[k]? = some r → Known r.type →
    k ∈ answers.map Prod.fst ++ active.map Prod.fst
  carried : ∀ k id, (k, id) ∈ answers → ∃ r, posted[k]? = some r ∧ Known r.type ∧ id = r.id

structure Slots (n : Nat) (ring : Nat → Slot) (prod cons pvt : Nat) (posted : List Request)
    (answers : List (Nat × Nat)) : Prop where
  answered : pvt = answers.length
  posted_length : posted.length = prod
  pvt_le : pvt ≤ cons
  cons_le : cons ≤ prod
  bound : prod ≤ pvt + n
  requests : ∀ k, cons ≤ k → k < prod → ∃ r, posted[k]? = some r ∧ ring (k % n) = .request r
  responses : ∀ k, k < pvt → prod ≤ k + n →
    ∃ answer, answers[k]? = some answer ∧ ring (k % n) = .response answer.2

def PhaseOk (s : State) : Prop :=
  match s.phase with
  | .listing => s.rspProd = s.rspProdPvt
  | .scanning rest => rest.Nodup ∧ ∀ i ∈ rest, i ∈ ids s
  | .dispatching rp => s.reqCons ≤ rp ∧ rp ≤ s.reqProd

structure Inv (n : Nat) (s : State) : Prop where
  ids : Private n s.freelist s.requests s.posted s.active
  answers : Answers s.posted s.reqCons s.answers s.active
  slots : Slots n s.ring s.reqProd s.reqCons s.rspProdPvt s.posted s.answers
  phase : PhaseOk s
  fits : s.cbCount ≤ n

variable {n k id i cons prod pvt rp : Nat} {r : Request} {f : Nat → Nat}
  {requests : Nat → FsRequest}
  {ring : Nat → Slot} {posted : List Request} {answers active : List (Nat × Nat)} {s t : State}
    {rest : List Nat}

theorem getElem?_posted (h : posted[k]? = some r) (q : Request) : (posted ++ [q])[k]? = some r := by
  rw [List.getElem?_append_left (List.getElem?_eq_some_iff.mp h).1]
  exact h

theorem perm_erase (h : (k, id) ∈ active) : active.Perm ((k, id) :: active.erase (k, id)) :=
  perm_cons_erase h

theorem mem_ids_erase (h : (active.map Prod.snd).Nodup) (hmem : (k, id) ∈ active) :
    i ∈ (active.erase (k, id)).map Prod.snd ↔ i ∈ active.map Prod.snd ∧ i ≠ id := by
  have hperm := (perm_erase hmem).map Prod.snd
  have hnot := (List.nodup_cons.mp (hperm.nodup_iff.mp h)).1
  rw [hperm.mem_iff, map_cons, mem_cons]
  constructor
  · intro hi
    exact ⟨.inr hi, ne_of_mem_of_not_mem hi hnot⟩
  · rintro ⟨hi, hne⟩
    exact hi.resolve_left hne

/-! ## Private ids -/

theorem Private.submit (h : Private n f requests posted active) (q : Request) :
    Private n f requests (posted ++ [q]) active := by
  refine { h with shadow := ?_ }
  intro k i hki
  obtain ⟨r, hr, hasync, hreq⟩ := h.shadow k i hki
  exact ⟨r, getElem?_posted hr q, hasync, hreq⟩

theorem Private.take (h : Private n f requests posted active) (hfew : active.length < n - 1)
    (hr : posted[k]? = some r) (hasync : Async r.type) :
    Private n (getIdFromFreelist f).2 (update requests (f 0) ⟨true, r, k⟩) posted
      (active ++ [(k, f 0)]) := by
  have hne : f 0 ≠ 0 := by
    intro h0
    have hlen := freeIds_empty h.chain h0
    rw [length_map] at hlen
    omega
  obtain ⟨⟨hpos, hlt, hfree⟩, hchain⟩ := freeIds_take h.chain hne
  have hmem : ∀ i, i ∈ (active ++ [(k, f 0)]).map Prod.snd ↔ i ∈ active.map Prod.snd ∨ i = f 0 := by
    intro i
    rw [map_append, mem_append]
    exact or_congr_right mem_singleton
  refine ⟨freeIds_congr hmem hchain, ?_, ?_, ?_, ?_, ?_⟩
  · rw [map_append]
    apply h.nodup.append (nodup_singleton _)
    simpa using hfree
  · intro i hi
    rcases (hmem i).mp hi with hi | hi
    · exact h.range i hi
    · rw [hi]
      exact ⟨hpos, hlt⟩
  · intro k' i hki
    rcases List.mem_append.mp hki with hki | hki
    · obtain ⟨r', hr', hasync', hreq⟩ := h.shadow k' i hki
      have hi : i ≠ f 0 := ne_of_mem_of_not_mem (mem_map_of_mem hki) hfree
      exact ⟨r', hr', hasync', by rw [update_of_ne hi]; exact hreq⟩
    · cases List.mem_singleton.mp hki
      exact ⟨r, hr, hasync, update_self ..⟩
  · intro i hi
    rw [hmem, not_or] at hi
    rw [update_of_ne hi.2]
    exact h.inactive i hi.1
  · rw [length_append, length_singleton]
    omega

theorem Private.release (hn : n ≤ 65536) (h : Private n f requests posted active)
    (hmem : (k, id) ∈ active) :
    Private n (addIdToFreelist f id)
      (update requests id { requests id with active := false }) posted
      (active.erase (k, id)) := by
  have hid : id ∈ active.map Prod.snd := mem_map_of_mem hmem
  obtain ⟨hpos, hlt⟩ := h.range id hid
  have hids : ∀ i, i ∈ (active.erase (k, id)).map Prod.snd ↔ i ∈ active.map Prod.snd ∧ i ≠ id :=
    fun i => mem_ids_erase h.nodup hmem
  refine ⟨freeIds_congr hids (freeIds_put hn h.chain hpos hlt hid), ?_, ?_, ?_, ?_, ?_⟩
  · exact (List.erase_sublist.map Prod.snd).nodup h.nodup
  · intro i hi
    exact h.range i ((hids i).mp hi).1
  · intro k' i hki
    have hne : i ≠ id := ((hids i).mp (mem_map_of_mem hki)).2
    rw [update_of_ne hne]
    exact h.shadow k' i (mem_of_mem_erase hki)
  · intro i hi
    by_cases hne : i = id
    · rw [hne, update_self]
    · rw [update_of_ne hne]
      exact h.inactive i fun hi' => hi ((hids i).mpr ⟨hi', hne⟩)
  · exact lt_of_le_of_lt List.erase_sublist.length_le h.few

/-! ## Answers -/

section

variable (h : Answers posted cons answers active)

include h

theorem Answers.submit (hcons : cons ≤ posted.length)
    (q : Request) : Answers (posted ++ [q]) cons answers active := by
  refine { h with complete := ?_, carried := ?_ }
  · intro k r hk hr
    rw [List.getElem?_append_left (by omega)] at hr
    exact h.complete k r hk hr
  · intro k id hki
    obtain ⟨r, hr, hknown, hid⟩ := h.carried k id hki
    exact ⟨r, getElem?_posted hr q, hknown, hid⟩

theorem Answers.dispatch {answers' active' : List (Nat × Nat)}
    (hmore : (answers'.map Prod.fst ++ active'.map Prod.fst).Perm
      (cons :: (answers.map Prod.fst ++ active.map Prod.fst)))
    (hcarried : ∀ k id, (k, id) ∈ answers' → ∃ r, posted[k]? = some r ∧ Known r.type ∧ id = r.id) :
    Answers posted (cons + 1) answers' active' := by
  have hnot : cons ∉ answers.map Prod.fst ++ active.map Prod.fst := fun hmem =>
    lt_irrefl _ (h.below cons hmem)
  refine ⟨hmore.nodup_iff.mpr (List.nodup_cons.mpr ⟨hnot, h.once⟩), ?_, ?_, hcarried⟩
  · intro k hk
    rcases List.mem_cons.mp (hmore.mem_iff.mp hk) with hk | hk
    · omega
    · exact Nat.lt_succ_of_lt (h.below k hk)
  · intro k r hk hr hknown
    apply hmore.mem_iff.mpr
    by_cases hkc : k = cons
    · exact List.mem_cons.mpr (.inl hkc)
    · exact mem_cons_of_mem _ (h.complete k r (by omega) hr hknown)

theorem Answers.skip (hr : posted[cons]? = some r)
    (hunknown : ¬ Known r.type) : Answers posted (cons + 1) answers active := by
  refine ⟨h.once, fun k hk => Nat.lt_succ_of_lt (h.below k hk), ?_, h.carried⟩
  intro k r' hk hr' hknown
  by_cases hkc : k = cons
  · rw [hkc, hr] at hr'
    cases hr'
    exact absurd hknown hunknown
  · exact h.complete k r' (by omega) hr' hknown

theorem Answers.finish (hmem : (k, i) ∈ active) (hr : posted[k]? = some r) (hknown : Known r.type) :
    Answers posted cons (answers ++ [(k, r.id)]) (active.erase (k, i)) := by
  have hperm : (answers.map Prod.fst ++ active.map Prod.fst).Perm
      ((answers ++ [(k, r.id)]).map Prod.fst ++ (active.erase (k, i)).map Prod.fst) := by
    rw [map_append, append_assoc]
    exact ((perm_erase hmem).map Prod.fst).append_left _
  refine ⟨hperm.nodup_iff.mp h.once, ?_, ?_, ?_⟩
  · intro k' hk'
    exact h.below k' (hperm.mem_iff.mpr hk')
  · intro k' r' hk' hr' hknown'
    exact hperm.mem_iff.mp (h.complete k' r' hk' hr' hknown')
  · intro k' id' hki
    rcases List.mem_append.mp hki with hki | hki
    · exact h.carried k' id' hki
    · cases List.mem_singleton.mp hki
      exact ⟨r, hr, hknown, rfl⟩

theorem Answers.length_le : answers.length + active.length ≤ cons := by
  have hlen := length_le_of_nodup_of_lt h.once h.below
  rwa [length_append, length_map, length_map] at hlen

end

/-! ## The ring -/

section

variable (h : Slots n ring prod cons pvt posted answers)

include h

theorem Slots.submit (hroom : prod < pvt + n) (q : Request) :
    Slots n (update ring (prod % n) (.request q)) (prod + 1) cons pvt (posted ++ [q]) answers := by
  have hcons := h.cons_le
  have hconsumed := h.pvt_le
  refine ⟨h.answered, ?_, hconsumed, Nat.le_succ_of_le hcons, hroom, ?_, ?_⟩
  · rw [length_append, h.posted_length, length_singleton]
  · intro k hk hk'
    by_cases hlast : k = prod
    · refine ⟨q, ?_, ?_⟩
      · rw [hlast, ← h.posted_length, List.getElem?_concat_length]
      · rw [hlast, update_self]
    · obtain ⟨r, hr, hslot⟩ := h.requests k hk (by omega)
      refine ⟨r, getElem?_posted hr q, ?_⟩
      rw [update_of_ne (slot_ne pvt (by omega) (by omega) (by omega) hroom hlast)]
      exact hslot
  · intro k hk hk'
    obtain ⟨answer, ha, hslot⟩ := h.responses k hk (by omega)
    refine ⟨answer, ha, ?_⟩
    rw [update_of_ne (slot_ne k le_rfl (by omega) (by omega) (by omega) (by omega))]
    exact hslot

theorem Slots.consume (hlt : cons < prod) : Slots n ring prod (cons + 1) pvt posted answers := by
  refine { h with pvt_le := Nat.le_succ_of_le h.pvt_le, cons_le := hlt, requests := ?_ }
  intro k hk hk'
  exact h.requests k (by omega) hk'

theorem Slots.respond (hlt : pvt < cons) (k id : Nat) :
    Slots n (update ring (pvt % n) (.response id)) prod cons (pvt + 1) posted
      (answers ++ [(k, id)]) := by
  have hcons := h.cons_le
  have hbound := h.bound
  refine ⟨?_, h.posted_length, hlt, hcons, by omega, ?_, ?_⟩
  · rw [length_append, ← h.answered, length_singleton]
  · intro j hj hj'
    obtain ⟨r, hr, hslot⟩ := h.requests j hj hj'
    refine ⟨r, hr, ?_⟩
    rw [update_of_ne (slot_ne pvt (by omega) (by omega) (by omega) (by omega) (by omega))]
    exact hslot
  · intro j hj hj'
    by_cases hlast : j = pvt
    · refine ⟨(k, id), ?_, ?_⟩
      · rw [hlast, h.answered, List.getElem?_concat_length]
      · rw [hlast, update_self]
    · obtain ⟨answer, ha, hslot⟩ := h.responses j (by omega) hj'
      refine ⟨answer, ?_, ?_⟩
      · rw [List.getElem?_append_left (List.getElem?_eq_some_iff.mp ha).1]
        exact ha
      · rw [update_of_ne (slot_ne j le_rfl (by omega) (by omega) (by omega) hlast)]
        exact hslot

end

/-! ## Steps of the thread -/

theorem aio_responds {op : FsOp} (h : findOp r.type = some op) (haio : op.dispatchHandler = .aio) :
    op.responseHandler = true := by
  have htable : ∀ op ∈ fsops, op.dispatchHandler = .aio → op.responseHandler = true := by decide
  exact htable op (List.mem_of_find?_eq_some h) haio

theorem known_of_async (h : Async r.type) : Known r.type := by
  obtain ⟨op, hop, -⟩ := h
  rw [Known, hop]
  rfl

theorem inv_submit (h : Inv n s) (ht : submit n s r = some t) : Inv n t := by
  obtain ⟨hroom, rfl⟩ := of_when ht
  have hcons : s.reqCons ≤ s.posted.length := by
    rw [h.slots.posted_length]
    exact h.slots.cons_le
  refine ⟨h.ids.submit r, h.answers.submit hcons r, h.slots.submit hroom r, ?_, h.fits⟩
  have hphase := h.phase
  unfold PhaseOk at hphase ⊢
  cases hp : s.phase with
  | listing | scanning rest =>
    rw [hp] at hphase
    exact hphase
  | dispatching rp =>
    rw [hp] at hphase
    exact ⟨hphase.1, Nat.le_succ_of_le hphase.2⟩

theorem mem_ids_of_mem_activeIds (h : Inv n s) (hi : i ∈ activeIds n s) : i ∈ ids s := by
  have hactive := (List.mem_filter.mp hi).2
  by_contra hnot
  rw [h.ids.inactive i hnot] at hactive
  cases hactive

theorem nodup_activeIds : (activeIds n s).Nodup := List.nodup_range.filter _

theorem length_activeIds (h : Inv n s) : (activeIds n s).length < n := by
  have hsub : activeIds n s ⊆ ids s := fun i hi => mem_ids_of_mem_activeIds h hi
  have hlen := (subperm_of_subset nodup_activeIds hsub).length_le
  rw [ids, length_map] at hlen
  exact lt_of_le_of_lt hlen h.ids.few

theorem inv_list (h : Inv n s) : Inv n { s with
    phase := .scanning (activeIds n s)
    cbCount := (activeIds n s).length + 1 } := by
  have hids : ∀ i ∈ activeIds n s, i ∈ ids s := fun i hi => mem_ids_of_mem_activeIds h hi
  exact ⟨h.ids, h.answers, h.slots, ⟨nodup_activeIds, hids⟩, length_activeIds h⟩

theorem dispatchResponse_eq (h : Inv n s) (hid : id ∈ ids s) : ∃ k r, (k, id) ∈ s.active ∧
    s.posted[k]? = some r ∧ Known r.type ∧ dispatchResponse n s id = some
      { putResponse n s k r.id with
        requests := update s.requests id { s.requests id with active := false }
        freelist := addIdToFreelist s.freelist id
        active := s.active.erase (k, id) } := by
  obtain ⟨⟨k, i⟩, hmem, rfl⟩ := List.mem_map.mp hid
  obtain ⟨r, hr, hasync, hreq⟩ := h.ids.shadow k i hmem
  refine ⟨k, r, hmem, hr, known_of_async hasync, ?_⟩
  obtain ⟨op, hop, haio⟩ := hasync
  have hresponse := aio_responds hop haio
  simp only [Option.mem_def] at hop
  simp [dispatchResponse, hreq, hop, hresponse, putResponse]

theorem inv_finish (hn : n ≤ 65536) (h : Inv n s)
    (hp : s.phase = .scanning (id :: rest)) (ht : dispatchResponse n s id = some t) :
    Inv n { t with phase := .scanning rest } := by
  have hphase := h.phase
  rw [PhaseOk, hp] at hphase
  obtain ⟨hnodup, hids⟩ := hphase
  obtain ⟨k, r, hmem, hr, hknown, heq⟩ := dispatchResponse_eq h (hids id mem_cons_self)
  cases ht.symm.trans heq
  have hlt : s.rspProdPvt < s.reqCons := by
    have hlen := h.answers.length_le
    have hpos := length_pos_of_mem hmem
    rw [← h.slots.answered] at hlen
    omega
  refine ⟨h.ids.release hn hmem, h.answers.finish hmem hr hknown, h.slots.respond hlt k r.id, ?_,
    h.fits⟩
  refine ⟨(List.nodup_cons.mp hnodup).2, ?_⟩
  intro i hi
  apply (mem_ids_erase h.ids.nodup hmem).mpr
  exact ⟨hids i (mem_cons_of_mem _ hi), ne_of_mem_of_not_mem hi (List.nodup_cons.mp hnodup).1⟩

theorem nextRequest_eq (h : Inv n s) (hlt : s.reqCons < s.reqProd) :
    ∃ r, nextRequest n s = some r ∧ s.posted[s.reqCons]? = some r := by
  obtain ⟨r, hr, hslot⟩ := h.slots.requests s.reqCons le_rfl hlt
  refine ⟨r, ?_, hr⟩
  rw [nextRequest, hslot]

theorem inv_dispatchRequest (h : Inv n s) (hp : s.phase = .dispatching rp)
    (hne : ¬ sameIdx s.reqCons rp) (hr : nextRequest n s = some r)
    (hsafe : Async r.type → s.active.length < n - 1) : Inv n (dispatchRequest n s r) := by
  have hphase := h.phase
  rw [PhaseOk, hp] at hphase
  have hlt := Nat.lt_of_le_of_ne hphase.1 fun he => hne (congrArg (· % idxMod) he)
  obtain ⟨r', hr', hposted⟩ := nextRequest_eq h (lt_of_lt_of_le hlt hphase.2)
  cases hr.symm.trans hr'
  have hslots := h.slots.consume (lt_of_lt_of_le hlt hphase.2)
  cases hop : findOp r.type with
  | none =>
    have hunknown : ¬ Known r.type := by simp [Known, hop]
    simp only [dispatchRequest, hop]
    refine ⟨h.ids, h.answers.skip hposted hunknown, hslots, ?_, h.fits⟩
    rw [PhaseOk, hp]
    exact ⟨hlt, hphase.2⟩
  | some op =>
    have hknown : Known r.type := by simp [Known, hop]
    cases hhandler : op.dispatchHandler with
    | respond =>
      simp only [dispatchRequest, hop, hhandler]
      refine ⟨h.ids, ?_, hslots.respond (Nat.lt_succ_of_le h.slots.pvt_le) s.reqCons r.id, ?_,
        h.fits⟩
      · apply h.answers.dispatch
        · simp only [putResponse, map_append, append_assoc]
          exact perm_middle
        · intro k id hki
          rcases List.mem_append.mp hki with hki | hki
          · exact h.answers.carried k id hki
          · cases List.mem_singleton.mp hki
            exact ⟨r, hposted, hknown, rfl⟩
      · simp only [PhaseOk, putResponse, hp]
        exact ⟨hlt, hphase.2⟩
    | aio =>
      have hasync : Async r.type := ⟨op, hop, hhandler⟩
      simp only [dispatchRequest, hop, hhandler]
      refine ⟨h.ids.take (hsafe hasync) hposted hasync, ?_, hslots, ?_, h.fits⟩
      · apply h.answers.dispatch
        · simp only [getRequest, map_append, ← append_assoc]
          exact perm_append_singleton ..
        · exact h.answers.carried
      · simp only [PhaseOk, getRequest, hp]
        exact ⟨hlt, hphase.2⟩

theorem inv_pushResponses (h : Inv n s) : Inv n (pushResponses s) :=
  { h with phase := rfl }

theorem inv_moretodo (h : Inv n s) : Inv n { s with phase := .dispatching s.reqProd } :=
  { h with phase := ⟨h.slots.cons_le, le_rfl⟩ }

theorem inv_scan {done : Bool} (hn : n ≤ 65536) (h : Inv n s)
    (ht : step n s (.scan done) = some t) :
    Inv n t := by
  cases hp : s.phase with
  | listing | dispatching rp =>
    simp only [step, hp] at ht
    cases ht
  | scanning rest =>
    cases rest with
    | nil =>
      simp only [step, hp] at ht
      split at ht
      · cases ht
        exact inv_moretodo h
      · cases ht
        exact inv_pushResponses h
    | cons id rest =>
      simp only [step, hp] at ht
      split at ht
      · obtain ⟨u, hu, rfl⟩ := Option.map_eq_some_iff.mp ht
        exact inv_finish hn h hp hu
      · cases ht
        have hphase := h.phase
        rw [PhaseOk, hp] at hphase
        refine { h with phase := ?_ }
        exact ⟨(List.nodup_cons.mp hphase.1).2, fun i hi => hphase.2 i (mem_cons_of_mem _ hi)⟩

theorem inv_dispatch (h : Inv n s) (hsafe : safeStep n s .dispatch)
    (ht : step n s .dispatch = some t) :
    Inv n t := by
  cases hp : s.phase with
  | listing | scanning rest =>
    simp only [step, hp] at ht
    cases ht
  | dispatching rp =>
    simp only [step, hp] at ht
    split at ht
    · split at ht
      · cases ht
        exact inv_pushResponses h
      · cases ht
        exact inv_moretodo h
    · rename_i hne
      obtain ⟨r, hr, rfl⟩ := Option.map_eq_some_iff.mp ht
      apply inv_dispatchRequest h hp hne hr
      apply hsafe r
      simp only [dispatched, hp, hne, if_false]
      exact hr

theorem inv_step {a : Label} (hn : n ≤ 65536) (h : Inv n s) (hsafe : safeStep n s a)
    (ht : step n s a = some t) : Inv n t := by
  cases a with
  | submit r => exact inv_submit h ht
  | list =>
    simp only [step] at ht
    split at ht <;> cases ht
    exact inv_list h
  | scan done => exact inv_scan hn h ht
  | dispatch => exact inv_dispatch h hsafe ht

theorem inv_initial (hn : n ≤ 65536) (hpos : 0 < n) (h : Initial n s) : Inv n s := by
  obtain ⟨hprod, hcons, hpvt, hrsp⟩ := h.indices
  obtain ⟨hposted, hactive, hanswers⟩ := h.histories
  refine ⟨?_, ?_, ?_, ?_, ?_⟩
  · rw [hposted, hactive, h.freelist]
    exact ⟨freeIds_alloc hn (by simp), by simp, by simp, by simp, fun i _ => h.requests i, hpos⟩
  · rw [hposted, hactive, hanswers, hcons]
    exact ⟨by simp, by simp, by simp, by simp⟩
  · rw [hposted, hanswers, hprod, hcons, hpvt]
    exact ⟨rfl, rfl, le_rfl, le_rfl, by omega, by simp, by simp⟩
  · rw [PhaseOk, h.thread.1, hrsp, hpvt]
  · rw [h.thread.2]
    exact Nat.zero_le n

/-! ## Every request is answered once -/

theorem scan_isSome (h : Inv n s) (done : Bool) (hp : s.phase = .scanning rest) :
    (step n s (.scan done)).isSome := by
  have hphase := h.phase
  rw [PhaseOk, hp] at hphase
  cases rest with
  | nil => cases done <;> simp [step, hp]
  | cons id rest =>
    obtain ⟨k, r, -, -, -, heq⟩ := dispatchResponse_eq h (hphase.2 id mem_cons_self)
    cases done <;> simp [step, hp, heq]

theorem dispatch_isSome (h : Inv n s) (hp : s.phase = .dispatching rp) :
    (step n s .dispatch).isSome := by
  have hphase := h.phase
  rw [PhaseOk, hp] at hphase
  simp only [step, hp]
  split
  · split <;> rfl
  · rename_i hne
    have hlt := Nat.lt_of_le_of_ne hphase.1 fun he => hne (congrArg (· % idxMod) he)
    obtain ⟨r, hr, -⟩ := nextRequest_eq h (lt_of_lt_of_le hlt hphase.2)
    rw [hr]
    rfl

theorem answeredOnce_of_inv (h : Inv n s) : AnsweredOnce n s where
  distinct := h.ids.nodup
  fits := h.fits
  inOrder := h.slots.requests
  once := by
    intro k r hk hr hknown
    rw [← count_append]
    exact count_eq_one_of_mem h.answers.once (h.answers.complete k r hk hr hknown)
  intact := by
    intro k id hki
    obtain ⟨r, hr, -, hreq⟩ := h.ids.shadow k id hki
    exact ⟨(h.ids.range id (mem_map_of_mem hki)).2, r, hr, hreq⟩
  carried := by
    intro k id hki
    have hmem : k ∈ s.answers.map Prod.fst := mem_map_of_mem hki
    exact ⟨h.answers.below k (mem_append_left _ hmem), h.answers.carried k id hki⟩
  responses := h.slots.responses
  pushed := by
    intro hp
    have hphase := h.phase
    rw [PhaseOk, hp] at hphase
    exact hphase.trans h.slots.answered
  scans := fun _ done hp => scan_isSome h done hp
  dispatches := fun _ hp => dispatch_isSome h hp

def start (n : Nat) : State where
  ring _ := .empty
  reqProd := 0
  reqCons := 0
  rspProdPvt := 0
  rspProd := 0
  freelist := allocRequestTable n
  requests _ := ⟨false, ⟨0, 0⟩, 0⟩
  phase := .listing
  cbCount := 0
  posted := []
  active := []
  answers := []

theorem start_initial (n : Nat) : Initial n (start n) :=
  ⟨⟨rfl, rfl, rfl, rfl⟩, rfl, fun _ => rfl, ⟨rfl, rfl⟩, ⟨rfl, rfl, rfl⟩⟩

instance (n : Nat) (s : State) (a : Label) : Decidable (safeStep n s a) := by
  cases a <;> unfold safeStep <;> infer_instance

end Guk.FsBackend
