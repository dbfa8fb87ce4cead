import Guk.GrantTable
import Guk.NetRx

/-!
# The grants of the receive buffers (`netfront.c`)

`init_rx_buffers` grants every receive buffer to the backend and posts it. For each
response `network_rx` ends the grant of the buffer, and when no more responses are
there it grants and posts as many buffers as it has counted.

`network_rx` is cut into steps. Between them the backend answers requests, and
everything else that uses the grant table goes on.
-/
namespace Guk.NetRxGrants

open FsFreelist GrantTable Guk.Ring Runs Function Option
open List hiding cons
open NetRx (Response Plain NETIF_RSP_NULL)
open NetTx (NetState)

def NET_RX_RING_SIZE : Nat := 256

structure Request where
  id : Nat
  gref : Nat
  deriving DecidableEq, Repr

inductive Pc where
  | idle
  | moretodo
  | consume (cons rp nrConsumed : Nat)
  /-- `RING_FINAL_CHECK_FOR_RESPONSES`, before and after `rsp_event` has been set -/
  | check (nrConsumed : Nat) (again : Bool)
  | post (reqProd nrConsumed i : Nat)
  deriving DecidableEq, Repr

/-- `initialised` tells whether `init_rx_buffers` has run. `rxGrants` are the grants of receive
buffers that have been made and not been given back, the oldest one first; `delivered` are the
calls of `guk_netif_rx`. -/
structure State where
  backend : Bool
  state : NetState
  initialised : Bool
  pc : Pc
  rspProd : Nat
  reqProd : Nat
  rspCons : Nat
  reqProdPvt : Nat
  request : Nat → Request
  response : Nat → Response
  gref : Nat → Nat
  rxFreelist : Nat → Nat
  delivered : List (Nat × Nat × Int)
  grants : GrantTable.State
  rxGrants : List Nat

def inUse (g : GrantTable.State) (ref : Nat) : Prop :=
  (g.gnttabTable ref).flags &&& (GTF_reading ||| GTF_writing) ≠ 0

instance (g : GrantTable.State) (ref : Nat) : Decidable (inUse g ref) :=
  inferInstanceAs (Decidable (_ ≠ _))

def xennetRxidx (idx : Nat) : Nat := idx % NET_RX_RING_SIZE

inductive Label where
  | connect
  | initRxBuffers
  /-- `info->state = ST_READY` -/
  | ready
  | interrupt
  | rx
  | respond (rx : Response)
  /-- what else happens to the grant table -/
  | other (l : GrantTable.Label)

section

variable (frame : Nat → BitVec 32)

def grantBuffer (id idx : Nat) (s : State) : Option State :=
  let ref := (getFreeEntry s.grants).1
  (recordGrant (gnttabGrantAccess 0 (frame id) 0) s.grants).map fun g =>
    { s with
      grants := g
      gref := Function.update s.gref id ref
      request := Function.update s.request (idx % NET_RX_RING_SIZE) ⟨id, ref⟩
      rxGrants := s.rxGrants ++ [ref] }

def initLoop : (n requeueIdx : Nat) → State → Option State
  | 0, _, s => some s
  | n + 1, requeueIdx, s =>
      (grantBuffer frame requeueIdx requeueIdx s).bind (initLoop n (requeueIdx + 1))

def initRxBuffers (s : State) : Option State :=
  (initLoop frame NET_RX_RING_SIZE 0 s).map fun s =>
    { s with reqProdPvt := NET_RX_RING_SIZE, reqProd := NET_RX_RING_SIZE, initialised := true }

def handleResponse (rx : Response) (s : State) : State :=
  let ref := s.gref rx.id
  { s with
    grants := endAccess ref s.grants
    rxGrants := if inUse s.grants ref then s.rxGrants else s.rxGrants.erase ref
    delivered := if 0 < rx.status then (rx.id, rx.offset, rx.status) :: s.delivered else s.delivered
    rxFreelist := addIdToFreelist s.rxFreelist rx.id }

def networkRx (s : State) : Option State :=
  match s.pc with
  | .idle => none
  | .moretodo => some { s with pc := .consume s.rspCons s.rspProd 0 }
  | .consume cons rp nrConsumed =>
    if sameIdx cons rp then some { s with rspCons := rp, pc := .check nrConsumed false }
    else
      let rx := s.response (cons % NET_RX_RING_SIZE)
      if rx.extraInfo then some s
      else if rx.status = NETIF_RSP_NULL then some s
      else some { handleResponse rx s with pc := .consume (cons + 1) rp (nrConsumed + 1) }
  | .check nrConsumed again =>
    if ¬sameIdx s.rspProd s.rspCons then some { s with pc := .moretodo }
    else if again then some { s with pc := .post s.reqProdPvt nrConsumed 0 }
    else some { s with pc := .check nrConsumed true }
  | .post reqProd nrConsumed i =>
    if i < nrConsumed then
      (grantBuffer frame (xennetRxidx (reqProd + i)) (reqProd + i) s).map fun s =>
        { s with pc := .post reqProd nrConsumed (i + 1) }
    else some { s with reqProdPvt := reqProd + i, reqProd := reqProd + i, pc := .idle }

def foreign (s : State) : GrantTable.Label → Bool
  | .endAccess ref => ref ∉ s.rxGrants
  | .endTransfer ref => ref ∉ s.rxGrants
  | .suspend => false
  | .resume => false
  | _ => true

def step (s : State) : Label → Option State
  | .connect => if s.backend then none else some { s with backend := true }
  | .initRxBuffers => if s.backend ∧ s.initialised = false then initRxBuffers frame s else none
  | .ready => if s.initialised ∧ s.state = .unknown then some { s with state := .ready } else none
  | .interrupt =>
    if s.pc = .idle then some (if s.state ≠ .ready then s else { s with pc := .moretodo }) else none
  | .rx => networkRx frame s
  | .respond rx =>
    if s.rspProd < s.reqProd then
      some { s with
        response := Function.update s.response (s.rspProd % NET_RX_RING_SIZE) rx
        rspProd := s.rspProd + 1 }
    else none
  | .other l => if foreign s l then (GrantTable.step s.grants l).map fun g =>
      { s with grants := g } else none

end

def lo (s : State) : Nat :=
  match s.pc with
  | .consume cons _ _ => cons
  | _ => s.rspCons

def orderly (s : State) : Label → Prop
  | .respond rx => rx.id = (s.request (s.rspProd % NET_RX_RING_SIZE)).id ∧ Plain rx ∧
      ¬inUse s.grants (s.request (s.rspProd % NET_RX_RING_SIZE)).gref
  | .other (.remote ref entry) => ∀ p, lo s ≤ p → p < s.rspProd →
      ref = (s.request (p % NET_RX_RING_SIZE)).gref →
        entry.flags &&& (GTF_reading ||| GTF_writing) = 0
  | _ => True

def timely (s : State) : Label → Prop
  | .rx => match s.pc with
    | .check nrConsumed _ => sameIdx s.rspProd s.rspCons ∨ nrConsumed = 0
    | _ => True
  | _ => True

def start (g : GrantTable.State) : State where
  backend := false
  state := .unknown
  initialised := false
  pc := .idle
  rspProd := 0
  reqProd := 0
  rspCons := 0
  reqProdPvt := 0
  request _ := ⟨0, 0⟩
  response _ := ⟨0, 0, 0, 0⟩
  gref _ := 0
  rxFreelist := allocRequestTable NET_RX_RING_SIZE
  delivered := []
  grants := g
  rxGrants := []

def Initial (s : State) : Prop :=
  ∃ g, Reach GrantTable.step noResume GrantTable.Initial g ∧ g.gnttabSuspended = 0 ∧ s = start g

def postedIds (s : State) : List Nat :=
  (range' s.rspCons (s.reqProdPvt - s.rspCons)).map fun p => (s.request (p % NET_RX_RING_SIZE)).id

structure AllPosted (s : State) : Prop where
  count : s.reqProdPvt = s.rspCons + NET_RX_RING_SIZE
  ids : (postedIds s).Nodup
  grants : s.rxGrants = (postedIds s).map s.gref
  live : s.rxGrants.Nodup ∧ ∀ r ∈ s.rxGrants, r ∈ s.grants.outstanding

variable {frame : Nat → BitVec 32} {s t : State} {low id idx p r ref : Nat} {rx : Response}
  {l : Label} {g g' : GrantTable.State} {rest : List Nat}

/-! ## Steps of the grant table -/

theorem grant_spec {entry : GrantEntry} (h : GrantTable.Inv g)
    (hg : recordGrant (grant entry) g = some g') :
    (getFreeEntry g).1 ∉ g.outstanding ∧ g'.outstanding = (getFreeEntry g).1 :: g.outstanding ∧
      g'.gnttabSuspended = g.gnttabSuspended ∧
      ∀ r, r ≠ (getFreeEntry g).1 → g'.gnttabTable r = g.gnttabTable r := by
  obtain ⟨u, hu, rfl⟩ := map_eq_some_iff.mp hg
  obtain ⟨hne, rfl⟩ := of_unless hu
  exact ⟨((consistent_of_inv h).fresh hne).2.2, rfl, rfl, fun r hr => update_of_ne hr ..⟩

theorem endAccess_eq (h : ¬inUse g ref) : endAccess ref g = giveBack ref (clearFlags ref g) := by
  have hput : gnttabEndAccess ref g = putFreeEntry ref (clearFlags ref g) := if_neg h
  rw [endAccess, hput]
  exact recordEnd_put rfl rfl

theorem endAccess_other (hr : r ≠ ref) :
    (r ∈ (endAccess ref g).outstanding ↔ r ∈ g.outstanding) ∧
      (endAccess ref g).gnttabTable r = g.gnttabTable r := by
  rcases endAccess_cases ref g with he | he <;> rw [he]
  · exact ⟨Iff.rfl, rfl⟩
  · exact ⟨mem_erase_of_ne hr, update_of_ne hr ..⟩

theorem endTransfer_other (hg : endTransfer ref g = some g')
    (hr : r ≠ ref) : (r ∈ g'.outstanding ↔ r ∈ g.outstanding) ∧
    g'.gnttabTable r = g.gnttabTable r := by
  rcases endTransfer_cases hg with rfl | ⟨_, rfl⟩
  · exact ⟨mem_erase_of_ne hr, update_of_ne hr ..⟩
  · exact ⟨mem_erase_of_ne hr, rfl⟩

theorem endAccess_suspended (g : GrantTable.State) (ref : Nat) :
    (endAccess ref g).gnttabSuspended = g.gnttabSuspended := by
  rcases endAccess_cases ref g with he | he <;> rw [he]
  rfl

theorem endTransfer_suspended (hg : endTransfer ref g = some g') :
    g'.gnttabSuspended = g.gnttabSuspended := by
  rcases endTransfer_cases hg with rfl | ⟨_, rfl⟩
  · rfl
  · rfl

theorem foreign_spec {l : GrantTable.Label} (htable : GrantTable.Inv s.grants)
    (hl : foreign s l = true) (hs : GrantTable.step s.grants l = some g) (hr : r ∈ s.rxGrants)
    (hout : r ∈ s.grants.outstanding) :
    r ∈ g.outstanding ∧ (g.gnttabTable r = s.grants.gnttabTable r ∨ ∃ entry, l = .remote r entry ∧
      g.gnttabTable r = entry) := by
  have hgranted : ∀ {entry}, recordGrant (grant entry) s.grants = some g →
      r ∈ g.outstanding ∧ g.gnttabTable r = s.grants.gnttabTable r := by
    intro entry hg
    obtain ⟨hnew, hout', _, hsame⟩ := grant_spec htable hg
    have hne : r ≠ (getFreeEntry s.grants).1 := fun he => hnew (he ▸ hout)
    exact ⟨hout' ▸ mem_cons_of_mem _ hout, hsame r hne⟩
  have hne : ∀ {ref}, decide (ref ∉ s.rxGrants) = true → r ≠ ref := by
    rintro ref hforeign rfl
    exact of_decide_eq_true hforeign hr
  cases l with
  | grantAccess domid frame readonly | grantTransfer domid pfn =>
    obtain ⟨_, hs⟩ := ite_none_right_eq_some.mp hs
    exact ⟨(hgranted hs).1, .inl (hgranted hs).2⟩
  | endAccess ref =>
    obtain ⟨_, rfl⟩ := of_when hs
    obtain ⟨hmem, htab⟩ := endAccess_other (hne hl)
    exact ⟨hmem.mpr hout, .inl htab⟩
  | endTransfer ref =>
    obtain ⟨_, hs⟩ := ite_none_right_eq_some.mp hs
    obtain ⟨hmem, htab⟩ := endTransfer_other hs (hne hl)
    exact ⟨hmem.mpr hout, .inl htab⟩
  | remote ref entry =>
    obtain rfl := some.inj hs
    refine ⟨hout, ?_⟩
    by_cases he : r = ref
    · subst he
      exact .inr ⟨entry, rfl, update_self ..⟩
    · exact .inl (update_of_ne he ..)
  | suspend | resume => cases hl

theorem foreign_mapped {l : GrantTable.Label} (htable : GrantTable.Inv s.grants)
    (hl : foreign s l = true) (hs : GrantTable.step s.grants l = some g) :
    g.gnttabSuspended = s.grants.gnttabSuspended := by
  cases l with
  | grantAccess domid frame readonly | grantTransfer domid pfn =>
    obtain ⟨_, hs⟩ := ite_none_right_eq_some.mp hs
    exact (grant_spec htable hs).2.2.1
  | endAccess ref =>
    obtain ⟨_, rfl⟩ := of_when hs
    exact endAccess_suspended _ ref
  | endTransfer ref =>
    obtain ⟨_, hs⟩ := ite_none_right_eq_some.mp hs
    exact endTransfer_suspended hs
  | remote ref entry =>
    obtain rfl := some.inj hs
    rfl
  | suspend | resume => cases hl

/-! ## The grants that are out -/

structure Live (s : State) (low : Nat) : Prop where
  table : GrantTable.Inv s.grants
  mapped : s.grants.gnttabSuspended = 0
  grefs : Segment s.gref NET_RX_RING_SIZE low s.rxGrants
  requests : ∀ p, low ≤ p → p < low + s.rxGrants.length →
    s.request (p % NET_RX_RING_SIZE) = ⟨p % NET_RX_RING_SIZE, s.gref (p % NET_RX_RING_SIZE)⟩
  nodup : s.rxGrants.Nodup
  out : ∀ r ∈ s.rxGrants, r ∈ s.grants.outstanding

def Answered (s : State) (low : Nat) : Prop :=
  ∀ p, low ≤ p → p < s.rspProd → (s.response (p % NET_RX_RING_SIZE)).id = p % NET_RX_RING_SIZE ∧
    Plain (s.response (p % NET_RX_RING_SIZE)) ∧ ¬inUse s.grants (s.gref (p % NET_RX_RING_SIZE))

theorem grantBuffer_some (hg : grantBuffer frame id idx s = some t) :
    ∃ g, recordGrant (gnttabGrantAccess 0 (frame id) 0) s.grants = some g ∧ t = { s with
      grants := g
      gref := update s.gref id (getFreeEntry s.grants).1
      request := update s.request (idx % NET_RX_RING_SIZE) ⟨id, (getFreeEntry s.grants).1⟩
      rxGrants := s.rxGrants ++ [(getFreeEntry s.grants).1] } := by
  obtain ⟨g, hg, ht⟩ := map_eq_some_iff.mp hg
  exact ⟨g, hg, ht.symm⟩

theorem slot_behind (hroom : s.rxGrants.length < NET_RX_RING_SIZE) (hlow : low ≤ p)
    (hp : p < low + s.rxGrants.length) :
    p % NET_RX_RING_SIZE ≠ (low + s.rxGrants.length) % NET_RX_RING_SIZE :=
  slot_ne low hlow (by omega) (by omega) (by omega) (by omega)

theorem live_grant (h : Live s low) (hroom : s.rxGrants.length < NET_RX_RING_SIZE)
    (hg : grantBuffer frame ((low + s.rxGrants.length) % NET_RX_RING_SIZE) (low + s.rxGrants.length)
    s = some t) :
    Live t low := by
  obtain ⟨g, hgrant, rfl⟩ := grantBuffer_some hg
  obtain ⟨hnew, hout, hsusp, _⟩ := grant_spec h.table hgrant
  constructor
  · exact inv_grant h.table h.mapped hgrant
  · exact hsusp.trans h.mapped
  · apply segment_push
    · apply segment_congr h.grefs
      intro p hlow hp
      exact update_of_ne (slot_behind hroom hlow hp) ..
    · exact update_self ..
  · intro p hlow hp
    rw [length_append, length_singleton] at hp
    by_cases hlast : p = low + s.rxGrants.length
    · subst hlast
      simp only [update_self]
    · have hne := slot_behind hroom hlow (by omega)
      simp only [update_of_ne hne]
      exact h.requests p hlow (by omega)
  · rw [nodup_append]
    refine ⟨h.nodup, nodup_singleton _, ?_⟩
    rintro r hr _ hr' rfl
    rw [mem_singleton] at hr'
    exact hnew (hr' ▸ h.out r hr)
  · intro r hr
    rw [hout]
    rcases mem_append.mp hr with hr | hr
    · exact mem_cons_of_mem _ (h.out r hr)
    · exact mem_singleton.mp hr ▸ mem_cons_self

theorem live_mem (h : Live s low) (hlow : low ≤ p) (hp : p < low + s.rxGrants.length) :
    s.gref (p % NET_RX_RING_SIZE) ∈ s.rxGrants := by
  obtain ⟨i, rfl⟩ := Nat.exists_eq_add_of_le hlow
  have hi : i < s.rxGrants.length := by omega
  rw [segment_iff.mp h.grefs i hi]
  exact getElem_mem hi

theorem inUse_congr (h : g'.gnttabTable r = g.gnttabTable r) :
    inUse g' r ↔ inUse g r := by
  rw [inUse, inUse, h]

theorem answered_grant (h : Live s low) (ha : Answered s low)
    (hroom : s.rxGrants.length < NET_RX_RING_SIZE) (hle : s.rspProd ≤ low + s.rxGrants.length)
    (hg : grantBuffer frame ((low + s.rxGrants.length) % NET_RX_RING_SIZE) (low + s.rxGrants.length)
    s = some t) :
    Answered t low := by
  obtain ⟨g, hgrant, rfl⟩ := grantBuffer_some hg
  obtain ⟨hnew, _, _, hsame⟩ := grant_spec h.table hgrant
  intro p hlow hp
  have hp' := lt_of_lt_of_le hp hle
  obtain ⟨hid, hplain, hidle⟩ := ha p hlow hp
  have hold : s.gref (p % NET_RX_RING_SIZE) ≠ (getFreeEntry s.grants).1 :=
    fun he => hnew (he ▸ h.out _ (live_mem h hlow hp'))
  refine ⟨hid, hplain, ?_⟩
  simp only [update_of_ne (slot_behind hroom hlow hp')]
  rwa [inUse_congr (hsame _ hold)]

theorem live_handleResponse (h : Live s low) (hrx : s.rxGrants = ref :: rest)
    (hid : rx.id = low % NET_RX_RING_SIZE)
    (hidle : ¬inUse s.grants (s.gref (low % NET_RX_RING_SIZE))) :
    (handleResponse rx s).rxGrants = rest ∧ Live (handleResponse rx s) (low + 1) := by
  have hgref : s.gref rx.id = ref := by
    have hseg := h.grefs
    rw [hrx] at hseg
    rw [hid]
    exact hseg.1
  rw [← hid, hgref] at hidle
  have hrest : (handleResponse rx s).rxGrants = rest := by
    simp only [handleResponse, hgref, if_neg hidle, hrx, erase_cons_head]
  have hgrants : (handleResponse rx s).grants = endAccess ref s.grants := by
    simp only [handleResponse, hgref]
  have hmem : ref ∈ s.rxGrants := by
    rw [hrx]
    exact mem_cons_self
  have hnodup := h.nodup
  rw [hrx, nodup_cons] at hnodup
  refine ⟨hrest, ?_⟩
  constructor
  · rw [hgrants]
    exact inv_endAccess h.table h.mapped (h.out ref hmem)
  · rw [hgrants, endAccess_suspended]
    exact h.mapped
  · have hseg := h.grefs
    rw [hrx] at hseg
    rw [hrest]
    exact hseg.2
  · intro p hlow hp
    apply h.requests p (Nat.le_of_succ_le hlow)
    rw [hrest] at hp
    rw [hrx, length_cons]
    omega
  · rw [hrest]
    exact hnodup.2
  · intro r hr
    rw [hrest] at hr
    have hne : r ≠ ref := by
      rintro rfl
      exact hnodup.1 hr
    rw [hgrants, (endAccess_other hne).1]
    exact h.out r (hrx ▸ mem_cons_of_mem _ hr)

theorem answered_handleResponse (h : Live s low) (ha : Answered s low)
    (hrx : s.rxGrants = ref :: rest) (hid : rx.id = low % NET_RX_RING_SIZE)
    (hle : s.rspProd ≤ low + s.rxGrants.length) : Answered (handleResponse rx s) (low + 1) := by
  have hseg := h.grefs
  have hnodup := h.nodup
  rw [hrx, nodup_cons] at hnodup
  rw [hrx] at hseg
  intro p hlow hp
  obtain ⟨hidp, hplain, hidle⟩ := ha p (Nat.le_of_succ_le hlow) hp
  have hne : s.gref (p % NET_RX_RING_SIZE) ≠ s.gref rx.id := by
    rw [hid, hseg.1]
    intro he
    apply hnodup.1
    rw [← he]
    obtain ⟨i, rfl⟩ := Nat.exists_eq_add_of_le hlow
    have hi : i < rest.length := by
      rw [hrx, length_cons] at hle
      simp only [handleResponse] at hp
      omega
    rw [segment_iff.mp hseg.2 i hi]
    exact getElem_mem hi
  refine ⟨hidp, hplain, ?_⟩
  rwa [handleResponse, inUse_congr (endAccess_other hne).2]

end Guk.NetRxGrants
