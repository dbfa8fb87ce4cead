import Guk.NetRxGrants

/-!
# Receive buffers are posted again

The requests that are made and not handled form a window of the ring. Handling a
response takes the window's first request away, and `network_rx` owes one request for
it until it posts.
-/
namespace Guk.NetRxGrants

open FsFreelist GrantTable Guk.Ring Runs Function Option
open List hiding cons
open NetRx (Response Plain NETIF_RSP_NULL)
open NetTx (NetState)

variable {frame : Nat → BitVec 32} {s t : State} {low p r n : Nat} {rx : Response} {l : Label}
  {g : GrantTable.State}

/-! ## The invariant -/

def hi (s : State) : Nat :=
  match s.pc with
  | .post reqProd _ i => reqProd + i
  | _ => s.reqProdPvt

def owed (s : State) : Nat :=
  match s.pc with
  | .consume _ _ nrConsumed => nrConsumed
  | .check nrConsumed _ => nrConsumed
  | .post _ nrConsumed i => nrConsumed - i
  | _ => 0

def PcOk (s : State) : Prop :=
  match s.pc with
  | .consume cons rp nrConsumed => cons = s.rspCons + nrConsumed ∧ cons ≤ rp ∧ rp ≤ s.rspProd
  | .post reqProd nrConsumed i => reqProd = s.reqProdPvt ∧ i ≤ nrConsumed
  | _ => True

def held (s : State) : Nat := s.rxGrants.length + owed s

structure Window (s : State) (low high owe : Nat) : Prop where
  live : Live s low
  answered : Answered s low
  made : high = low + s.rxGrants.length
  room : s.rxGrants.length + owe ≤ NET_RX_RING_SIZE
  order : low ≤ s.rspProd ∧ s.rspProd ≤ s.reqProd ∧ s.reqProd = s.reqProdPvt

def Full (s : State) : Prop := s.initialised = true → held s = NET_RX_RING_SIZE

structure Inv (s : State) : Prop where
  window : Window s (lo s) (hi s) (owed s)
  pcOk : PcOk s
  before : s.initialised = false → s.state = .unknown ∧ s.pc = .idle ∧ s.rxGrants = [] ∧
    s.rspCons = 0
  /-- the backend is never left without buffers -/
  some : s.initialised = true → 0 < held s

theorem inv_initial (h : Initial s) : Inv s := by
  obtain ⟨g, hg, hmapped, rfl⟩ := h
  have hlive : Live (start g) 0 := by
    refine ⟨inv_reach hg, hmapped, trivial, ?_, nodup_nil, ?_⟩
    · intro p _ hp
      exact absurd hp (Nat.not_lt_zero p)
    · intro r hr
      cases hr
  refine ⟨⟨hlive, ?_, rfl, Nat.zero_le _, le_refl 0, le_refl 0, rfl⟩, trivial,
    fun _ => ⟨rfl, rfl, rfl, rfl⟩, ?_⟩
  · intro p _ hp
    exact absurd hp (Nat.not_lt_zero p)
  · intro hinit
    cases hinit

theorem Window.setPc {high owe : Nat} (h : Window s low high owe) (pc : Pc) :
    Window { s with pc := pc } low high owe :=
  { h with live := { h.live with } }

theorem initialised_of_busy (h : Inv s) (hpc : s.pc ≠ .idle) : s.initialised = true := by
  by_contra hinit
  exact hpc (h.before (Bool.eq_false_iff.mpr hinit)).2.1

theorem sameIdx_window {a b : Nat} (hle : a ≤ b) (hlt : b ≤ a + NET_RX_RING_SIZE) :
    sameIdx a b ↔ a = b := by
  have hmod : NET_RX_RING_SIZE < idxMod := by decide
  exact sameIdx_iff (by omega) (by omega)

/-! ### The invariant at each place -/

section

variable {cons rp nr q i : Nat} {again : Bool}

theorem Inv.atIdle (h : Inv s) (hpc : s.pc = .idle) :
    Window s s.rspCons s.reqProdPvt 0 ∧ held s = s.rxGrants.length := by
  have hwindow := h.window
  simp only [lo, hi, owed, hpc] at hwindow
  exact ⟨hwindow, by simp only [held, owed, hpc, Nat.add_zero]⟩

theorem Inv.atMoretodo (h : Inv s) (hpc : s.pc = .moretodo) :
    Window s s.rspCons s.reqProdPvt 0 ∧ held s = s.rxGrants.length := by
  have hwindow := h.window
  simp only [lo, hi, owed, hpc] at hwindow
  exact ⟨hwindow, by simp only [held, owed, hpc, Nat.add_zero]⟩

theorem Inv.atConsume (h : Inv s) (hpc : s.pc = .consume cons rp nr) :
    Window s cons s.reqProdPvt nr ∧ held s = s.rxGrants.length + nr ∧
      cons = s.rspCons + nr ∧ cons ≤ rp ∧ rp ≤ s.rspProd := by
  have hwindow := h.window
  have hok := h.pcOk
  simp only [lo, hi, owed, PcOk, hpc] at hwindow hok
  exact ⟨hwindow, by simp only [held, owed, hpc], hok⟩

theorem Inv.atCheck (h : Inv s) (hpc : s.pc = .check nr again) :
    Window s s.rspCons s.reqProdPvt nr ∧ held s = s.rxGrants.length + nr := by
  have hwindow := h.window
  simp only [lo, hi, owed, hpc] at hwindow
  exact ⟨hwindow, by simp only [held, owed, hpc]⟩

theorem Inv.atPost (h : Inv s) (hpc : s.pc = .post q nr i) :
    Window s s.rspCons (q + i) (nr - i) ∧ held s = s.rxGrants.length + (nr - i) ∧ q = s.reqProdPvt ∧
      i ≤ nr := by
  have hwindow := h.window
  have hok := h.pcOk
  simp only [lo, hi, owed, PcOk, hpc] at hwindow hok
  exact ⟨hwindow, by simp only [held, owed, hpc], hok⟩

/-! ### The steps of `network_rx` -/

structure StepOk (s t : State) : Prop where
  inv : Inv t
  initialised : t.initialised = s.initialised
  held : timely s .rx → held t = held s

section

variable (h : Inv s)

include h

theorem stepOk_of (hpc : s.pc ≠ .idle) (hwindow : Window t (lo t) (hi t) (owed t)) (hok : PcOk t)
    (hinit : t.initialised = s.initialised) (hpos : 0 < held t)
    (hheld : timely s .rx → held t = held s) :
    StepOk s t := by
  refine ⟨⟨hwindow, hok, fun hfalse => ?_, fun _ => hpos⟩, hinit, hheld⟩
  rw [hinit, initialised_of_busy h hpc] at hfalse
  cases hfalse

theorem stepOk_of_held (hpc : s.pc ≠ .idle) (hwindow : Window t (lo t) (hi t) (owed t))
    (hok : PcOk t)
    (hinit : t.initialised = s.initialised) (hheld : held t = held s) : StepOk s t := by
  refine stepOk_of h hpc hwindow hok hinit ?_ fun _ => hheld
  rw [hheld]
  exact h.some (initialised_of_busy h hpc)

theorem stepOk_moretodo (hpc : s.pc = .moretodo) :
    StepOk s { s with pc := .consume s.rspCons s.rspProd 0 } := by
  have hne : s.pc ≠ .idle := by simp [hpc]
  obtain ⟨hwindow, hheld⟩ := h.atMoretodo hpc
  exact stepOk_of_held h hne (hwindow.setPc _) ⟨rfl, hwindow.order.1, le_rfl⟩ rfl hheld.symm

section

variable (hpc : s.pc = .consume cons rp nr)

include hpc

theorem stepOk_consumed (hend : cons = rp) :
    StepOk s { s with rspCons := rp, pc := .check nr false } := by
  subst hend
  have hne : s.pc ≠ .idle := by simp [hpc]
  obtain ⟨hwindow, hheld, _⟩ := h.atConsume hpc
  have hwindow' : Window { s with rspCons := cons, pc := .check nr false } cons s.reqProdPvt nr :=
    { hwindow with live := { hwindow.live with } }
  exact stepOk_of_held h hne hwindow' trivial rfl hheld.symm

theorem sameIdx_consume : sameIdx cons rp ↔ cons = rp := by
  obtain ⟨hwindow, _, _, hle, hrp⟩ := h.atConsume hpc
  have hmade := hwindow.made
  have hroom := hwindow.room
  have horder := hwindow.order
  exact sameIdx_window hle (by omega)

theorem next_response (hne : cons ≠ rp) :
    cons < rp ∧ (s.response (cons % NET_RX_RING_SIZE)).id = cons % NET_RX_RING_SIZE ∧
      Plain (s.response (cons % NET_RX_RING_SIZE)) ∧
        ¬inUse s.grants (s.gref (cons % NET_RX_RING_SIZE)) ∧
      ∃ ref rest, s.rxGrants = ref :: rest := by
  obtain ⟨hwindow, _, _, hle, hrp⟩ := h.atConsume hpc
  have hmade := hwindow.made
  have horder := hwindow.order
  obtain ⟨hid, hplain, hidle⟩ := hwindow.answered cons le_rfl (by omega)
  exact ⟨by omega, hid, hplain, hidle, exists_cons_of_length_pos (by omega)⟩

theorem stepOk_response (hmore : cons ≠ rp) :
    StepOk s { handleResponse (s.response (cons % NET_RX_RING_SIZE)) s with
      pc := .consume (cons + 1) rp (nr + 1) } := by
  have hne : s.pc ≠ .idle := by simp [hpc]
  obtain ⟨hwindow, hheld, hcons, _, hrp⟩ := h.atConsume hpc
  obtain ⟨hlt, hid, _, hidle, ref, rest, hrx⟩ := next_response h hpc hmore
  have hmade := hwindow.made
  have hroom := hwindow.room
  have horder := hwindow.order
  obtain ⟨hrest, hlive⟩ := live_handleResponse hwindow.live hrx hid hidle
  have hanswered := answered_handleResponse hwindow.live hwindow.answered hrx hid (by omega)
  rw [hrx, length_cons] at hmade hroom hheld
  have hwindow' :
      Window (handleResponse (s.response (cons % NET_RX_RING_SIZE)) s) (cons + 1) s.reqProdPvt
      (nr + 1) := by
    refine ⟨hlive, hanswered, ?_, ?_, ?_⟩
    · rw [hrest]
      omega
    · rw [hrest]
      omega
    · exact ⟨by simp only [handleResponse]; omega, horder.2⟩
  refine stepOk_of_held h hne (hwindow'.setPc _) ?_ rfl ?_
  · exact ⟨by simp only [handleResponse]; omega, hlt, hrp⟩
  · simp only [held, owed, hrest] at hheld ⊢
    omega

end

section

variable (hpc : s.pc = .check nr again)

include hpc

theorem stepOk_more (hmore : ¬sameIdx s.rspProd s.rspCons) :
    StepOk s { s with pc := .moretodo } := by
  have hne : s.pc ≠ .idle := by simp [hpc]
  obtain ⟨hwindow, hheld⟩ := h.atCheck hpc
  have hmade := hwindow.made
  have horder := hwindow.order
  have hlt : s.rspCons ≠ s.rspProd := by
    intro heq
    rw [heq] at hmore
    exact hmore rfl
  have hwindow' : Window s s.rspCons s.reqProdPvt 0 :=
    ⟨hwindow.live, hwindow.answered, hmade, le_trans (by omega) hwindow.room, horder⟩
  have hheld' : held { s with pc := .moretodo } = s.rxGrants.length := rfl
  refine stepOk_of h hne (hwindow'.setPc _) trivial rfl (by omega) fun htimely => ?_
  simp only [timely, hpc] at htimely
  rcases htimely with hsame | hzero
  · exact absurd hsame hmore
  · omega

theorem stepOk_recheck : StepOk s { s with pc := .check nr true } := by
  have hne : s.pc ≠ .idle := by simp [hpc]
  obtain ⟨hwindow, hheld⟩ := h.atCheck hpc
  exact stepOk_of_held h hne (hwindow.setPc _) trivial rfl hheld.symm

theorem stepOk_checked : StepOk s { s with pc := .post s.reqProdPvt nr 0 } := by
  have hne : s.pc ≠ .idle := by simp [hpc]
  obtain ⟨hwindow, hheld⟩ := h.atCheck hpc
  exact stepOk_of_held h hne (hwindow.setPc _) ⟨rfl, Nat.zero_le nr⟩ rfl hheld.symm

end

theorem stepOk_grant (hpc : s.pc = .post q nr i) (hlt : i < nr)
    (hg : grantBuffer frame (xennetRxidx (q + i)) (q + i) s = some t) :
    StepOk s { t with pc := .post q nr (i + 1) } := by
  have hne : s.pc ≠ .idle := by simp [hpc]
  obtain ⟨hwindow, hheld, hq, _⟩ := h.atPost hpc
  have hmade := hwindow.made
  have hroom := hwindow.room
  have horder := hwindow.order
  have hroom' : s.rxGrants.length < NET_RX_RING_SIZE := by omega
  rw [hmade, xennetRxidx] at hg
  have hlive := live_grant hwindow.live hroom' hg
  have hanswered := answered_grant hwindow.live hwindow.answered hroom' (by omega) hg
  obtain ⟨g, _, rfl⟩ := grantBuffer_some hg
  have hlength : (s.rxGrants ++ [(getFreeEntry s.grants).1]).length = s.rxGrants.length + 1 := by
    rw [length_append, length_singleton]
  refine stepOk_of_held h hne ⟨{ hlive with }, hanswered, ?_, ?_, horder⟩ ⟨hq, hlt⟩ rfl ?_
  · simp only [hi, lo, hlength]
    omega
  · simp only [owed, hlength]
    omega
  · rw [hheld]
    simp only [held, owed, hlength]
    omega

theorem stepOk_posted (hpc : s.pc = .post q nr i) (hend : ¬i < nr) :
    StepOk s { s with reqProdPvt := q + i, reqProd := q + i, pc := .idle } := by
  have hne : s.pc ≠ .idle := by simp [hpc]
  obtain ⟨hwindow, hheld, hq, hle⟩ := h.atPost hpc
  have horder := hwindow.order
  have hroom := hwindow.room
  refine stepOk_of_held h hne ⟨{ hwindow.live with }, hwindow.answered, hwindow.made, ?_, ?_⟩
    trivial rfl ?_
  · simp only [owed]
    omega
  · exact ⟨horder.1, by simp only; omega, rfl⟩
  · rw [hheld]
    simp only [held, owed]
    omega

end

theorem stepOk_rx (h : Inv s) (hs : networkRx frame s = some t) : StepOk s t := by
  unfold networkRx at hs
  split at hs
  · cases hs
  case h_2 hpc =>
    obtain rfl := some.inj hs
    exact stepOk_moretodo h hpc
  case h_3 cons rp nr hpc =>
    by_cases hend : cons = rp
    · rw [if_pos ((sameIdx_consume h hpc).mpr hend)] at hs
      obtain rfl := some.inj hs
      exact stepOk_consumed h hpc hend
    · have hplain := (next_response h hpc hend).2.2.1
      have hne : ¬sameIdx cons rp := fun heq => hend ((sameIdx_consume h hpc).mp heq)
      simp only [if_neg hne, hplain.1, hplain.2, Bool.false_eq_true, if_false, some.injEq] at hs
      subst hs
      exact stepOk_response h hpc hend
  case h_4 nr again hpc =>
    split at hs
    case isTrue hmore =>
      obtain rfl := some.inj hs
      exact stepOk_more h hpc hmore
    case isFalse =>
      split at hs
      · obtain rfl := some.inj hs
        exact stepOk_checked h hpc
      · obtain rfl := some.inj hs
        exact stepOk_recheck h hpc
  case h_5 q nr i hpc =>
    split at hs
    case isTrue hlt =>
      obtain ⟨u, hg, rfl⟩ := map_eq_some_iff.mp hs
      exact stepOk_grant h hpc hlt hg
    case isFalse hend =>
      obtain rfl := some.inj hs
      exact stepOk_posted h hpc hend

end

/-! ### The other steps -/

theorem live_initLoop (h : Live s 0) (hroom : s.rxGrants.length + n ≤ NET_RX_RING_SIZE)
    (hs : initLoop frame n s.rxGrants.length s = some t) :
    Live t 0 ∧ t.rxGrants.length = s.rxGrants.length + n ∧ t.pc = s.pc ∧ t.state = s.state ∧
      t.rspProd = s.rspProd ∧ t.rspCons = s.rspCons ∧ t.backend = s.backend := by
  induction n generalizing s with
  | zero =>
    obtain rfl := some.inj hs
    exact ⟨h, rfl, rfl, rfl, rfl, rfl, rfl⟩
  | succ n ih =>
    obtain ⟨u, hg, hs⟩ := bind_eq_some_iff.mp hs
    have hslot : s.rxGrants.length = (0 + s.rxGrants.length) % NET_RX_RING_SIZE := by
      rw [Nat.zero_add, Nat.mod_eq_of_lt (by omega)]
    have hlive : Live u 0 := by
      apply live_grant h (by omega)
      rwa [← hslot, Nat.zero_add]
    obtain ⟨g, _, rfl⟩ := grantBuffer_some hg
    have hlength : (s.rxGrants ++ [(getFreeEntry s.grants).1]).length = s.rxGrants.length + 1 := by
      rw [length_append, length_singleton]
    have hstep := ih hlive (by simp only [hlength]; omega) (by simpa only [hlength] using hs)
    simp only [hlength] at hstep
    exact ⟨hstep.1, by omega, hstep.2.2⟩

theorem inv_initRxBuffers (h : Inv s) (hinit : s.initialised = false)
    (hs : initRxBuffers frame s = some t) :
    Inv t ∧ held t = NET_RX_RING_SIZE := by
  obtain ⟨_, hpc, hrx, hcons⟩ := h.before hinit
  have hlength : s.rxGrants.length = 0 := by rw [hrx, length_nil]
  have hwindow := (h.atIdle hpc).1
  have hmade := hwindow.made
  have horder := hwindow.order
  obtain ⟨u, hu, rfl⟩ := map_eq_some_iff.mp hs
  rw [← hlength] at hu
  obtain ⟨hlive, hcount, hpc', _, hprod, hcons', _⟩ :=
    live_initLoop (hcons ▸ hwindow.live) (by omega) hu
  rw [hlength, Nat.zero_add] at hcount
  have hheld : held { u with
      reqProdPvt := NET_RX_RING_SIZE, reqProd := NET_RX_RING_SIZE, initialised := true } =
      NET_RX_RING_SIZE := by
    simp only [held, owed, hpc', hpc, hcount, Nat.add_zero]
  refine ⟨⟨?_, ?_, fun hfalse => (by cases hfalse), fun _ => ?_⟩, hheld⟩
  · have hwindow' : Window { u with
        reqProdPvt := NET_RX_RING_SIZE, reqProd := NET_RX_RING_SIZE, initialised := true }
        0 NET_RX_RING_SIZE 0 := by
      refine ⟨{ hlive with }, ?_, by simp only [hcount, Nat.zero_add], by simp only [hcount]; omega,
        ?_⟩
      · intro p _ hp
        simp only at hp
        omega
      · exact ⟨Nat.zero_le _, by simp only; omega, rfl⟩
    simpa only [lo, hi, owed, hpc', hpc, hcons', hcons] using hwindow'
  · simp only [PcOk, hpc', hpc]
  · rw [hheld]
    decide

theorem reqProdPvt_le_hi (h : PcOk s) : s.reqProdPvt ≤ hi s := by
  unfold PcOk at h
  unfold hi
  split
  case h_1 hpc =>
    rw [hpc] at h
    exact h.1 ▸ Nat.le_add_right _ _
  case h_2 => exact le_rfl

theorem pcOk_respond (h : PcOk s) (response : Nat → Response) :
    PcOk { s with response := response, rspProd := s.rspProd + 1 } := by
  cases hpc : s.pc with
  | consume cons rp nr =>
    simp only [PcOk, hpc] at h ⊢
    exact ⟨h.1, h.2.1, Nat.le_succ_of_le h.2.2⟩
  | post q nr i =>
    simp only [PcOk, hpc] at h ⊢
    exact h
  | _ => simp only [PcOk]

theorem inv_respond (h : Inv s) (hok : orderly s (.respond rx)) (hlt : s.rspProd < s.reqProd) :
    Inv { s with
      response := update s.response (s.rspProd % NET_RX_RING_SIZE) rx
      rspProd := s.rspProd + 1 } := by
  obtain ⟨hid, hplain, hidle⟩ := hok
  obtain ⟨⟨hlive, hanswered, hmade, hroom, horder⟩, hpcOk, hbefore, hsome⟩ := h
  have hhi := reqProdPvt_le_hi hpcOk
  have hin : s.rspProd < lo s + s.rxGrants.length := by omega
  have hrequest := hlive.requests s.rspProd horder.1 hin
  rw [hrequest] at hid hidle
  refine ⟨⟨{ hlive with }, ?_, hmade, hroom, ?_⟩, ?_, hbefore, hsome⟩
  · intro p hlow hp
    by_cases hlast : p = s.rspProd
    · subst hlast
      simp only [update_self]
      exact ⟨hid, hplain, hidle⟩
    · have hp' : p < s.rspProd + 1 := hp
      have hlow' : lo s ≤ p := hlow
      have hslot : p % NET_RX_RING_SIZE ≠ s.rspProd % NET_RX_RING_SIZE :=
        slot_ne (lo s) hlow' (by omega) horder.1 (by omega) hlast
      simp only [update_of_ne hslot]
      exact hanswered p hlow' (by omega)
  · exact ⟨Nat.le_succ_of_le horder.1, hlt, horder.2.2⟩
  · exact pcOk_respond hpcOk _

theorem inv_other {l : GrantTable.Label} (h : Inv s) (hok : orderly s (.other l))
    (hl : foreign s l = true) (hs : GrantTable.step s.grants l = some g) :
    Inv { s with grants := g } := by
  obtain ⟨⟨hlive, hanswered, hmade, hroom, horder⟩, hpcOk, hbefore, hsome⟩ := h
  have hresume : l ≠ .resume := by
    rintro rfl
    cases hl
  have hkept : ∀ r ∈ s.rxGrants, r ∈ g.outstanding ∧ (g.gnttabTable r = s.grants.gnttabTable r ∨
      ∃ entry, l = .remote r entry ∧ g.gnttabTable r = entry) :=
    fun r hr => foreign_spec hlive.table hl hs hr (hlive.out r hr)
  refine ⟨⟨{ hlive with
    table := GrantTable.inv_step hlive.table hresume hs
    mapped := ?_
    out := fun r hr => (hkept r hr).1 }, ?_, hmade, hroom, horder⟩, hpcOk, hbefore, hsome⟩
  · exact (foreign_mapped hlive.table hl hs).trans hlive.mapped
  · intro p hlow hp
    obtain ⟨hid, hplain, hidle⟩ := hanswered p hlow hp
    have hin : p < lo s + s.rxGrants.length := by
      have hhi := reqProdPvt_le_hi hpcOk
      have hp' : p < s.rspProd := hp
      omega
    refine ⟨hid, hplain, ?_⟩
    rcases (hkept _ (live_mem hlive hlow hin)).2 with hsame | ⟨entry, rfl, hentry⟩
    · rwa [inUse_congr hsame]
    · have hflags := hok p hlow hp (by rw [hlive.requests p hlow hin])
      simp only [inUse, hentry, hflags, ne_eq, not_true_eq_false, not_false_eq_true]

theorem inv_step (h : Inv s) (hok : orderly s l) (hs : step frame s l = some t) :
    Inv t ∧ (timely s l → Full s → Full t) := by
  cases l with
  | connect =>
    obtain ⟨_, rfl⟩ := of_unless hs
    obtain ⟨⟨hlive, hanswered, hmade, hroom, horder⟩, hpcOk, hbefore, hsome⟩ := h
    exact ⟨⟨⟨{ hlive with }, hanswered, hmade, hroom, horder⟩, hpcOk, hbefore, hsome⟩,
      fun _ hfull => hfull⟩
  | initRxBuffers =>
    obtain ⟨⟨_, hinit⟩, hs⟩ := ite_none_right_eq_some.mp hs
    obtain ⟨hinv, hheld⟩ := inv_initRxBuffers h hinit hs
    exact ⟨hinv, fun _ _ _ => hheld⟩
  | ready =>
    obtain ⟨⟨hinit, _⟩, rfl⟩ := of_when hs
    obtain ⟨⟨hlive, hanswered, hmade, hroom, horder⟩, hpcOk, _, hsome⟩ := h
    refine ⟨⟨⟨{ hlive with }, hanswered, hmade, hroom, horder⟩, hpcOk, fun hfalse => ?_, hsome⟩,
      fun _ hfull => hfull⟩
    simp only [hinit] at hfalse
    cases hfalse
  | interrupt =>
    obtain ⟨hpc, rfl⟩ := of_when hs
    split
    case isTrue => exact ⟨h, fun _ hfull => hfull⟩
    case isFalse hready =>
      obtain ⟨hwindow, hheld⟩ := h.atIdle hpc
      have hsome := h.some
      rw [hheld] at hsome
      refine ⟨⟨hwindow.setPc _, trivial, fun hfalse => ?_, hsome⟩, fun _ hfull hinit => ?_⟩
      · rw [(h.before hfalse).1] at hready
        exact absurd (by decide) hready
      · exact hheld.symm.trans (hfull hinit)
  | rx =>
    obtain ⟨hinv, hinit, hheld⟩ := stepOk_rx h hs
    refine ⟨hinv, fun htimely hfull hinit' => ?_⟩
    exact (hheld htimely).trans (hfull (hinit ▸ hinit'))
  | respond rx =>
    obtain ⟨hlt, rfl⟩ := of_when hs
    exact ⟨inv_respond h hok hlt, fun _ hfull => hfull⟩
  | other l =>
    obtain ⟨hl, hs⟩ := ite_none_right_eq_some.mp hs
    obtain ⟨g, hg, rfl⟩ := map_eq_some_iff.mp hs
    exact ⟨inv_other h hok hl hg, fun _ hfull => hfull⟩

/-! ## All buffers are posted -/

theorem allPosted_of_inv (h : Inv s) (hfull : Full s) (hinit : s.initialised = true)
    (hpc : s.pc = .idle) :
    AllPosted s := by
  obtain ⟨hwindow, hheld⟩ := h.atIdle hpc
  have hlength : s.rxGrants.length = NET_RX_RING_SIZE := by rw [← hheld, hfull hinit]
  have hcount : s.reqProdPvt = s.rspCons + NET_RX_RING_SIZE := by rw [hwindow.made, hlength]
  have hwidth : s.reqProdPvt - s.rspCons = NET_RX_RING_SIZE := by omega
  have hids : postedIds s = (range' s.rspCons NET_RX_RING_SIZE).map (· % NET_RX_RING_SIZE) := by
    rw [postedIds, hwidth]
    apply map_congr_left
    intro p hp
    rw [mem_range'_1] at hp
    rw [hwindow.live.requests p hp.1 (by omega)]
  refine ⟨hcount, ?_, ?_, hwindow.live.nodup, hwindow.live.out⟩
  · rw [hids]
    refine List.Nodup.map_on (fun i hi j hj heq => ?_) nodup_range'
    rw [mem_range'_1] at hi hj
    by_contra hne
    exact slot_ne s.rspCons hi.1 hi.2 hj.1 hj.2 hne heq
  · have hgrefs := segment_eq hwindow.live.grefs
    rw [hlength] at hgrefs
    rw [hids, List.map_map]
    exact hgrefs

theorem inv_reach {ok : State → Label → Prop} (hok : ∀ s l, ok s l → orderly s l)
    (h : Reach (step frame) ok Initial s) : Inv s :=
  h.invariant (fun _ => inv_initial) fun _ _ _ hi hl hs => (inv_step hi (hok _ _ hl) hs).1

/-- In every run with an orderly backend in which no check finds more responses behind a round that
has handled some: whenever `network_rx` is not running, all buffers are posted. -/
theorem receive_buffers_posted (frame : Nat → BitVec 32) (s : State)
    (h : Reach (step frame) (fun s l => orderly s l ∧ timely s l) Initial s)
    (hinit : s.initialised = true) (hpc : s.pc = .idle) : AllPosted s := by
  have hboth : Inv s ∧ Full s := by
    refine h.invariant (I := fun s => Inv s ∧ Full s)
      (fun s hs => ⟨inv_initial hs, fun hinit => ?_⟩) ?_
    · obtain ⟨g, _, _, rfl⟩ := hs
      cases hinit
    · rintro s l t ⟨hinv, hfull⟩ ⟨hord, htimely⟩ hs
      obtain ⟨hinv', hfull'⟩ := inv_step hinv hord hs
      exact ⟨hinv', hfull' htimely hfull⟩
  exact allPosted_of_inv hboth.1 hboth.2 hinit hpc

instance (s : State) (l : Label) : Decidable (orderly s l) := by
  unfold orderly
  split <;> infer_instance

instance (s : State) (l : Label) : Decidable (timely s l) := by
  unfold timely
  split
  · split <;> infer_instance
  · infer_instance

/-- Nothing is granted yet. -/
def atStart : State := start (initGnttab fun _ => ⟨0, 0, 0⟩)

theorem initial_atStart : Initial atStart := ⟨_, .start ⟨_, rfl⟩, (initGnttab_fields _).2, rfl⟩

def comeUp : List Label := [.connect, .initRxBuffers, .ready]

def packet (id : Nat) : Response := ⟨id, 0, 0, 60⟩

theorem receive_buffers_posted_packet : ∃ s,
    Reach (step fun _ => 0) (fun s l => orderly s l ∧ timely s l) Initial s ∧ s.rspCons = 1 ∧
      AllPosted s := by
  have hstart : Reach (step fun _ => 0) (fun s l => orderly s l ∧ timely s l) Initial atStart :=
    .start initial_atStart
  obtain ⟨s, hs, hcons, hinit, hpc⟩ := hstart.runGuardedTo
    (P := fun s => s.rspCons = 1 ∧ s.initialised = true ∧ s.pc = .idle)
    (comeUp ++ [.respond (packet 0), .interrupt] ++ List.replicate 7 .rx) (by decide +kernel)
  exact ⟨s, hs, hcons, receive_buffers_posted _ s hs hinit hpc⟩

/-- Two packets come one after the other, the second while `network_rx` handles the first: only one
buffer is posted for them. -/
theorem receive_buffer_lost : ¬∀ (frame : Nat → BitVec 32) (s : State),
    Reach (step frame) orderly Initial s →
    s.initialised = true → s.pc = .idle → AllPosted s := by
  intro hall
  have hstart : Reach (step fun _ => 0) orderly Initial atStart := .start initial_atStart
  obtain ⟨s, hs, hcons, hprod, hinit, hpc⟩ := hstart.runGuardedTo
    (P := fun s => s.rspCons = 2 ∧ s.reqProdPvt = 257 ∧ s.initialised = true ∧ s.pc = .idle)
    (comeUp ++ [.respond (packet 0), .interrupt, .rx, .respond (packet 1)] ++
      List.replicate 10 .rx) (by decide +kernel)
  have hcount := (hall _ s hs hinit hpc).count
  rw [hcons, hprod] at hcount
  exact absurd hcount (by decide)

end Guk.NetRxGrants
