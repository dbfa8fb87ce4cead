import Guk.Ring
import Guk.Runs

/-!
# Calls of the debugger frontend and their responses (`db-frontend.c`, `db-back.c`)

The frontend has one thread, which waits for the response to a request before it sends the
next one; only `db_signoff` does not wait, because the backend does not answer it. All
requests have the same `id`: a response is found by its place in the ring.

Indices keep their unwrapped value (`Guk.Ring`). `ring_thread` does not sleep while there
is a request, so the backend may take one at any time; it publishes its responses at any
time too.
-/
namespace Guk.DebugPairing

open Guk.Ring Runs Function

def ringSize : Nat := 8

inductive Call where
  | readU64
  | writeU64
  | multibytebuffersize
  | readbytes
  | writebytes
  | gatherThreads
  | suspend
  | resume
  | suspendAll
  | resumeAll
  | singleStep
  | getRegs
  | setIp
  | getThreadStack
  | appSpecific1
  | activateWatchpoint
  | deactivateWatchpoint
  | watchpointInfo
  | debug
  | signoff
  deriving DecidableEq, Repr

def Call.sends (signedOff : Bool) : Call → Bool
  | .multibytebuffersize => false
  | .writebytes | .getRegs => !signedOff
  | _ => true

inductive Slot where
  | empty
  | request (idx : Nat) (c : Call)
  | response (idx : Nat)
  deriving DecidableEq, Repr

inductive Front where
  | idle
  /-- in `get_response` for the request `idx` -/
  | waiting (idx : Nat)
  /-- `get_response` has returned the slot -/
  | got (idx : Nat) (slot : Slot)
  | aborted
  deriving DecidableEq, Repr

/-- The ring, the private indices of both sides and the event channel of the frontend. `signoffs` is
not in the code: how often `db_signoff` has been called. -/
structure State where
  ring : Nat → Slot
  reqProd : Nat
  rspProd : Nat
  rspEvent : Nat
  reqProdPvt : Nat
  rspCons : Nat
  signedOff : Bool
  front : Front
  reqCons : Nat
  rspProdPvt : Nat
  pending : Bool
  signoffs : Nat

inductive Label where
  | call (c : Call)
  | receive
  | finish
  | consume
  /-- `RING_PUSH_RESPONSES_AND_CHECK_NOTIFY` -/
  | push

section

variable (s : State)

def sendRequest (c : Call) : State :=
  { s with
    ring := update s.ring (s.reqProdPvt % ringSize) (.request s.reqProdPvt c)
    reqProdPvt := s.reqProdPvt + 1
    reqProd := s.reqProdPvt + 1
    front := if c = .signoff then .idle else .waiting s.reqProdPvt
    signedOff := s.signedOff || c = .signoff
    signoffs := if c = .signoff then s.signoffs + 1 else s.signoffs }

def getResponse (idx : Nat) : State :=
  if sameIdx s.rspProd s.rspCons then s
  else if sameIdx (s.rspCons + 1) 0 then { s with front := .aborted }
  -- `more` of `RING_FINAL_CHECK_FOR_RESPONSES`
  else if ¬ sameIdx s.rspProd (s.rspCons + 1) then { s with front := .aborted }
  else
    { s with
      rspCons := s.rspCons + 1
      rspEvent := s.rspCons + 2
      front := .got idx (s.ring (s.rspCons % ringSize)) }

def step : Label → Option State
  | .call c =>
    if s.front ≠ .idle then none
    else if !c.sends s.signedOff then some s
    -- `assert(RING_FREE_REQUESTS(&ring) > 0)`
    else if subIdx s.reqProdPvt s.rspCons = ringSize then some { s with front := .aborted }
    else some (sendRequest s c)
  | .receive =>
    match s.front with
    | .waiting idx => if s.pending then some (getResponse { s with pending := false } idx) else none
    | _ => none
  | .finish =>
    match s.front with
    | .got _ _ => some { s with front := .idle }
    | _ => none
  | .consume =>
    if sameIdx s.reqCons s.reqProd then none
    else
      match s.ring (s.reqCons % ringSize) with
      | .request idx c =>
        if c = .signoff then some { s with reqCons := s.reqCons + 1 }
        else
          some { s with
            ring := update s.ring (s.rspProdPvt % ringSize) (.response idx)
            rspProdPvt := s.rspProdPvt + 1
            reqCons := s.reqCons + 1 }
      | _ => none
  | .push =>
    some { s with
      rspProd := s.rspProdPvt
      pending := s.pending ||
        decide (subIdx s.rspProdPvt s.rspEvent < subIdx s.rspProdPvt s.rspProd) }

structure Initial : Prop where
  reqProd : s.reqProd = 0
  rspProd : s.rspProd = 0
  rspEvent : s.rspEvent = 1
  reqProdPvt : s.reqProdPvt = 0
  rspCons : s.rspCons = 0
  front : s.front = .idle
  reqCons : s.reqCons = 0
  rspProdPvt : s.rspProdPvt = 0
  signoffs : s.signoffs = 0

def fewSignoffs : Label → Prop
  | .call c => c.sends s.signedOff = true → s.signoffs < ringSize ∧ s.rspCons + 1 < idxMod
  | _ => True

inductive Stage : Prop where
  | quiet (front : ∀ idx, s.front ≠ .waiting idx) (total : s.reqProdPvt = s.rspCons + s.signoffs)
      (prod : s.rspProdPvt = s.rspCons) (pub : s.rspProd = s.rspCons)
  | sent (front : s.front = .waiting (s.reqProdPvt - 1))
      (total : s.reqProdPvt = s.rspCons + s.signoffs + 1) (few : s.rspCons + 1 < idxMod)
      (cons : s.reqCons < s.reqProdPvt) (prod : s.rspProdPvt = s.rspCons)
        (pub : s.rspProd = s.rspCons)
  | answered (idx : Nat) (front : s.front = .waiting idx)
      (total : s.reqProdPvt = s.rspCons + s.signoffs + 1) (few : s.rspCons + 1 < idxMod)
      (cons : s.reqCons = s.reqProdPvt) (prod : s.rspProdPvt = s.rspCons + 1)
      (slot : s.ring (s.rspCons % ringSize) = .response idx)
      (pub : s.rspProd = s.rspCons ∨ s.rspProd = s.rspCons + 1 ∧ s.pending = true)

structure Inv : Prop where
  alive : s.front ≠ .aborted
  got : ∀ idx slot, s.front = .got idx slot → slot = .response idx
  stage : Stage s
  prod : s.reqProd = s.reqProdPvt
  event : s.rspEvent = s.rspCons + 1
  le : s.rspProdPvt ≤ s.reqCons ∧ s.reqCons ≤ s.reqProdPvt
  room : s.signoffs ≤ ringSize ∧ s.reqProdPvt ≤ s.rspCons + ringSize
  slots : ∀ i, s.reqCons ≤ i → i < s.reqProdPvt →
    ∃ c, s.ring (i % ringSize) = .request i c ∧ (c = .signoff ↔ s.front ≠ .waiting i)

end

variable {s u : State} {idx : Nat}

theorem inv_initial (h : Initial s) : Inv s := by
  have hquiet : Stage s := by
    refine .quiet ?_ ?_ ?_ ?_ <;> simp [h.front, h.reqProdPvt, h.rspCons, h.signoffs, h.rspProdPvt,
      h.rspProd]
  constructor <;> simp [hquiet, h.front, h.reqProd, h.reqProdPvt, h.rspEvent, h.rspCons,
    h.rspProdPvt, h.reqCons, h.signoffs]

section

variable (h : Inv s)

include h

theorem inv_sendRequest (hidle : s.front = .idle) (c : Call)
    (hfew : s.signoffs < ringSize ∧ s.rspCons + 1 < idxMod) :
    Inv (sendRequest s c) := by
  have hq : s.reqProdPvt = s.rspCons + s.signoffs ∧ s.rspProdPvt = s.rspCons ∧
      s.rspProd = s.rspCons := by
    cases h.stage with
    | quiet _ total prod pub => exact ⟨total, prod, pub⟩
    | sent front => simp [hidle] at front
    | answered idx front => simp [hidle] at front
  have hle := h.le
  have hprod := h.prod
  constructor
  · unfold sendRequest
    simp only
    split <;> simp
  · unfold sendRequest
    simp only
    split <;> simp
  · unfold sendRequest
    by_cases hc : c = .signoff
    · refine .quiet ?_ ?_ hq.2.1 hq.2.2 <;> simp [hc, hq.1]
      omega
    · refine .sent ?_ ?_ hfew.2 ?_ hq.2.1 hq.2.2 <;> simp [hc, hq.1]
      omega
  · rfl
  · exact h.event
  · simp only [sendRequest]
    omega
  · simp only [sendRequest]
    split <;> omega
  · intro i hi hi'
    simp only [sendRequest] at hi hi' ⊢
    by_cases hlast : i = s.reqProdPvt
    · subst hlast
      refine ⟨c, update_self .., ?_⟩
      split <;> simp_all
    · obtain ⟨c', hslot, hc'⟩ := h.slots i hi (by omega)
      have hne : i % ringSize ≠ s.reqProdPvt % ringSize :=
        slot_ne s.rspCons (by omega) (by omega) (by omega) (by omega) hlast
      refine ⟨c', by rw [update_of_ne hne, hslot], ?_⟩
      rw [hc', hidle]
      split <;> simp [Ne.symm hlast]

theorem inv_consume (hs : step s .consume = some u) : Inv u := by
  obtain ⟨hcons, hs⟩ := Option.ite_none_left_eq_some.mp hs
  have hle := h.le
  have hlt : s.reqCons < s.reqProdPvt := by
    rcases Nat.lt_or_eq_of_le hle.2 with hlt | heq
    · exact hlt
    · exact absurd (by rw [h.prod, heq]; rfl) hcons
  obtain ⟨c, hslot, hc⟩ := h.slots s.reqCons (le_refl _) hlt
  rw [hslot] at hs
  simp only at hs
  split at hs <;> cases hs
  · rename_i hoff
    refine { h with
      stage := ?_
      le := by simp only; omega
      slots := fun i hi => h.slots i (by simp only at hi; omega) }
    cases h.stage with
    | quiet front total prod pub => exact .quiet front total prod pub
    | sent front total few cons prod pub =>
      refine .sent front total few ?_ prod pub
      have hne : s.reqProdPvt - 1 ≠ s.reqCons := by
        intro heq
        exact hc.mp hoff (by rw [front, heq])
      simp only
      omega
    | answered idx front total few cons => omega
  · rename_i hoff
    have hwait : s.front = .waiting s.reqCons := by
      by_contra hne
      exact hoff (hc.mpr hne)
    cases h.stage with
    | quiet front => exact absurd hwait (front _)
    | sent front total few cons prod pub =>
      rw [hwait] at front
      injection front with front
      have hlast : s.reqCons + 1 = s.reqProdPvt := by omega
      refine { h with
        stage := .answered s.reqCons hwait total few hlast (by simp only; omega) ?_ (.inl pub)
        le := by simp only; omega
        slots := fun i hi hi' => by simp only at hi hi'; omega }
      simp only
      rw [prod, update_self]
    | answered idx front total few cons => omega

theorem inv_push (hs : step s .push = some u) : Inv u := by
  cases hs
  refine { h with stage := ?_ }
  cases h.stage with
  | quiet front total prod pub => exact .quiet front total prod prod
  | sent front total few cons prod pub => exact .sent front total few cons prod prod
  | answered idx front total few cons prod slot pub =>
    refine .answered idx front total few cons prod slot (.inr ⟨prod, ?_⟩)
    rcases pub with pub | ⟨-, hpending⟩
    · have hone : subIdx (s.rspCons + 1) s.rspCons = 1 := by
        rw [subIdx_eq (by omega) (by unfold idxMod; omega)]
        omega
      have hzero : subIdx (s.rspCons + 1) (s.rspCons + 1) = 0 := by
        rw [subIdx_eq (by omega) (by unfold idxMod; omega)]
        omega
      simp [prod, pub, h.event, hone, hzero]
    · simp [hpending]

theorem getResponse_eq (hwait : s.front = .waiting idx) (hpub : s.rspProd = s.rspCons + 1) :
    getResponse { s with pending := false } idx =
      { s with
        pending := false, rspCons := s.rspCons + 1, rspEvent := s.rspCons + 2
        front := .got idx (.response idx) } := by
  cases h.stage with
  | quiet front => exact absurd hwait (front idx)
  | sent front total few cons prod pub => omega
  | answered idx' front total few cons prod slot pub =>
    rw [hwait] at front
    cases front
    have hnew : ¬ sameIdx (s.rspCons + 1) s.rspCons := by
      rw [sameIdx_iff (by unfold idxMod; omega) (by omega)]
      omega
    have hpos : ¬ sameIdx (s.rspCons + 1) 0 := by
      rw [sameIdx_iff (by omega) (by omega)]
      omega
    have hmore : sameIdx (s.rspCons + 1) (s.rspCons + 1) := rfl
    simp only [getResponse, hpub, hnew, hpos, hmore, if_false, not_true, slot]

theorem inv_receive (hwait : s.front = .waiting idx) :
    Inv (getResponse { s with pending := false } idx) := by
  have hagain : s.rspProd = s.rspCons →
      getResponse { s with pending := false } idx = { s with pending := false } :=
    fun hpub => if_pos (by rw [hpub]; rfl)
  cases h.stage with
  | quiet front => exact absurd hwait (front idx)
  | sent front total few cons prod pub =>
    rw [hagain pub]
    exact { h with stage := .sent front total few cons prod pub }
  | answered idx' front total few cons prod slot pub =>
    rcases pub with pub | ⟨pub, -⟩
    · rw [hagain pub]
      exact { h with stage := .answered idx' front total few cons prod slot (.inl pub) }
    · rw [getResponse_eq h hwait pub]
      have hroom := h.room
      refine ⟨by simp, by simp, .quiet (by simp) ?_ prod pub, h.prod, rfl, h.le, ?_, ?_⟩
      · simp only
        omega
      · simp only
        omega
      · intro i hi hi'
        simp only at hi hi'
        omega

theorem inv_step {a : Label} (hok : fewSignoffs s a) (hs : step s a = some u) : Inv u := by
  cases a with
  | call c =>
    obtain ⟨hidle, hs⟩ := Option.ite_none_left_eq_some.mp hs
    rw [not_not] at hidle
    split at hs
    · cases hs
      exact h
    · rename_i hsends
      have hfew := hok (by simpa using hsends)
      have hfree : subIdx s.reqProdPvt s.rspCons ≠ ringSize := by
        cases h.stage with
        | quiet front total =>
          rw [subIdx_eq (by omega) (by unfold idxMod; unfold ringSize at hfew; omega)]
          omega
        | sent front => simp [hidle] at front
        | answered idx front => simp [hidle] at front
      rw [if_neg hfree] at hs
      cases hs
      exact inv_sendRequest h hidle c hfew
  | receive =>
    change (match s.front with | .waiting idx => _ | _ => _) = some u at hs
    split at hs
    · obtain ⟨-, rfl⟩ := of_when hs
      exact inv_receive h ‹_›
    · cases hs
  | finish =>
    change (match s.front with | .got _ _ => _ | _ => _) = some u at hs
    split at hs <;> cases hs
    rename_i hgot
    refine { h with alive := by simp, got := by simp, stage := ?_, slots := ?_ }
    · cases h.stage with
      | quiet front total prod pub => exact .quiet (by simp) total prod pub
      | sent front => simp [hgot] at front
      | answered idx front => simp [hgot] at front
    · simpa [hgot] using h.slots
  | consume => exact inv_consume h hs
  | push => exact inv_push h hs

end

/-! ## A call comes back -/

theorem receive_published (h : Inv s) (hwait : s.front = .waiting idx)
    (hpub : s.rspProd = s.rspCons + 1) : ∃ u, step s .receive = some u ∧
    u.front = .got idx (.response idx) := by
  have hpending : s.pending = true := by
    cases h.stage with
    | quiet _ _ _ pub => omega
    | sent _ _ _ _ _ pub => omega
    | answered _ _ _ _ _ _ _ pub => exact (pub.resolve_left (by omega)).2
  refine ⟨getResponse { s with pending := false } idx, ?_, ?_⟩
  · simp only [step, hwait, hpending, if_true]
  · rw [getResponse_eq h hwait hpub]

theorem leads_got (h : Inv s) (hwait : s.front = .waiting idx) :
    ∃ u, Leads step s u ∧ u.front = .got idx (.response idx) := by
  induction hn : s.reqProdPvt - s.reqCons generalizing s with
  | zero =>
    have hpush : step s .push = some _ := rfl
    have hinv := inv_push h hpush
    cases h.stage with
    | quiet front => exact absurd hwait (front idx)
    | sent _ _ _ cons => omega
    | answered _ _ _ _ _ prod =>
      obtain ⟨u, hu, hgot⟩ := receive_published hinv hwait prod
      exact ⟨u, .head .push hpush (.head .receive hu (.refl u)), hgot⟩
  | succ n ih =>
    obtain ⟨c, hslot, -⟩ := h.slots s.reqCons (le_refl _) (by omega)
    have hcons : ¬ sameIdx s.reqCons s.reqProd := by
      have hroom := h.room.2
      have hle := h.le
      rw [h.prod, sameIdx_iff (by omega) ?_]
      · omega
      · have := h.stage
        unfold ringSize at hroom
        unfold idxMod
        cases h.stage with
        | quiet _ _ prod => omega
        | sent _ _ _ _ prod => omega
        | answered _ _ _ _ cons => omega
    obtain ⟨u, hu, hfront, hprod, hnext⟩ : ∃ u, step s .consume = some u ∧ u.front = s.front ∧
        u.reqProdPvt = s.reqProdPvt ∧ u.reqCons = s.reqCons + 1 := by
      simp only [step, if_neg hcons, hslot]
      split <;> exact ⟨_, rfl, rfl, rfl, rfl⟩
    obtain ⟨v, hv, hgot⟩ := ih (inv_consume h hu) (hfront.trans hwait) (by omega)
    exact ⟨v, .head .consume hu hv, hgot⟩

/-- Every call gets the response to its own request as long as the ring has not been filled with
requests of `db_signoff`, which nobody takes out of it. -/
theorem calls_paired (s : State) (h : Reach step fewSignoffs Initial s) :
    s.front ≠ .aborted ∧ (∀ idx slot, s.front = .got idx slot → slot = .response idx) ∧
      ((∀ idx, s.front ≠ .waiting idx) → s.rspCons = s.rspProdPvt) ∧
      ∀ idx, s.front = .waiting idx →
        ∃ u, Leads step s u ∧ u.front = .got idx (.response idx) := by
  have hinv : Inv s := by
    apply h.invariant (fun _ => inv_initial)
    intro s a u hi hok hs
    exact inv_step hi hok hs
  refine ⟨hinv.alive, hinv.got, fun hquiet => ?_, fun idx hwait => leads_got hinv hwait⟩
  cases hinv.stage with
  | quiet _ _ prod => exact prod.symm
  | sent front => exact absurd front (hquiet _)
  | answered idx front => exact absurd front (hquiet idx)

def attached : State where
  ring _ := .empty
  reqProd := 0
  rspProd := 0
  rspEvent := 1
  reqProdPvt := 0
  rspCons := 0
  signedOff := false
  front := .idle
  reqCons := 0
  rspProdPvt := 0
  pending := false
  signoffs := 0

theorem attached_initial : Initial attached := ⟨rfl, rfl, rfl, rfl, rfl, rfl, rfl, rfl, rfl⟩

theorem calls_paired_after_signoff : ∃ s, Reach step fewSignoffs Initial s ∧
    s.front = .got 1 (.response 1) ∧ s.rspCons = s.rspProdPvt := by
  have h₀ : Reach step fewSignoffs Initial attached := .start attached_initial
  have h₁ := Reach.next (Label.call .signoff) h₀ (fun _ => by decide) rfl
  have h₂ := Reach.next (Label.call .readU64) h₁ (fun _ => by decide) rfl
  have h₃ := Reach.next Label.consume h₂ trivial rfl
  have h₄ := Reach.next Label.consume h₃ trivial rfl
  have h₅ := Reach.next Label.push h₄ trivial rfl
  have h₆ := Reach.next Label.receive h₅ trivial rfl
  exact ⟨_, h₆, rfl, (calls_paired _ h₆).2.2.1 (fun _ hwait => by cases hwait)⟩

/-- When `db_signoff` has been called eight times, the next call fails in `get_request`. -/
theorem ring_full_of_signoffs :
    ¬ ∀ s, Reach step anyStep Initial s → s.front ≠ .aborted := by
  intro hall
  have h₀ : Reach step anyStep Initial attached := .start attached_initial
  obtain ⟨s, hs, hfail⟩ := h₀.runTo (P := fun s => s.front = .aborted)
    (List.replicate 8 (.call .signoff) ++ [.consume, .call .readU64]) (by decide)
  exact hall s hs hfail

end Guk.DebugPairing
