import Guk.NetTx

/-!
# Receiving packets (`netfront.c`)

`network_rx` goes through the responses on its ring, round by round, until it finds no
new one, and then posts requests for new packets.

The backend produces responses while `network_rx` runs: what it reads from `rsp_prod`,
one read after the other, is a parameter, and so is what it finds in each response.
Indices keep their unwrapped value (`Guk.Ring`). Grant references and the contents of
packets are left out.
-/
namespace Guk.NetRx

open FsFreelist Guk.Ring
open NetTx (NetState)

structure Response where
  id : Nat
  offset : Nat
  flags : Nat
  status : Int
  deriving DecidableEq, Repr

def Response.extraInfo (rx : Response) : Bool := rx.flags.testBit 3

def NETIF_RSP_NULL : Int := 1

/-- The receive ring and its free list. `ended` are the buffers whose grant was ended, `delivered`
the calls of `guk_netif_rx` (buffer, offset and length), `posted` the ids of the requests that were
put on the ring. -/
structure Rx where
  rspCons : Nat
  reqProdPvt : Nat
  rxFreelist : Nat → Nat
  ended : List Nat
  delivered : List (Nat × Nat × Int)
  posted : List Nat

structure Receiving extends Rx where
  nrConsumed : Nat
  prods : Nat → Nat
  seen : Nat

def readProd (s : Receiving) : Nat × Receiving :=
  (s.prods 0, { s with prods := fun k => s.prods (k + 1), seen := s.prods 0 })

def handleResponse (s : Receiving) (rx : Response) : Receiving :=
  { s with
    ended := rx.id :: s.ended
    delivered := if 0 < rx.status then (rx.id, rx.offset, rx.status) :: s.delivered else s.delivered
    rxFreelist := addIdToFreelist s.rxFreelist rx.id
    nrConsumed := s.nrConsumed + 1 }

def finalCheck (s : Receiving) : Bool × Receiving :=
  let (prod, s) := readProd s
  if ¬ sameIdx prod s.rspCons then (true, s)
  else
    let (prod, s) := readProd s
    (¬ sameIdx prod s.rspCons, s)

section

variable (response : Nat → Response)

def consume (rp : Nat) : Nat → Nat → Receiving → Option Receiving
  | 0, _, _ => none
  | fuel + 1, cons, s =>
    if sameIdx cons rp then some s
    else
      let rx := response cons
      if rx.extraInfo then consume rp fuel cons s
      else if rx.status = NETIF_RSP_NULL then consume rp fuel cons s
      else consume rp fuel (cons + 1) (handleResponse s rx)

def moretodo : Nat → Receiving → Option Receiving
  | 0, _ => none
  | fuel + 1, s =>
    let (rp, s) := readProd s
    match consume response rp fuel s.rspCons { s with nrConsumed := 0 } with
    | none => none
    | some s =>
      let (more, s) := finalCheck { s with rspCons := rp }
      if more then moretodo fuel s else some s

def postRequests (n : Nat) (s : Receiving) : Receiving :=
  { s with
    posted := s.posted ++ (List.range s.nrConsumed).map fun i => (s.reqProdPvt + i) % n
    reqProdPvt := s.reqProdPvt + s.nrConsumed }

def networkRx (n : Nat) (state : NetState) (prods : Nat → Nat) (fuel : Nat) (s : Rx) :
    Option Receiving :=
  let s : Receiving := { s with nrConsumed := 0, prods, seen := s.rspCons }
  if state ≠ .ready then some s else (moretodo response fuel s).map (postRequests n)

def Returns (n : Nat) (state : NetState) (prods : Nat → Nat) (s : Rx) : Prop :=
  ∃ fuel t, networkRx response n state prods fuel s = some t ∧ sameIdx t.rspCons t.seen

end

structure Produces (lo hi : Nat) (prods : Nat → Nat) : Prop where
  mono : ∀ i j, i ≤ j → prods i ≤ prods j
  low : lo ≤ prods 0
  high : ∀ i, prods i ≤ hi

def Plain (rx : Response) : Prop := rx.extraInfo = false ∧ rx.status ≠ NETIF_RSP_NULL

instance (rx : Response) : Decidable (Plain rx) := inferInstanceAs (Decidable (_ ∧ _))

variable {response : Nat → Response} {s t : Receiving} {rp cons fuel lo hi i : Nat}
  {prods : Nat → Nat}

/-! ## One response -/

theorem consume_end (h : sameIdx cons rp) : consume response rp (fuel + 1) cons s = some s := by
  rw [consume, if_pos h]

theorem consume_plain (h : ¬ sameIdx cons rp) (hp : Plain (response cons)) :
    consume response rp (fuel + 1) cons s =
      consume response rp fuel (cons + 1) (handleResponse s (response cons)) := by
  rw [consume, if_neg h]
  simp only [hp.1, hp.2, Bool.false_eq_true, if_false]

theorem consume_not_plain (h : ¬ sameIdx cons rp) (hp : ¬ Plain (response cons)) :
    consume response rp (fuel + 1) cons s = consume response rp fuel cons s := by
  rw [consume, if_neg h]
  simp only
  split
  · rfl
  case isFalse hextra =>
    split
    · rfl
    case isFalse hstatus => exact absurd ⟨Bool.eq_false_iff.mpr hextra, hstatus⟩ hp

/-! ## Responses without the two branches -/

structure Same (s t : Receiving) : Prop where
  rspCons : t.rspCons = s.rspCons
  prods : t.prods = s.prods
  seen : t.seen = s.seen

theorem consume_returns (s : Receiving) (rp cons fuel : Nat)
    (hplain : ∀ i, cons ≤ i → i < rp → Plain (response i))
    (hle : cons ≤ rp) (hfuel : rp - cons < fuel) :
    ∃ t, consume response rp fuel cons s = some t ∧ Same s t := by
  induction fuel generalizing s cons with
  | zero => omega
  | succ fuel ih =>
    by_cases hsame : sameIdx cons rp
    · exact ⟨s, consume_end hsame, rfl, rfl, rfl⟩
    · have hne : cons ≠ rp := by
        rintro rfl
        exact hsame rfl
      rw [consume_plain hsame (hplain cons (le_refl cons) (by omega))]
      obtain ⟨t, ht, hsame'⟩ := ih (handleResponse s (response cons)) (cons + 1)
        (fun i hi hlt => hplain i (by omega) hlt) (by omega) (by omega)
      exact ⟨t, ht, hsame'.rspCons, hsame'.prods, hsame'.seen⟩

theorem Produces.tail (h : Produces lo hi prods) : Produces (prods 0) hi fun k => prods (k + 1) :=
  ⟨fun i j hij => h.mono (i + 1) (j + 1) (by omega), h.mono 0 1 (by omega), fun k => h.high (k + 1)⟩

theorem Produces.weaken (h : Produces lo hi prods) {lo' : Nat} (hle : lo' ≤ lo) :
    Produces lo' hi prods :=
  ⟨h.mono, le_trans hle h.low, h.high⟩

theorem finalCheck_spec (h : Produces s.rspCons hi s.prods) :
    (finalCheck s).2.rspCons = s.rspCons ∧
      ((finalCheck s).1 = false ∧ sameIdx s.rspCons (finalCheck s).2.seen ∨
        (finalCheck s).1 = true ∧ Produces (s.rspCons + 1) hi (finalCheck s).2.prods) := by
  have hgrown : ∀ {lo prods}, Produces lo hi prods → s.rspCons ≤ lo →
    ¬ sameIdx (prods 0) s.rspCons →
      Produces (s.rspCons + 1) hi fun k => prods (k + 1) := by
    intro lo prods hp hle hne
    apply hp.tail.weaken
    have hlow := hp.low
    have : prods 0 ≠ s.rspCons := by
      intro he
      rw [he] at hne
      exact hne rfl
    omega
  unfold finalCheck readProd
  simp only
  by_cases hfirst : sameIdx (s.prods 0) s.rspCons
  · rw [if_neg (not_not_intro hfirst)]
    by_cases hsecond : sameIdx (s.prods 1) s.rspCons
    · exact ⟨rfl, .inl ⟨by simpa using hsecond, hsecond.symm⟩⟩
    · exact ⟨rfl, .inr ⟨by simpa using hsecond, hgrown h.tail h.low hsecond⟩⟩
  · rw [if_pos hfirst]
    exact ⟨rfl, .inr ⟨rfl, hgrown h le_rfl hfirst⟩⟩

theorem moretodo_round (h : consume response (s.prods 0) fuel s.rspCons
      { (readProd s).2 with nrConsumed := 0 } = some t) :
    moretodo response (fuel + 1) s =
      if (finalCheck { t with rspCons := s.prods 0 }).1 then
        moretodo response fuel (finalCheck { t with rspCons := s.prods 0 }).2
      else some (finalCheck { t with rspCons := s.prods 0 }).2 := by
  rw [moretodo]
  simp only [readProd] at h ⊢
  simp only [h]
  rfl

theorem moretodo_none (h : consume response (s.prods 0) fuel s.rspCons
      { (readProd s).2 with nrConsumed := 0 } = none) : moretodo response (fuel + 1) s = none := by
  rw [moretodo]
  simp only [readProd] at h ⊢
  simp only [h]

theorem moretodo_returns (hprod : Produces s.rspCons hi s.prods)
    (hplain : ∀ i, s.rspCons ≤ i → i < hi → Plain (response i))
    (hfuel : hi - s.prods 0 + (hi - s.rspCons) + 2 ≤ fuel) :
    ∃ t, moretodo response fuel s = some t ∧ sameIdx t.rspCons t.seen := by
  induction fuel generalizing s with
  | zero => omega
  | succ fuel ih =>
    have hlow := hprod.low
    have hhigh := hprod.high 0
    obtain ⟨t, ht, hsame⟩ := consume_returns { (readProd s).2 with nrConsumed := 0 } (s.prods 0)
      s.rspCons fuel (fun i hi hlt => hplain i hi (by omega)) hprod.low (by omega)
    have htail : Produces (s.prods 0) hi t.prods := by
      rw [hsame.prods]
      exact hprod.tail
    have hcheck := finalCheck_spec (s := { t with rspCons := s.prods 0 }) htail
    rw [moretodo_round ht]
    obtain ⟨hcons, hcheck⟩ := hcheck
    rcases hcheck with ⟨hmore, hseen⟩ | ⟨hmore, hnext⟩
    · rw [if_neg (ne_true_of_eq_false hmore)]
      refine ⟨_, rfl, ?_⟩
      rw [hcons]
      exact hseen
    · rw [if_pos hmore]
      have hnext' := hnext.low
      apply ih
      · rw [hcons]
        exact hnext.weaken (Nat.le_succ _)
      · rw [hcons]
        exact fun i hi hlt => hplain i (le_trans hprod.low hi) hlt
      · rw [hcons]
        have := hnext.high 0
        simp only at hnext' ⊢
        omega

/-! ## A response that takes one of them -/

theorem consume_stuck (hp : ¬ Plain (response cons)) :
    consume response (cons + 1) fuel cons s = none := by
  have hne : ¬ sameIdx cons (cons + 1) := by
    unfold sameIdx idxMod
    omega
  induction fuel with
  | zero => rfl
  | succ fuel ih =>
    rw [consume_not_plain hne hp]
    exact ih

theorem consume_one (response : Nat → Response) (cons fuel : Nat) (s : Receiving) :
    consume response (cons + 1) fuel cons s = none ∨
      consume response (cons + 1) fuel cons s = some (handleResponse s (response cons)) := by
  by_cases hp : Plain (response cons)
  · have hne : ¬ sameIdx cons (cons + 1) := by
      unfold sameIdx idxMod
      omega
    match fuel with
    | 0 => exact .inl rfl
    | 1 =>
      rw [consume_plain hne hp]
      exact .inl rfl
    | fuel + 2 =>
      rw [consume_plain hne hp, consume_end rfl]
      exact .inr rfl
  · exact .inl (consume_stuck hp)

def twoThen (a b : Nat) (prods : Nat → Nat) : Nat → Nat
  | 0 => a
  | 1 => b
  | k + 2 => prods k

theorem produces_twoThen {a b : Nat} (h : Produces b hi prods) (hlo : lo ≤ a) (hab : a ≤ b) :
    Produces lo hi (twoThen a b prods) := by
  have hlow := h.low
  have hhigh := h.high 0
  refine ⟨?_, hlo, ?_⟩
  · intro i j hij
    match i, j with
    | 0, 0 => exact le_refl a
    | 0, 1 => exact hab
    | 0, j + 2 => exact le_trans hab (le_trans hlow (h.mono 0 j (Nat.zero_le j)))
    | 1, 1 => exact le_refl b
    | 1, j + 2 => exact le_trans hlow (h.mono 0 j (Nat.zero_le j))
    | i + 2, j + 2 => exact h.mono i j (by omega)
  · intro k
    match k with
    | 0 => exact le_trans hab (le_trans hlow hhigh)
    | 1 => exact le_trans hlow hhigh
    | k + 2 => exact h.high k

theorem moretodo_stuck (hi : ¬ Plain (response i)) (d cons : Nat) (hd : cons + d = i) :
    ∃ prods, Produces (cons + 1) (i + 1) prods ∧
      ∀ s : Receiving, s.rspCons = cons → s.prods = prods → ∀ fuel,
        moretodo response fuel s = none := by
  induction d generalizing cons with
  | zero =>
    obtain rfl : cons = i := hd
    refine ⟨fun _ => cons + 1, ⟨fun _ _ _ => le_rfl, le_rfl, fun _ => le_rfl⟩, ?_⟩
    intro s hcons hprods fuel
    cases fuel with
    | zero => rfl
    | succ fuel =>
      apply moretodo_none
      rw [hprods, hcons]
      exact consume_stuck hi
  | succ d ih =>
    obtain ⟨prods, hprod, hstuck⟩ := ih (cons + 1) (by omega)
    refine ⟨twoThen (cons + 1) (cons + 2) prods, produces_twoThen hprod le_rfl (by omega), ?_⟩
    intro s hcons hprods fuel
    cases fuel with
    | zero => rfl
    | succ fuel =>
      have hfirst : s.prods 0 = cons + 1 := by rw [hprods]; rfl
      rcases consume_one response cons fuel { (readProd s).2 with nrConsumed := 0 } with hnone |
        hsome
      · apply moretodo_none
        rw [hfirst, hcons]
        exact hnone
      · rw [← hfirst, ← hcons] at hsome
        rw [moretodo_round hsome]
        have hsecond : s.prods 1 = cons + 2 := by rw [hprods]; rfl
        have hnew : ¬ sameIdx (s.prods 1) (s.prods 0) := by
          rw [hfirst, hsecond]
          unfold sameIdx idxMod
          omega
        have hmore : finalCheck { handleResponse { (readProd s).2 with nrConsumed := 0 }
              (response s.rspCons) with rspCons := s.prods 0 } =
            (true, (readProd { handleResponse { (readProd s).2 with nrConsumed := 0 }
              (response s.rspCons) with rspCons := s.prods 0 }).2) := by
          unfold finalCheck
          exact if_pos hnew
        rw [hmore, if_pos rfl]
        apply hstuck
        · exact hfirst
        · change (fun k => s.prods (k + 2)) = prods
          rw [hprods]
          rfl

/-! ## `network_rx` -/

/-- It returns, whatever the pace of a backend that produces the responses up to `total`, if and
only if the device is not ready or none of them takes one of the two branches. -/
theorem network_rx_returns_iff (response : Nat → Response) (n : Nat) (state : NetState) (s : Rx)
    (total : Nat) :
    (∀ prods, Produces s.rspCons total prods → Returns response n state prods s) ↔
      state ≠ .ready ∨ ∀ i, s.rspCons ≤ i → i < total → Plain (response i) := by
  constructor
  · intro h
    by_cases hready : state = .ready
    · refine .inr ?_
      intro i hle hlt
      by_contra hi
      obtain ⟨prods, hprod, hstuck⟩ := moretodo_stuck hi (i - s.rspCons) s.rspCons (by omega)
      have hprod' : Produces s.rspCons total prods :=
        ⟨hprod.mono, Nat.le_of_succ_le hprod.low, fun k => le_trans (hprod.high k) hlt⟩
      obtain ⟨fuel, t, ht, -⟩ := h prods hprod'
      rw [networkRx, if_neg (not_not_intro hready), hstuck _ rfl rfl] at ht
      cases ht
    · exact .inl hready
  · intro h prods hprod
    by_cases hready : state = .ready
    · have hplain := h.resolve_left (not_not_intro hready)
      obtain ⟨t, ht, hsame⟩ := moretodo_returns
        (s := { s with nrConsumed := 0, prods, seen := s.rspCons }) hprod hplain le_rfl
      refine ⟨total - prods 0 + (total - s.rspCons) + 2, postRequests n t, ?_, hsame⟩
      rw [networkRx, if_neg (not_not_intro hready)]
      exact Option.map_eq_some_iff.mpr ⟨t, ht, rfl⟩
    · exact ⟨0, _, if_pos hready, rfl⟩

def emptyRx : Rx := ⟨0, 0, fun _ => 0, [], [], []⟩

def allAtOnce (total : Nat) (_ : Nat) : Nat := total

theorem network_rx_not_returning :
    Produces emptyRx.rspCons 1 (allAtOnce 1) ∧
      ¬ Returns (fun _ => ⟨0, 0, 0, NETIF_RSP_NULL⟩) 256 .ready (allAtOnce 1) emptyRx := by
  refine ⟨⟨fun _ _ _ => le_refl 1, Nat.zero_le 1, fun _ => le_refl 1⟩, ?_⟩
  rintro ⟨fuel, t, ht, -⟩
  have hstuck : moretodo (fun _ => ⟨0, 0, 0, NETIF_RSP_NULL⟩) fuel
      ⟨emptyRx, 0, allAtOnce 1, emptyRx.rspCons⟩ = none := by
    cases fuel with
    | zero => rfl
    | succ fuel => exact moretodo_none (consume_stuck (by decide))
  rw [networkRx, if_neg (not_not_intro rfl), hstuck] at ht
  cases ht

end Guk.NetRx
