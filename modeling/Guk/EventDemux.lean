import Mathlib.Data.List.Nodup
import Mathlib.Data.List.Range

/-!
# Demultiplexing events (`hypervisor.c`, `events.c`)

The shared page holds a pending and a mask bit for every port in words of 64
bits, and every virtual CPU a selector word that announces the words in which
something is pending. `do_hypervisor_callback` copies the selector and each
announced word to variables of 32 bits and computes port numbers as if the words
had 32 bits.

The handlers and further events are left out: only the callback itself, with
`do_event`, changes the shared words.
-/
namespace Guk.EventDemux

open Function List Option

structure State where
  pending : Nat → BitVec 64
  mask : Nat → BitVec 64
  sel : BitVec 64
  upcallCount : Nat
  events : List Nat

def ffs (word : BitVec 32) : Nat := ((List.range 32).find? word.getLsbD).getD 0

def testBit (words : Nat → BitVec 64) (nr : Nat) : Bool := (words (nr / 64)).getLsbD (nr % 64)

def setBit (words : Nat → BitVec 64) (nr : Nat) : Nat → BitVec 64 :=
  update words (nr / 64) (words (nr / 64) ||| BitVec.twoPow 64 (nr % 64))

def clearBit (words : Nat → BitVec 64) (nr : Nat) : Nat → BitVec 64 :=
  update words (nr / 64) (words (nr / 64) &&& ~~~ BitVec.twoPow 64 (nr % 64))

def activeEvtchns (s : State) (idx : Nat) : BitVec 64 := s.pending idx &&& ~~~ s.mask idx

def maskEvtchn (s : State) (port : Nat) : State := { s with mask := setBit s.mask port }

def clearEvtchn (s : State) (port : Nat) : State := { s with pending := clearBit s.pending port }

def unmaskEvtchn (s : State) (port : Nat) : State :=
  let s := { s with mask := clearBit s.mask port }
  if testBit s.pending port then { s with sel := s.sel ||| BitVec.twoPow 64 (port / 32) } else s

def doEvent (s : State) (port : Nat) : State :=
  let s := clearEvtchn (maskEvtchn s port) port
  unmaskEvtchn { s with events := s.events ++ [port] } port

def wordLoop (l1i : Nat) : Nat → State → Option State
  | 0, _ => none
  | fuel + 1, s =>
    let l2 := (activeEvtchns s l1i).setWidth 32
    if l2 = 0#32 then some s else wordLoop l1i fuel (doEvent s (l1i * 32 + ffs l2))

def selLoop (wordFuel : Nat) : Nat → BitVec 32 → State → Option State
  | 0, _, _ => none
  | fuel + 1, l1, s =>
    if l1 = 0#32 then some s
    else (wordLoop (ffs l1) wordFuel s).bind
      (selLoop wordFuel fuel (l1 &&& ~~~ BitVec.twoPow 32 (ffs l1)))

def doHypervisorCallback : Nat → State → Option State
  | 0, _ => none
  | fuel + 1, s =>
    -- nested invocations bail immediately
    if s.upcallCount ≠ 0 then some { s with upcallCount := s.upcallCount + 1 }
    else
      let l1 := s.sel.setWidth 32 -- xchg(&vcpu_info->evtchn_pending_sel, 0)
      (selLoop fuel fuel l1 { s with sel := 0#64, upcallCount := 1 }).bind fun s' =>
        if s'.upcallCount ≠ 1 then doHypervisorCallback fuel { s' with upcallCount := 0 }
        else some { s' with upcallCount := 0 }

def Deliverable (s : State) (port : Nat) : Prop :=
  testBit s.pending port = true ∧ testBit s.mask port = false ∧ s.sel.getLsbD (port / 64) = true

def Demuxed (s : State) : Prop :=
  ∃ fuel t, doHypervisorCallback fuel s = some t ∧
    ∃ ports, t.events = s.events ++ ports ∧ ports.Nodup ∧ ∀ port, port ∈ ports ↔ Deliverable s port

/-! ## Bits -/

variable {words : Nat → BitVec 64} {s t : State} {p q w i fuel wordFuel : Nat}
  {x l1 : BitVec 32}

theorem testBit_update (v : BitVec 64) : testBit (update words (p / 64) v) q =
    if q / 64 = p / 64 then v.getLsbD (q % 64) else testBit words q := by
  unfold testBit
  by_cases hw : q / 64 = p / 64
  · rw [if_pos hw, hw, update_self]
  · rw [if_neg hw, update_of_ne hw]

theorem testBit_setBit : testBit (setBit words p) q = (decide (q = p) || testBit words q) := by
  have hlt (k : Nat) : k % 64 < 64 := Nat.mod_lt k (by decide)
  have hport : q = p ↔ q / 64 = p / 64 ∧ p % 64 = q % 64 := by omega
  rw [setBit, testBit_update, BitVec.getLsbD_or, BitVec.getLsbD_twoPow]
  by_cases hw : q / 64 = p / 64
  · simp [hport, hw, testBit, hlt, Bool.or_comm]
  · simp [hport, hw]

theorem testBit_clearBit : testBit (clearBit words p) q = (decide (q ≠ p) && testBit words q) := by
  have hlt (k : Nat) : k % 64 < 64 := Nat.mod_lt k (by decide)
  have hport : q = p ↔ q / 64 = p / 64 ∧ p % 64 = q % 64 := by omega
  rw [clearBit, testBit_update, BitVec.getLsbD_and, BitVec.getLsbD_not, BitVec.getLsbD_twoPow]
  by_cases hw : q / 64 = p / 64
  · simp [hport, hw, testBit, hlt, Bool.and_comm]
  · simp [hport, hw]

def isActive (s : State) (port : Nat) : Bool := testBit s.pending port && !testBit s.mask port

theorem getLsbD_activeEvtchns (hi : i < 32) :
    ((activeEvtchns s w).setWidth 32).getLsbD i = isActive s (w * 64 + i) := by
  have hdiv : (w * 64 + i) / 64 = w := by omega
  have hmod : (w * 64 + i) % 64 = i := by omega
  have hi' : i < 64 := by omega
  simp [activeEvtchns, isActive, testBit, hdiv, hmod, hi, hi']

theorem doEvent_eq (s : State) (p : Nat) : doEvent s p =
    { s with
      pending := clearBit s.pending p
      mask := clearBit (setBit s.mask p) p
      events := s.events ++ [p] } := by
  have hcleared : testBit (clearBit s.pending p) p = false := by simp [testBit_clearBit]
  simp [doEvent, unmaskEvtchn, clearEvtchn, maskEvtchn, hcleared]

theorem isActive_doEvent : isActive (doEvent s p) q = (decide (q ≠ p) && isActive s q) := by
  rw [doEvent_eq, isActive, isActive, testBit_clearBit, testBit_clearBit, testBit_setBit]
  by_cases hqp : q = p <;> simp [hqp]

theorem ffs_spec (hx : x ≠ 0#32) :
    ffs x < 32 ∧ x.getLsbD (ffs x) = true ∧ ∀ j, j < ffs x → x.getLsbD j = false := by
  cases hf : (List.range 32).find? x.getLsbD with
  | none =>
    exfalso
    apply hx
    apply BitVec.eq_of_getLsbD_eq
    intro j hj
    have := List.find?_eq_none.mp hf j (List.mem_range.mpr hj)
    simpa using this
  | some j =>
    have hj : ffs x = j := by rw [ffs, hf, getD_some]
    obtain ⟨hbit, hlt, hmin⟩ := List.find?_range_eq_some.mp hf
    rw [hj]
    refine ⟨List.mem_range.mp hlt, hbit, fun k hk => ?_⟩
    simpa using hmin k hk

theorem wordLoop_succ : wordLoop w (fuel + 1) s =
    if (activeEvtchns s w).setWidth 32 = 0#32 then some s
    else wordLoop w fuel (doEvent s (w * 32 + ffs ((activeEvtchns s w).setWidth 32))) := rfl

/-! ## The words behind the first one -/

theorem wordLoop_later (hw : 1 ≤ w) (h : wordLoop w fuel s = some t) : t = s := by
  suffices hzero : (activeEvtchns s w).setWidth 32 = 0#32 by
    cases fuel with
    | zero => cases h
    | succ fuel =>
      rw [wordLoop_succ, if_pos hzero] at h
      exact (some.inj h).symm
  induction fuel generalizing s with
  | zero => cases h
  | succ fuel ih =>
    by_contra hne
    rw [wordLoop_succ, if_neg hne] at h
    obtain ⟨hlt, hbit, -⟩ := ffs_spec hne
    have hstill := ih h
    have hsame :
      ((activeEvtchns (doEvent s (w * 32 + ffs ((activeEvtchns s w).setWidth 32))) w).setWidth
        32).getLsbD (ffs ((activeEvtchns s w).setWidth 32)) = true := by
      rw [getLsbD_activeEvtchns hlt, isActive_doEvent, ← getLsbD_activeEvtchns hlt, hbit,
        Bool.and_true, decide_eq_true_eq]
      omega
    rw [hstill] at hsame
    simp at hsame

theorem wordLoop_idle (h : ∀ i, i < 32 → isActive s (w * 64 + i) = false) :
    wordLoop w (fuel + 1) s = some s := by
  have hzero : (activeEvtchns s w).setWidth 32 = 0#32 := by
    apply BitVec.eq_of_getLsbD_eq
    intro i hi
    rw [getLsbD_activeEvtchns hi, h i hi, BitVec.getLsbD_zero]
  rw [wordLoop_succ, if_pos hzero]

/-! ## The first word -/

structure Delivered (s t : State) (ports : List Nat) : Prop where
  events : t.events = s.events ++ ports
  sel : t.sel = s.sel
  upcallCount : t.upcallCount = s.upcallCount
  low : ∀ p ∈ ports, p < 32
  active : ∀ p, isActive t p = (decide (p ∉ ports) && isActive s p)

theorem Delivered.nil (s : State) : Delivered s s [] :=
  ⟨by simp, rfl, rfl, by simp, by simp⟩

theorem Delivered.cons {ports : List Nat} (hp : p < 32) (h : Delivered (doEvent s p) t ports) :
    Delivered s t (p :: ports) := by
  obtain ⟨hevents, hsel, hcount, hlow, hactive⟩ := h
  rw [doEvent_eq] at hevents hsel hcount
  refine ⟨?_, hsel, hcount, ?_, ?_⟩
  · rw [hevents, append_assoc, singleton_append]
  · intro q hq
    rcases List.mem_cons.mp hq with rfl | hq
    · exact hp
    · exact hlow q hq
  · intro q
    rw [hactive, isActive_doEvent]
    by_cases hqp : q = p <;> simp [hqp]

theorem Delivered.trans {u : State} {l m : List Nat} (h₁ : Delivered s t l) (h₂ : Delivered t u m) :
    Delivered s u (l ++ m) := by
  refine ⟨?_, h₂.sel.trans h₁.sel, h₂.upcallCount.trans h₁.upcallCount, ?_, ?_⟩
  · rw [h₂.events, h₁.events, append_assoc]
  · intro p hp
    rcases List.mem_append.mp hp with hp | hp
    · exact h₁.low p hp
    · exact h₂.low p hp
  · intro p
    rw [h₂.active, h₁.active]
    by_cases hl : p ∈ l <;> by_cases hm : p ∈ m <;> simp [hl, hm]

theorem ffs_low (hx : x ≠ 0#32) : 0 * 32 + ffs x < 32 := by
  have := (ffs_spec hx).1
  omega

theorem wordLoop_first (h : wordLoop 0 fuel s = some t) : ∃ ports, Delivered s t ports := by
  induction fuel generalizing s with
  | zero => cases h
  | succ fuel ih =>
    rw [wordLoop_succ] at h
    split at h
    · cases h
      exact ⟨[], .nil _⟩
    · rename_i hne
      obtain ⟨ports, hd⟩ := ih h
      exact ⟨_, hd.cons (ffs_low hne)⟩

theorem exists_wordLoop_first (hi : i ≤ 32) (hbelow : ∀ j, j < i → isActive s j = false)
    (hfuel : 32 < fuel + i) : ∃ t ports, wordLoop 0 fuel s = some t ∧ Delivered s t ports ∧
      ports.Nodup ∧ ∀ p, p ∈ ports ↔ p < 32 ∧ isActive s p = true := by
  induction fuel generalizing i s with
  | zero => omega
  | succ fuel ih =>
    rw [wordLoop_succ]
    by_cases hzero : (activeEvtchns s 0).setWidth 32 = 0#32
    · refine ⟨s, [], if_pos hzero, .nil s, nodup_nil, fun p => ?_⟩
      simp only [not_mem_nil, false_iff, not_and]
      intro hp hactive
      have hbit := getLsbD_activeEvtchns (s := s) (w := 0) hp
      rw [hzero, Nat.zero_mul, Nat.zero_add, hactive, BitVec.getLsbD_zero] at hbit
      cases hbit
    · rw [if_neg hzero]
      obtain ⟨hlt, hbit, hmin⟩ := ffs_spec hzero
      generalize hx : ffs ((activeEvtchns s 0).setWidth 32) = x at hlt hbit hmin
      rw [getLsbD_activeEvtchns hlt] at hbit
      rw [Nat.zero_mul, Nat.zero_add] at hbit ⊢
      have hix : i ≤ x := by
        by_contra hnot
        rw [hbelow x (by omega)] at hbit
        cases hbit
      have hbelow' : ∀ j, j < x + 1 → isActive (doEvent s x) j = false := by
        intro j hj
        rw [isActive_doEvent]
        by_cases hjx : j = x
        · simp [hjx]
        · have hj := hmin j (by omega)
          rw [getLsbD_activeEvtchns (by omega), Nat.zero_mul, Nat.zero_add] at hj
          simp [hj]
      obtain ⟨t, ports, ht, hd, hnodup, hports⟩ := ih (Nat.succ_le_of_lt hlt) hbelow' (by omega)
      refine ⟨t, x :: ports, ht, hd.cons hlt, ?_, ?_⟩
      · rw [nodup_cons, hports, isActive_doEvent]
        simp [hnodup]
      · intro p
        rw [mem_cons, hports, isActive_doEvent]
        by_cases hpx : p = x
        · simp [hpx, hlt, hbit]
        · simp [hpx]

/-! ## The selector -/

theorem getLsbD_clearLowest {j : Nat} (hj : j < 32) :
    (x &&& ~~~ BitVec.twoPow 32 (ffs x)).getLsbD j = (x.getLsbD j && decide (j ≠ ffs x)) := by
  rw [BitVec.getLsbD_and, BitVec.getLsbD_not, BitVec.getLsbD_twoPow]
  by_cases hne : ffs x = j
  · subst hne
    simp [hj]
  · simp [hj, hne, Ne.symm hne]

theorem selLoop_succ : selLoop wordFuel (fuel + 1) l1 s =
    if l1 = 0#32 then some s
    else (wordLoop (ffs l1) wordFuel s).bind
      (selLoop wordFuel fuel (l1 &&& ~~~ BitVec.twoPow 32 (ffs l1))) := rfl

theorem selLoop_delivered (h : selLoop wordFuel fuel l1 s = some t) :
    ∃ ports, Delivered s t ports := by
  induction fuel generalizing l1 s with
  | zero => cases h
  | succ fuel ih =>
    rw [selLoop_succ] at h
    split at h
    · cases h
      exact ⟨[], .nil _⟩
    · obtain ⟨u, hu, h⟩ := bind_eq_some_iff.mp h
      obtain ⟨ports, hports⟩ := ih h
      by_cases hw : ffs l1 = 0
      · rw [hw] at hu
        obtain ⟨first, hfirst⟩ := wordLoop_first hu
        exact ⟨_, hfirst.trans hports⟩
      · rw [wordLoop_later (Nat.pos_of_ne_zero hw) hu] at hports
        exact ⟨_, hports⟩

theorem selLoop_idle (hi : i ≤ 32)
    (hbelow : ∀ j, j < i → l1.getLsbD j = false)
    (hidle : ∀ w, l1.getLsbD w = true → ∀ k, k < 32 → isActive s (w * 64 + k) = false)
    (hfuel : 32 < fuel + i) : selLoop (wordFuel + 1) fuel l1 s = some s := by
  induction fuel generalizing i l1 with
  | zero => omega
  | succ fuel ih =>
    rw [selLoop_succ]
    split
    · rfl
    · rename_i hne
      obtain ⟨hlt, hbit, hmin⟩ := ffs_spec hne
      rw [wordLoop_idle (hidle _ hbit), bind_some]
      have hix : i ≤ ffs l1 := by
        by_contra hnot
        rw [hbelow _ (by omega)] at hbit
        cases hbit
      apply ih (i := ffs l1 + 1) (by omega)
      · intro j hj
        rw [getLsbD_clearLowest (by omega)]
        by_cases hje : j = ffs l1
        · simp [hje]
        · simp [hmin j (by omega)]
      · intro w hw
        rw [getLsbD_clearLowest (BitVec.lt_of_getLsbD hw), Bool.and_eq_true] at hw
        exact hidle w hw.1
      · omega

theorem lt_of_demuxed (hcount : s.upcallCount = 0) (h : Demuxed s) (hp : Deliverable s p) :
    p < 32 := by
  obtain ⟨fuel, t, ht, ports, hevents, -, hports⟩ := h
  cases fuel with
  | zero => cases ht
  | succ fuel =>
    simp only [doHypervisorCallback, hcount, ne_eq, not_true, if_false] at ht
    obtain ⟨u, hu, ht⟩ := bind_eq_some_iff.mp ht
    obtain ⟨delivered, hd⟩ := selLoop_delivered hu
    rw [hd.upcallCount, if_neg (by simp)] at ht
    cases ht
    have hsame := append_cancel_left (hevents.symm.trans hd.events)
    exact hd.low p (hsame ▸ (hports p).mpr hp)

theorem getLsbD_sel (hw : w < 32) : (s.sel.setWidth 32).getLsbD w = s.sel.getLsbD w := by
  simp [hw]

theorem isActive_later {k : Nat} (h : ∀ p, Deliverable s p → p < 32) (hw : 1 ≤ w)
    (hbit : (s.sel.setWidth 32).getLsbD w = true) (hk : k < 32) :
    isActive s (w * 64 + k) = false := by
  by_contra hactive
  rw [Bool.not_eq_false, isActive, Bool.and_eq_true, Bool.not_eq_true'] at hactive
  have hsel : s.sel.getLsbD ((w * 64 + k) / 64) = true := by
    rw [show (w * 64 + k) / 64 = w by omega, ← getLsbD_sel (BitVec.lt_of_getLsbD hbit)]
    exact hbit
  have hlt := h (w * 64 + k) ⟨hactive.1, hactive.2, hsel⟩
  omega

theorem deliverable_low_iff (hp : p < 32) :
    Deliverable s p ↔ isActive s p = true ∧ (s.sel.setWidth 32).getLsbD 0 = true := by
  rw [getLsbD_sel (by decide), Deliverable, isActive, Nat.div_eq_of_lt (show p < 64 by omega),
    Bool.and_eq_true, Bool.not_eq_true', and_assoc]

theorem exists_selLoop_first (h : ∀ p, Deliverable s p → p < 32)
    (hfirst : (s.sel.setWidth 32).getLsbD 0 = true) :
    ∃ t ports, selLoop 34 34 (s.sel.setWidth 32) { s with sel := 0#64, upcallCount := 1 } = some t ∧
      Delivered { s with sel := 0#64, upcallCount := 1 } t ports ∧ ports.Nodup ∧
      ∀ p, p ∈ ports ↔ p < 32 ∧ isActive s p = true := by
  have hne : s.sel.setWidth 32 ≠ 0#32 := by
    intro hzero
    rw [hzero, BitVec.getLsbD_zero] at hfirst
    cases hfirst
  have hffs : ffs (s.sel.setWidth 32) = 0 := by
    by_contra hpos
    rw [(ffs_spec hne).2.2 0 (Nat.pos_of_ne_zero hpos)] at hfirst
    cases hfirst
  obtain ⟨t, ports, ht, hd, hnodup, hports⟩ : ∃ t ports, wordLoop 0 34 _ = some t ∧ _ :=
    exists_wordLoop_first (s := { s with sel := 0#64, upcallCount := 1 }) (Nat.zero_le 32)
      (fun j hj => absurd hj (Nat.not_lt_zero j)) (by decide)
  refine ⟨t, ports, ?_, hd, hnodup, hports⟩
  rw [selLoop_succ, if_neg hne, hffs, ht, bind_some]
  apply selLoop_idle (i := 1) (by decide)
  · intro j hj
    rw [← hffs, getLsbD_clearLowest (by omega), hffs]
    simp [Nat.lt_one_iff.mp hj]
  · intro w hw k hk
    rw [← hffs, getLsbD_clearLowest (BitVec.lt_of_getLsbD hw), hffs, Bool.and_eq_true,
      decide_eq_true_eq] at hw
    have hidle := isActive_later h (Nat.pos_of_ne_zero hw.2) hw.1 hk
    rw [hd.active]
    exact Bool.and_eq_false_imp.mpr fun _ => hidle
  · decide

theorem exists_selLoop (h : ∀ p, Deliverable s p → p < 32) :
    ∃ t ports, selLoop 34 34 (s.sel.setWidth 32) { s with sel := 0#64, upcallCount := 1 } = some t ∧
      Delivered { s with sel := 0#64, upcallCount := 1 } t ports ∧ ports.Nodup ∧
      ∀ p, p ∈ ports ↔ Deliverable s p := by
  by_cases hfirst : (s.sel.setWidth 32).getLsbD 0 = true
  · obtain ⟨t, ports, ht, hd, hnodup, hports⟩ := exists_selLoop_first h hfirst
    refine ⟨t, ports, ht, hd, hnodup, fun p => ?_⟩
    rw [hports]
    constructor
    · rintro ⟨hlt, hactive⟩
      exact (deliverable_low_iff hlt).mpr ⟨hactive, hfirst⟩
    · intro hp
      exact ⟨h p hp, ((deliverable_low_iff (h p hp)).mp hp).1⟩
  · refine ⟨_, [], ?_, .nil _, nodup_nil, fun p => ?_⟩
    · apply selLoop_idle (i := 1) (by decide)
      · intro j hj
        rw [Nat.lt_one_iff.mp hj]
        exact Bool.eq_false_iff.mpr hfirst
      · intro w hw k hk
        apply isActive_later h _ hw hk
        by_contra hnot
        rw [show w = 0 by omega] at hw
        exact hfirst hw
      · decide
    · simp only [not_mem_nil, false_iff]
      intro hp
      exact hfirst ((deliverable_low_iff (h p hp)).mp hp).2

/-- The callback delivers exactly the deliverable ports if and only if all of them are below 32. -/
theorem demuxed_iff (s : State) (hcount : s.upcallCount = 0) :
    Demuxed s ↔ ∀ port, Deliverable s port → port < 32 := by
  constructor
  · intro h port hport
    exact lt_of_demuxed hcount h hport
  · intro h
    obtain ⟨t, ports, ht, hd, hnodup, hports⟩ := exists_selLoop h
    refine ⟨35, { t with upcallCount := 0 }, ?_, ports, hd.events, hnodup, hports⟩
    simp only [doHypervisorCallback, hcount, ne_eq, not_true, if_false, ht, bind_some,
      hd.upcallCount]

def lowPorts : State := ⟨fun w => if w = 0 then 40#64 else 0#64, fun _ => 0#64, 1#64, 0, []⟩

theorem lowPorts_demuxed : lowPorts.upcallCount = 0 ∧ Demuxed lowPorts := by
  refine ⟨rfl, (demuxed_iff lowPorts rfl).mpr ?_⟩
  intro port hport
  have hbits : ∀ i, i < 64 → (40#64).getLsbD i = true → i < 32 := by decide
  have hpending := hport.1
  simp only [testBit, lowPorts] at hpending
  split at hpending
  · have hlt := hbits (port % 64) (Nat.mod_lt _ (by decide)) hpending
    omega
  · simp at hpending

def portOfSecondWord : State := ⟨fun w => if w = 1 then 1#64 else 0#64, fun _ => 0#64, 2#64, 0, []⟩

theorem second_word_not_demuxed : ¬ Demuxed portOfSecondWord := by
  intro h
  have hlt : 64 < 32 := lt_of_demuxed rfl h ⟨rfl, rfl, rfl⟩
  exact absurd hlt (by decide)

end Guk.EventDemux
