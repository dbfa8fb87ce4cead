import Guk.Runs
import Guk.XenbusRing

/-!
# Writers of the request ring (`xb_write`)

Any number of threads write messages into the request ring while xenstored
advances `req_cons`. A section of `xb_write` under `xb_lock` is one step; so is
the moment at which the condition of its `wait_event`, tested without the lock,
is found true.
-/
namespace Guk.XenbusWrite

open Guk.Ring Runs XenbusRing Function List

/-! ## The copy loop -/

structure Copy where
  ring : Nat → UInt8
  prod : Nat
  todo : List (List UInt8)

def copyRound (size : Nat) (c : Copy) : Copy :=
  match c.todo with
  | [] => c
  | data :: rest =>
    let thisChunk := min data.length (size - c.prod % size)
    { ring := memcpyToRing c.ring (c.prod % size) (data.take thisChunk)
      prod := c.prod + thisChunk
      todo := if thisChunk = data.length then rest else data.drop thisChunk :: rest }

def copyLoop (size : Nat) : Nat → Copy → Copy
  | 0, c => c
  | fuel + 1, c => if c.todo.flatten = [] then c else copyLoop size fuel (copyRound size c)

def rounds (todo : List (List UInt8)) : Nat := todo.flatten.length + todo.length

variable {size lo : Nat} {l : List UInt8} {c : Copy}

theorem rounds_copyRound (hsize : 0 < size) (h : c.todo.flatten ≠ []) :
    rounds (copyRound size c).todo < rounds c.todo := by
  cases htodo : c.todo with
  | nil =>
    rw [htodo] at h
    exact absurd rfl h
  | cons data rest =>
    have hoff : c.prod % size < size := Nat.mod_lt _ hsize
    simp only [copyRound, htodo, rounds, flatten_cons, length_append, length_cons]
    split
    · omega
    · simp only [flatten_cons, length_append, length_cons, length_drop]
      omega

theorem copyRound_spec (h : Segment c.ring size lo l) (hprod : c.prod = lo + l.length)
    (hroom : l.length + c.todo.flatten.length ≤ size) (hsize : 0 < size) :
    ∃ piece, Segment (copyRound size c).ring size lo (l ++ piece) ∧
      (copyRound size c).prod = lo + (l ++ piece).length ∧
      c.todo.flatten = piece ++ (copyRound size c).todo.flatten := by
  cases htodo : c.todo with
  | nil => exact ⟨[], by simpa [copyRound, htodo] using ⟨h, hprod⟩⟩
  | cons data rest =>
    have hoff : c.prod % size < size := Nat.mod_lt _ hsize
    rw [htodo, flatten_cons, length_append] at hroom
    refine ⟨data.take (min data.length (size - c.prod % size)), ?_, ?_, ?_⟩
    · simp only [copyRound, htodo]
      rw [hprod] at hoff ⊢
      apply segment_memcpyToRing h
      · rw [length_take]
        omega
      · rw [length_take]
        omega
    · simp only [copyRound, htodo, length_append, length_take]
      omega
    · simp only [copyRound, htodo]
      split
      · rename_i hall
        rw [hall, take_length, flatten_cons]
      · rw [flatten_cons, flatten_cons, ← append_assoc, take_append_drop]

theorem copyLoop_spec {fuel : Nat} (hsize : 0 < size) (h : Segment c.ring size lo l)
    (hprod : c.prod = lo + l.length) (hroom : l.length + c.todo.flatten.length ≤ size)
    (hfuel : rounds c.todo ≤ fuel) :
    Segment (copyLoop size fuel c).ring size lo (l ++ c.todo.flatten) := by
  induction fuel generalizing c l with
  | zero =>
    have hnil : c.todo.flatten = [] := eq_nil_of_length_eq_zero (by unfold rounds at hfuel; omega)
    rw [hnil, append_nil]
    exact h
  | succ fuel ih =>
    unfold copyLoop
    split
    · rename_i hnil
      rw [hnil, append_nil]
      exact h
    · rename_i hne
      obtain ⟨piece, hseg, hprod', hflat⟩ := copyRound_spec h hprod hroom hsize
      have hless := rounds_copyRound hsize hne
      rw [hflat, ← append_assoc]
      apply ih hseg hprod' _ (by omega)
      rw [length_append]
      rw [hflat, length_append] at hroom
      omega

/-! ## The system -/

inductive Pc where
  | idle
  /-- in `wait_event` -/
  | waiting (msg : List (List UInt8))
  /-- at `spin_lock_irqsave` behind it -/
  | relock (msg : List (List UInt8))
  deriving DecidableEq, Repr

/-- `unread` are the bytes of the messages sent that xenstored has not consumed. A `BUG_ON` that
fires after the copy leaves the ring as it is and stops the system. -/
structure State where
  ring : Nat → UInt8
  reqProd : Nat
  reqCons : Nat
  pc : Nat → Pc
  stopped : Bool
  unread : List UInt8

inductive Label where
  | write (t : Nat) (type reqId txId : UInt32) (reqs : List (List UInt8))
  | space (t : Nat)
  | relock (t : Nat)
  | consume (n : Nat)

def message (type reqId txId : UInt32) (reqs : List (List UInt8)) : List (List UInt8) :=
  Sockmsg.bytes ⟨type, reqId, txId, UInt32.ofNat reqs.flatten.length⟩ :: reqs

def setPc (s : State) (t : Nat) (pc : Pc) : State := { s with pc := update s.pc t pc }

section

variable (r : RingSize)

def HasSpace (s : State) (len : Nat) : Prop := subIdx (s.reqProd + len) s.reqCons ≤ r.size

instance (s : State) (len : Nat) : Decidable (HasSpace r s len) :=
  inferInstanceAs (Decidable (_ ≤ _))

def send (s : State) (t : Nat) (msg : List (List UInt8)) : State :=
  let c := copyLoop r.size (rounds msg) ⟨s.ring, s.reqProd, msg⟩
  -- BUG_ON(prod > xenstore_buf->req_cons + XENSTORE_RING_SIZE)
  if c.prod % idxMod > (s.reqCons + r.size) % idxMod then { s with ring := c.ring, stopped := true }
  else setPc { s with
    ring := c.ring
    reqProd := s.reqProd + msg.flatten.length
    unread := s.unread ++ msg.flatten } t .idle

def step (s : State) (l : Label) : Option State :=
  if s.stopped then none
  else match l with
  | .write t type reqId txId reqs =>
    let msg := message type reqId txId reqs
    if s.pc t ≠ .idle ∨ msg.flatten.length > r.size then none
    else if HasSpace r s msg.flatten.length then some (send r s t msg)
    else some (setPc s t (.waiting msg))
  | .space t =>
    match s.pc t with
    | .waiting msg => if HasSpace r s msg.flatten.length then some (setPc s t (.relock msg))
        else none
    | _ => none
  | .relock t =>
    match s.pc t with
    | .relock msg => some (send r s t msg)
    | _ => none
  | .consume n =>
    if n ≤ subIdx s.reqProd s.reqCons then
      some { s with reqCons := s.reqCons + n, unread := s.unread.drop n }
    else none

structure Initial (s : State) : Prop where
  prod : s.reqProd = s.reqCons + s.unread.length
  bound : s.unread.length ≤ r.size
  bytes : Segment s.ring r.size s.reqCons s.unread
  pc : ∀ t, s.pc t = .idle
  stopped : s.stopped = false

def NoOverrun (s : State) : Prop :=
  subIdx s.reqProd s.reqCons ≤ r.size ∧ Segment s.ring r.size s.reqCons s.unread

def spaceKeptStep (s : State) : Label → Prop
  | .relock t => ∀ msg, s.pc t = .relock msg → HasSpace r s msg.flatten.length
  | _ => True

instance (s : State) : (a : Label) → Decidable (spaceKeptStep r s a)
  | .relock t =>
    match hpc : s.pc t with
    | .relock msg =>
      decidable_of_iff (HasSpace r s msg.flatten.length) (by simp [spaceKeptStep, hpc])
    | .idle | .waiting _ => isTrue (by simp [spaceKeptStep, hpc])
  | .write .. | .space _ | .consume _ => isTrue trivial

def Fits (pc : Nat → Pc) : Prop :=
  ∀ t msg, pc t = .waiting msg ∨ pc t = .relock msg → msg.flatten.length ≤ r.size

structure Inv (s : State) : Prop where
  prod : s.reqProd = s.reqCons + s.unread.length
  bound : s.unread.length ≤ r.size
  bytes : Segment s.ring r.size s.reqCons s.unread
  fits : Fits r s.pc

end

variable {r : RingSize} {s u : State} {t : Nat} {msg : List (List UInt8)}

theorem inv_initial (h : Initial r s) : Inv r s := by
  refine { h with fits := ?_ }
  intro t msg hpc
  rw [h.pc t] at hpc
  rcases hpc with hpc | hpc <;> cases hpc

theorem noOverrun_of_inv (h : Inv r s) : NoOverrun r s := by
  have hlt := r.size_lt
  have hbound := h.bound
  refine ⟨?_, h.bytes⟩
  rw [subIdx_eq (by rw [h.prod]; omega) (by rw [h.prod]; omega), h.prod]
  omega

theorem room_of_hasSpace {len : Nat} (h : Inv r s) (hlen : len ≤ r.size)
    (hspace : HasSpace r s len) :
    s.unread.length + len ≤ r.size := by
  have hlt : r.size ≤ 2 ^ 30 := Nat.pow_le_pow_right (by decide) r.le
  have hbound := h.bound
  have hsub : subIdx (s.reqProd + len) s.reqCons = s.unread.length + len := by
    rw [h.prod, subIdx_eq (by omega) (by unfold idxMod; omega)]
    omega
  rw [HasSpace, hsub] at hspace
  exact hspace

theorem fits_update {pc : Nat → Pc} {x : Pc} (h : Fits r pc)
    (hx : ∀ msg, x = .waiting msg ∨ x = .relock msg → msg.flatten.length ≤ r.size) :
    Fits r (update pc t x) := by
  intro v msg hv
  rw [update_apply] at hv
  split at hv
  · exact hx msg hv
  · exact h v msg hv

theorem inv_send (h : Inv r s) (hroom : s.unread.length + msg.flatten.length ≤ r.size) :
    Inv r (send r s t msg) := by
  have hseg : Segment (copyLoop r.size (rounds msg) ⟨s.ring, s.reqProd, msg⟩).ring r.size s.reqCons
      (s.unread ++ msg.flatten) :=
    copyLoop_spec r.size_pos h.bytes h.prod hroom le_rfl
  unfold send
  simp only
  split
  · exact { h with bytes := (segment_append.mp hseg).1 }
  · refine ⟨?_, ?_, hseg, fits_update h.fits ?_⟩
    · change s.reqProd + msg.flatten.length = s.reqCons + (s.unread ++ msg.flatten).length
      rw [h.prod, length_append, Nat.add_assoc]
    · change (s.unread ++ msg.flatten).length ≤ r.size
      rw [length_append]
      exact hroom
    · simp

theorem inv_consume {n : Nat} (h : Inv r s) (hn : n ≤ subIdx s.reqProd s.reqCons) :
    Inv r { s with reqCons := s.reqCons + n, unread := s.unread.drop n } := by
  have hlt := r.size_lt
  have hbound := h.bound
  have hle : n ≤ s.unread.length := by
    rw [h.prod, subIdx_eq (by omega) (by omega)] at hn
    omega
  have hbytes := h.bytes
  rw [← take_append_drop n s.unread, segment_append, length_take_of_le hle] at hbytes
  refine ⟨?_, ?_, hbytes.2, h.fits⟩
  · change s.reqProd = s.reqCons + n + (s.unread.drop n).length
    rw [h.prod, length_drop]
    omega
  · change (s.unread.drop n).length ≤ r.size
    rw [length_drop]
    omega

theorem inv_step {a : Label} (h : Inv r s) (hok : spaceKeptStep r s a) (hs : step r s a = some u) :
    Inv r u := by
  obtain ⟨-, hs⟩ := Option.ite_none_left_eq_some.mp hs
  cases a with
  | write t type reqId txId reqs =>
    obtain ⟨hnot, hs⟩ := Option.ite_none_left_eq_some.mp hs
    rw [not_or, Nat.not_lt] at hnot
    split at hs <;> cases hs
    · exact inv_send h (room_of_hasSpace h hnot.2 ‹_›)
    · refine { h with fits := fits_update h.fits ?_ }
      rintro msg (hm | hm) <;> cases hm
      exact hnot.2
  | space t =>
    cases hpc : s.pc t with
    | waiting msg =>
      simp only [hpc] at hs
      obtain ⟨-, rfl⟩ := of_when hs
      refine { h with fits := fits_update h.fits ?_ }
      rintro msg' (hm | hm) <;> cases hm
      exact h.fits t msg (.inl hpc)
    | _ =>
      simp only [hpc] at hs
      cases hs
  | relock t =>
    cases hpc : s.pc t with
    | relock msg =>
      simp only [hpc] at hs
      cases hs
      exact inv_send h (room_of_hasSpace h (h.fits t msg (.inr hpc)) (hok msg hpc))
    | _ =>
      simp only [hpc] at hs
      cases hs
  | consume n =>
    obtain ⟨hn, rfl⟩ := of_when hs
    exact inv_consume h hn

/-- The writers do not overrun the ring in the runs in which every writer that had to wait for space
still finds it when it has taken the lock again. -/
theorem no_overrun (r : RingSize) (s : State) (h : Reach (step r) (spaceKeptStep r) (Initial r) s) :
    NoOverrun r s := by
  apply noOverrun_of_inv
  apply h.invariant (fun _ => inv_initial)
  intro s a u hi hok hs
  exact inv_step hi hok hs

/-! ## Two writers that wait -/

def emptyRing : State := ⟨fun _ => 0, 0, 0, fun _ => .idle, false, []⟩

theorem emptyRing_initial : Initial ring1024 emptyRing :=
  ⟨rfl, by decide, trivial, fun _ => rfl, rfl⟩

def waitForSpace : List Label :=
  [.write 0 2 0 0 [List.replicate 984 65], .write 1 2 1 0 [List.replicate 84 66],
    .write 2 2 2 0 [List.replicate 84 67], .consume 100, .space 1, .space 2]

theorem no_overrun_after_wait : ∃ s, s.reqProd = 1200 ∧ s.reqCons = 176 ∧ NoOverrun ring1024 s := by
  have h₀ : Reach (step ring1024) (spaceKeptStep ring1024) (Initial ring1024) emptyRing :=
    .start emptyRing_initial
  obtain ⟨s, hs, hprod, hcons⟩ := h₀.runGuardedTo (P := fun s => s.reqProd = 1200 ∧ s.reqCons = 176)
    (waitForSpace ++ [.relock 1, .consume 76, .relock 2]) (by decide +kernel)
  exact ⟨s, hprod, hcons, no_overrun ring1024 s hs⟩

/-- The second of the two writers overwrites bytes that xenstored has not read; `BUG_ON` fires when
it is too late. -/
theorem ring_overrun :
    ¬ ∀ s, Reach (step ring1024) anyStep (Initial ring1024) s → NoOverrun ring1024 s := by
  intro hall
  have h₀ : Reach (step ring1024) anyStep (Initial ring1024) emptyRing := .start emptyRing_initial
  obtain ⟨s, hs, hcons, hring, hunread⟩ := h₀.runTo
    (P := fun s => s.reqCons = 100 ∧ s.ring 120 = 67 ∧ s.unread[20]? = some 65)
    (waitForSpace ++ [.relock 1, .relock 2]) (by decide +kernel)
  obtain ⟨hlt, hget⟩ := List.getElem?_eq_some_iff.mp hunread
  have hsame := segment_iff.mp (hall s hs).2 20 hlt
  rw [hcons, hget] at hsame
  change s.ring 120 = 65 at hsame
  rw [hring] at hsame
  exact absurd hsame (by decide)

end Guk.XenbusWrite
