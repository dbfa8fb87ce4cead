import Guk.XenbusWrite

/-!
# The bytes of a message in the request ring (`xb_write`)

The copy loop of `xb_write` with the variables of the source: a 32-bit producer
index, a pointer into the parts of the message and two offsets. It represents
the loop over blocks of `Guk.XenbusWrite`, from which the layout follows.
-/
namespace Guk.XenbusLayout

open Guk.Ring XenbusRing XenbusWrite List Option

structure Page where
  req : Nat → UInt8
  reqProd : UInt32
  reqCons : UInt32

structure Loop where
  ring : Nat → UInt8
  prod : UInt32
  curReq : Option Nat
  reqOff : Nat
  totalOff : Nat

def maskXenstoreIdx (r : RingSize) (idx : UInt32) : Nat := idx.toNat &&& (r.size - 1)

theorem maskXenstoreIdx_eq (r : RingSize) (idx : UInt32) :
    maskXenstoreIdx r idx = idx.toNat % r.size :=
  Nat.and_two_pow_sub_one_eq_mod _ _

def deref (header : List UInt8) (reqs : List (List UInt8)) : Option Nat → Option (List UInt8)
  | none => some header
  | some i => reqs[i]?

def advance : Option Nat → Option Nat
  | none => some 0
  | some i => some (i + 1)

def thisChunk (r : RingSize) (cur : List UInt8) (v : Loop) : Nat :=
  min (cur.length - v.reqOff) (r.size - maskXenstoreIdx r v.prod)

def copyChunk (r : RingSize) (cur : List UInt8) (v : Loop) : Loop :=
  let chunk := thisChunk r cur v
  let whole := v.reqOff + chunk = cur.length
  { ring := memcpyToRing v.ring (maskXenstoreIdx r v.prod) ((cur.drop v.reqOff).take chunk)
    prod := v.prod + UInt32.ofNat chunk
    curReq := if whole then advance v.curReq else v.curReq
    reqOff := if whole then 0 else v.reqOff + chunk
    totalOff := v.totalOff + chunk }

def loopBody (r : RingSize) (header : List UInt8) (reqs : List (List UInt8)) (v : Loop) :
    Option Loop :=
  (deref header reqs v.curReq).map fun cur => copyChunk r cur v

def loop (r : RingSize) (header : List UInt8) (reqs : List (List UInt8)) (len : Nat) :
    Nat → Loop → Option Loop
  | 0, v => if v.totalOff < len then none else some v
  | fuel + 1, v =>
    if v.totalOff < len then (loopBody r header reqs v).bind (loop r header reqs len fuel) else some
      v

def sockmsg (type reqId txId : UInt32) (reqs : List (List UInt8)) : Sockmsg :=
  ⟨type, reqId, txId, UInt32.ofNat reqs.flatten.length⟩

def messageLen (reqs : List (List UInt8)) : Nat := reqs.flatten.length + sizeofMsg

def copyMessage (r : RingSize) (p : Page) (m : Sockmsg) (reqs : List (List UInt8)) : Option Loop :=
  loop r m.bytes reqs (messageLen reqs) (rounds (m.bytes :: reqs)) ⟨p.req, p.reqProd, none, 0, 0⟩

/-! ## The blocks that are left -/

section

variable (header : List UInt8) (reqs : List (List UInt8))

def parts : Option Nat → List (List UInt8)
  | none => header :: reqs
  | some i => reqs.drop i

def todo (v : Loop) : List (List UInt8) :=
  match parts header reqs v.curReq with
  | [] => []
  | cur :: rest => cur.drop v.reqOff :: rest

structure Represents (v : Loop) (c : Copy) : Prop where
  ring : c.ring = v.ring
  prod : c.prod % idxMod = v.prod.toNat
  todo : c.todo = todo header reqs v
  off : v.reqOff = 0 ∨ ∃ cur, deref header reqs v.curReq = some cur ∧ v.reqOff < cur.length

end

variable {r : RingSize} {header cur : List UInt8} {reqs : List (List UInt8)} {v : Loop} {c : Copy}
  {fuel len i size : Nat}

theorem parts_of_deref {p : Option Nat} (h : deref header reqs p = some cur) :
    parts header reqs p = cur :: parts header reqs (advance p) := by
  cases p with
  | none =>
    cases h
    rfl
  | some i =>
    obtain ⟨hi, hget⟩ := List.getElem?_eq_some_iff.mp h
    rw [parts, drop_eq_getElem_cons hi, hget]
    rfl

theorem todo_of_deref (h : deref header reqs v.curReq = some cur) :
    todo header reqs v = cur.drop v.reqOff :: parts header reqs (advance v.curReq) := by
  rw [todo, parts_of_deref h]

theorem deref_of_todo (h : todo header reqs v ≠ []) :
    ∃ cur, deref header reqs v.curReq = some cur := by
  cases hcur : v.curReq with
  | none => exact ⟨header, rfl⟩
  | some i =>
    by_cases hi : i < reqs.length
    · exact ⟨reqs[i], List.getElem?_eq_getElem hi⟩
    · rw [todo, hcur, parts, drop_eq_nil_of_le (by omega)] at h
      exact absurd rfl h

theorem todo_of_off_zero (h : v.reqOff = 0) : todo header reqs v = parts header reqs v.curReq := by
  rw [todo, h]
  split
  · rw [‹parts header reqs v.curReq = []›]
  · rw [‹parts header reqs v.curReq = _ :: _›, drop_zero]

theorem mask_of_prod {n : Nat} {idx : UInt32} (h : n % idxMod = idx.toNat) :
    maskXenstoreIdx r idx = n % r.size := by
  have hdvd : r.size ∣ idxMod := Nat.pow_dvd_pow 2 (le_trans r.le (by decide))
  rw [maskXenstoreIdx_eq, ← h, Nat.mod_mod_of_dvd _ hdvd]

theorem toNat_add_ofNat (idx : UInt32) (n : Nat) :
    (idx + UInt32.ofNat n).toNat = (idx.toNat + n) % idxMod := by
  rw [UInt32.toNat_add, UInt32.toNat_ofNat', Nat.add_mod_mod]
  rfl

section

variable (h : Represents header reqs v c)

include h

theorem Represents.off_le
    (hcur : deref header reqs v.curReq = some cur) : v.reqOff ≤ cur.length := by
  rcases h.off with hzero | ⟨cur', hcur', hlt⟩
  · omega
  · rw [hcur, some.injEq] at hcur'
    subst hcur'
    exact le_of_lt hlt

theorem represents_loopBody (hleft : c.todo ≠ []) :
    ∃ v', loopBody r header reqs v = some v' ∧ Represents header reqs v' (copyRound r.size c) ∧
      v'.totalOff + (copyRound r.size c).todo.flatten.length =
        v.totalOff + c.todo.flatten.length := by
  rw [h.todo] at hleft
  obtain ⟨cur, hcur⟩ := deref_of_todo hleft
  have htodo : c.todo = cur.drop v.reqOff :: parts header reqs (advance v.curReq) := by
    rw [h.todo, todo_of_deref hcur]
  have hoff := h.off_le hcur
  have hmask : maskXenstoreIdx r v.prod = c.prod % r.size := mask_of_prod h.prod
  have hchunk : min (cur.drop v.reqOff).length (r.size - c.prod % r.size) = thisChunk r cur v := by
    rw [thisChunk, hmask, length_drop]
  have hle : thisChunk r cur v ≤ cur.length - v.reqOff := Nat.min_le_left _ _
  refine ⟨copyChunk r cur v, by rw [loopBody, hcur, map_some], ?_, ?_⟩
  · simp only [copyRound, htodo, hchunk]
    refine ⟨by rw [copyChunk, h.ring, hmask], ?_, ?_, ?_⟩
    · change (c.prod + thisChunk r cur v) % idxMod =
        (v.prod + UInt32.ofNat (thisChunk r cur v)).toNat
      rw [toNat_add_ofNat, ← h.prod, Nat.mod_add_mod]
    · -- the part is finished exactly when nothing of its block is left
      by_cases hwhole : v.reqOff + thisChunk r cur v = cur.length
      · have hzero : (copyChunk r cur v).reqOff = 0 := if_pos hwhole
        have hnext : (copyChunk r cur v).curReq = advance v.curReq := if_pos hwhole
        rw [if_pos (by rw [length_drop]; omega), todo_of_off_zero hzero, hnext]
      · have hsame : (copyChunk r cur v).reqOff = v.reqOff + thisChunk r cur v := if_neg hwhole
        have hcur' : (copyChunk r cur v).curReq = v.curReq := if_neg hwhole
        rw [if_neg (by rw [length_drop]; omega), todo, hcur', parts_of_deref hcur, hsame,
          drop_drop]
    · by_cases hwhole : v.reqOff + thisChunk r cur v = cur.length
      · exact .inl (if_pos hwhole)
      · have hsame : (copyChunk r cur v).reqOff = v.reqOff + thisChunk r cur v := if_neg hwhole
        have hcur' : (copyChunk r cur v).curReq = v.curReq := if_neg hwhole
        rw [hsame, hcur']
        exact .inr ⟨cur, hcur, by omega⟩
  · simp only [copyRound, htodo, hchunk, copyChunk]
    split
    · rename_i hwhole
      rw [flatten_cons, length_append, ← hwhole, Nat.add_assoc]
    · rw [flatten_cons, length_append, flatten_cons, length_append, length_drop,
        length_drop]
      omega

theorem Represents.reqOff_eq_zero (hnil : c.todo.flatten = []) : v.reqOff = 0 := by
  rcases h.off with hzero | ⟨cur, hcur, hlt⟩
  · exact hzero
  · rw [h.todo, todo_of_deref hcur, flatten_cons, append_eq_nil_iff, drop_eq_nil_iff] at hnil
    omega

theorem represents_loop
    (hlen : v.totalOff + c.todo.flatten.length = len) (hfuel : rounds c.todo ≤ fuel) :
    ∃ v', loop r header reqs len fuel v = some v' ∧
      Represents header reqs v' (copyLoop r.size fuel c) ∧ v'.reqOff = 0 ∧ v'.totalOff = len := by
  induction fuel generalizing v c with
  | zero =>
    have hnil : c.todo.flatten = [] := eq_nil_of_length_eq_zero (by unfold rounds at hfuel; omega)
    rw [hnil, length_nil] at hlen
    exact ⟨v, if_neg (by omega), h, h.reqOff_eq_zero hnil, hlen⟩
  | succ fuel ih =>
    by_cases hnil : c.todo.flatten = []
    · have hsame : copyLoop r.size (fuel + 1) c = c := if_pos hnil
      rw [hsame]
      rw [hnil, length_nil] at hlen
      exact ⟨v, if_neg (by omega), h, h.reqOff_eq_zero hnil, hlen⟩
    · have hleft : c.todo ≠ [] := by
        intro hempty
        rw [hempty] at hnil
        exact hnil rfl
      obtain ⟨v₁, hbody, hrep, htotal⟩ := represents_loopBody (r := r) h hleft
      have hless := rounds_copyRound r.size_pos hnil
      obtain ⟨v', hloop, hrep', hzero, hdone⟩ := ih hrep (htotal.trans hlen) (by omega)
      have hround : copyLoop r.size (fuel + 1) c = copyLoop r.size fuel (copyRound r.size c) :=
        if_neg hnil
      have hpos := length_pos_of_ne_nil hnil
      rw [hround]
      refine ⟨v', ?_, hrep', hzero, hdone⟩
      rw [loop, if_pos (by omega), hbody, bind_some, hloop]

end

theorem prod_loop {v' : Loop} (h : loop r header reqs len fuel v = some v') :
    v'.prod + UInt32.ofNat v.totalOff = v.prod + UInt32.ofNat v'.totalOff := by
  induction fuel generalizing v with
  | zero =>
    obtain ⟨-, hv⟩ := ite_none_left_eq_some.mp h
    cases hv
    rfl
  | succ fuel ih =>
    unfold loop at h
    split at h
    · obtain ⟨v₁, hbody, hrest⟩ := bind_eq_some_iff.mp h
      obtain ⟨cur, -, rfl⟩ := map_eq_some_iff.mp hbody
      have hnext := ih hrest
      simp only [copyChunk, UInt32.ofNat_add] at hnext
      grind
    · cases h
      rfl

/-! ## Ring bytes that stay as they are -/

theorem memcpyToRing_of_not_mem {ring : Nat → UInt8} {off : Nat} {bytes : List UInt8}
    (h : i < off ∨ off + bytes.length ≤ i) : memcpyToRing ring off bytes i = ring i := by
  unfold memcpyToRing
  split
  · rw [List.getElem?_eq_none (by omega), getD_none]
  · rfl

theorem copyRound_frame (hsize : 0 < size)
    (h : ∀ j, j < c.todo.flatten.length → (c.prod + j) % size ≠ i) :
    (copyRound size c).ring i = c.ring i ∧
      ∀ j, j < (copyRound size c).todo.flatten.length →
        ((copyRound size c).prod + j) % size ≠ i := by
  cases htodo : c.todo with
  | nil =>
    simp only [copyRound, htodo]
    rw [htodo] at h
    exact ⟨trivial, h⟩
  | cons data rest =>
    have hoff : c.prod % size < size := Nat.mod_lt _ hsize
    have hmin : min data.length (size - c.prod % size) ≤ data.length := Nat.min_le_left _ _
    simp only [htodo, flatten_cons, length_append] at h
    simp only [copyRound, htodo]
    constructor
    · apply memcpyToRing_of_not_mem
      rw [length_take, Nat.min_eq_left hmin]
      by_contra hin
      -- such a slot is that of a byte of the piece
      apply h (i - c.prod % size) (by omega)
      rw [Nat.add_mod, Nat.mod_eq_of_lt (a := i - c.prod % size) (by omega),
        Nat.mod_eq_of_lt (by omega)]
      omega
    · intro j hj
      rw [Nat.add_assoc]
      apply h
      split at hj
      · omega
      · rw [flatten_cons, length_append, length_drop] at hj
        omega

theorem copyLoop_frame (hsize : 0 < size)
    (h : ∀ j, j < c.todo.flatten.length → (c.prod + j) % size ≠ i) :
    (copyLoop size fuel c).ring i = c.ring i := by
  induction fuel generalizing c with
  | zero => rfl
  | succ fuel ih =>
    unfold copyLoop
    split
    · rfl
    · obtain ⟨hring, hnext⟩ := copyRound_frame hsize h
      rw [ih hnext, hring]

/-! ## The layout -/

structure LaidOut (r : RingSize) (prod : UInt32) (bytes : List UInt8) (ring ring' : Nat → UInt8) :
    Prop where
  written : ∀ i, (h : i < bytes.length) → ring' (maskXenstoreIdx r (prod + UInt32.ofNat i)) =
    bytes[i]
  others : ∀ j, (∀ i, i < bytes.length → maskXenstoreIdx r (prod + UInt32.ofNat i) ≠ j) →
    ring' j = ring j

theorem represents_start (p : Page) (m : Sockmsg) (reqs : List (List UInt8)) :
    Represents m.bytes reqs ⟨p.req, p.reqProd, none, 0, 0⟩
      ⟨p.req, p.reqProd.toNat, m.bytes :: reqs⟩ :=
  ⟨rfl, Nat.mod_eq_of_lt p.reqProd.toNat_lt, rfl, .inl rfl⟩

theorem length_flatten_message (m : Sockmsg) (reqs : List (List UInt8)) :
    (m.bytes :: reqs).flatten.length = messageLen reqs := by
  rw [flatten_cons, length_append, Sockmsg.length_bytes, messageLen, Nat.add_comm]

theorem copyMessage_spec (p : Page) (m : Sockmsg) (reqs : List (List UInt8))
    (hfit : messageLen reqs ≤ r.size) :
    ∃ v, copyMessage r p m reqs = some v ∧
      LaidOut r p.reqProd (m.bytes ++ reqs.flatten) p.req v.ring ∧
      v.prod = p.reqProd + UInt32.ofNat (messageLen reqs) ∧ v.reqOff = 0 ∧
      v.totalOff = messageLen reqs := by
  have hlen := length_flatten_message m reqs
  obtain ⟨v, hloop, hrep, hzero, htotal⟩ := represents_loop (r := r) (represents_start p m reqs)
    (by rw [hlen, Nat.zero_add]) le_rfl
  have hslot :
      ∀ i, maskXenstoreIdx r (p.reqProd + UInt32.ofNat i) = (p.reqProd.toNat + i) % r.size :=
    fun i => mask_of_prod (toNat_add_ofNat _ _).symm
  have hseg : Segment v.ring r.size p.reqProd.toNat (m.bytes :: reqs).flatten := by
    rw [← hrep.ring]
    exact copyLoop_spec (l := []) r.size_pos trivial rfl (by rw [hlen]; simpa using hfit) le_rfl
  refine ⟨v, hloop, ⟨?_, ?_⟩, ?_, hzero, htotal⟩
  · intro i hi
    rw [hslot]
    exact segment_iff.mp hseg i hi
  · intro j hj
    rw [← hrep.ring]
    apply copyLoop_frame r.size_pos
    intro i hi
    rw [← hslot]
    exact hj i hi
  · have hprod := prod_loop hloop
    rw [htotal] at hprod
    simpa using hprod

theorem toNat_sockmsg_len (type reqId txId : UInt32) {reqs : List (List UInt8)}
    (hfit : messageLen reqs ≤ r.size) :
    (sockmsg type reqId txId reqs).len.toNat = reqs.flatten.length := by
  have hlt := r.size_lt
  rw [sockmsg, UInt32.toNat_ofNat', Nat.mod_eq_of_lt]
  unfold messageLen idxMod at *
  omega

/-- Whatever the parts and the index are, the loop ends without a look behind the last part, the
message is in the ring and nothing else, and both offset assertions hold. -/
theorem xb_write_layout (r : RingSize) (p : Page) (type reqId txId : UInt32)
    (reqs : List (List UInt8)) (hfit : messageLen reqs ≤ r.size) :
    (sockmsg type reqId txId reqs).len.toNat = reqs.flatten.length ∧
      ∃ v, copyMessage r p (sockmsg type reqId txId reqs) reqs = some v ∧
        LaidOut r p.reqProd ((sockmsg type reqId txId reqs).bytes ++ reqs.flatten) p.req v.ring ∧
        v.reqOff = 0 ∧ v.totalOff = messageLen reqs := by
  obtain ⟨v, hcopy, hlaid, -, hzero, htotal⟩ :=
    copyMessage_spec p (sockmsg type reqId txId reqs) reqs hfit
  exact ⟨toNat_sockmsg_len type reqId txId hfit, v, hcopy, hlaid, hzero, htotal⟩

def atTheWrap : Page := ⟨fun _ => 0, 0xFFFFFFF8, 0xFFFFFFF8⟩

theorem xb_write_layout_at_the_wrap :
    messageLen [[97, 0], [], [98]] ≤ ring1024.size ∧
      ∃ v, copyMessage ring1024 atTheWrap (sockmsg 2 5 0 [[97, 0], [], [98]]) [[97, 0], [], [98]] =
        some v ∧
        v.ring 1016 = 2 ∧ v.ring 8 = 97 ∧ v.ring 10 = 98 := by
  obtain ⟨-, v, hcopy, hlaid, -, -⟩ :=
    xb_write_layout ring1024 atTheWrap 2 5 0 [[97, 0], [], [98]] (by decide)
  exact ⟨by decide, v, hcopy, hlaid.written 0 (by decide), hlaid.written 16 (by decide),
    hlaid.written 18 (by decide)⟩

/-! ## The room test and the assertion behind the loop -/

def RoomTest (r : RingSize) (p : Page) (len : Nat) : Prop :=
  (p.reqProd + UInt32.ofNat len - p.reqCons).toNat ≤ r.size

instance (r : RingSize) (p : Page) (len : Nat) : Decidable (RoomTest r p len) :=
  inferInstanceAs (Decidable (_ ≤ _))

def Overflow (r : RingSize) (prod reqCons : UInt32) : Prop := prod > reqCons + UInt32.ofNat r.size

instance (r : RingSize) (prod reqCons : UInt32) : Decidable (Overflow r prod reqCons) :=
  inferInstanceAs (Decidable (_ > _))

def outstanding (prod cons : UInt32) : Nat := (prod - cons).toNat

structure AssertionRight (r : RingSize) (p : Page) (cons : UInt32) (m : Sockmsg)
    (reqs : List (List UInt8)) : Prop where
  room : RoomTest r p (messageLen reqs) ↔ outstanding p.reqProd p.reqCons + messageLen reqs ≤ r.size
  check : RoomTest r p (messageLen reqs) →
    ∃ v, copyMessage r p m reqs = some v ∧ ¬ Overflow r v.prod cons

def WrapsTogether (r : RingSize) (prod cons : UInt32) (len : Nat) : Prop :=
  cons.toNat + r.size < idxMod ∨ idxMod ≤ cons.toNat + outstanding prod cons + len

theorem toNat_eq_outstanding (prod cons : UInt32) :
    prod.toNat = (cons.toNat + outstanding prod cons) % idxMod := by
  have hprod := prod.toNat_lt
  have hcons := cons.toNat_lt
  rw [outstanding, UInt32.toNat_sub]
  unfold idxMod
  omega

theorem RingSize.size_le (r : RingSize) : r.size ≤ 2 ^ 30 := Nat.pow_le_pow_right (by decide) r.le

theorem roomTest_iff (p : Page) (hout : outstanding p.reqProd p.reqCons ≤ r.size)
    (hlen : len ≤ r.size) :
    RoomTest r p len ↔ outstanding p.reqProd p.reqCons + len ≤ r.size := by
  have hsize := RingSize.size_le r
  have hprod := toNat_eq_outstanding p.reqProd p.reqCons
  have hcons := p.reqCons.toNat_lt
  rw [RoomTest, UInt32.toNat_sub, toNat_add_ofNat, hprod]
  unfold idxMod at *
  omega

theorem overflow_iff {prod cons : UInt32} (hroom : outstanding prod cons + len ≤ r.size) :
    Overflow r (prod + UInt32.ofNat len) cons ↔ ¬ WrapsTogether r prod cons len := by
  have hsize := RingSize.size_le r
  have hprod := toNat_eq_outstanding prod cons
  have hcons := cons.toNat_lt
  rw [Overflow, gt_iff_lt, UInt32.lt_iff_toNat_lt, toNat_add_ofNat, toNat_add_ofNat, hprod,
    WrapsTogether]
  unfold idxMod at *
  omega

theorem outstanding_le {prod seen cons : UInt32} (h : outstanding cons seen ≤ outstanding prod seen)
    :
    outstanding prod cons ≤ outstanding prod seen := by
  have hprod := prod.toNat_lt
  have hseen := seen.toNat_lt
  have hcons := cons.toNat_lt
  simp only [outstanding, UInt32.toNat_sub] at *
  omega

/-- For a message without another writer in between, the assertion holds wherever the two sums wrap
together, and only there. -/
theorem overflow_assertion_right_iff (r : RingSize) (p : Page) (cons : UInt32) (m : Sockmsg)
    (reqs : List (List UInt8)) (hout : outstanding p.reqProd p.reqCons ≤ r.size)
    (hcons : outstanding cons p.reqCons ≤ outstanding p.reqProd p.reqCons)
    (hfit : messageLen reqs ≤ r.size) :
    AssertionRight r p cons m reqs ↔
      (outstanding p.reqProd p.reqCons + messageLen reqs ≤ r.size →
        WrapsTogether r p.reqProd cons (messageLen reqs)) := by
  have hroom := roomTest_iff p hout hfit
  obtain ⟨v, hcopy, -, hprod, -, -⟩ := copyMessage_spec p m reqs hfit
  have hless := outstanding_le hcons
  constructor
  · intro h hle
    obtain ⟨v', hcopy', hnot⟩ := h.check (hroom.mpr hle)
    rw [hcopy, some.injEq] at hcopy'
    rw [← hcopy', hprod, overflow_iff (by omega), Classical.not_not] at hnot
    exact hnot
  · intro h
    refine ⟨hroom, fun htest => ⟨v, hcopy, ?_⟩⟩
    have hle := hroom.mp htest
    rw [hprod, overflow_iff (by omega), Classical.not_not]
    exact h hle

theorem overflow_assertion_right_at_the_wrap :
    AssertionRight ring1024 atTheWrap 0xFFFFFFF8 (sockmsg 2 5 0 [[97, 0]]) [[97, 0]] :=
  (overflow_assertion_right_iff ring1024 atTheWrap 0xFFFFFFF8 (sockmsg 2 5 0 [[97, 0]]) [[97, 0]]
    (by decide) (by decide) (by decide)).mpr fun _ => .inr (by decide)

def beforeTheWrap : Page := ⟨fun _ => 0, 0xFFFFFC00, 0xFFFFFC00⟩

theorem overflow_assertion_fires :
    ¬ ∀ (r : RingSize) (p : Page) (cons : UInt32) (m : Sockmsg) (reqs : List (List UInt8)),
      outstanding p.reqProd p.reqCons ≤ r.size →
      outstanding cons p.reqCons ≤ outstanding p.reqProd p.reqCons → messageLen reqs ≤ r.size →
      AssertionRight r p cons m reqs := by
  intro hall
  obtain ⟨v, hcopy, hnot⟩ :=
    (hall ring1024 beforeTheWrap 0xFFFFFC00 (sockmsg 2 5 0 [[97, 0]]) [[97, 0]]
    (by decide) (by decide) (by decide)).check (by decide)
  obtain ⟨v', hcopy', -, hprod, -, -⟩ := copyMessage_spec (r := ring1024) beforeTheWrap
    (sockmsg 2 5 0 [[97, 0]]) [[97, 0]] (by decide)
  rw [hcopy, some.injEq] at hcopy'
  rw [hcopy', hprod] at hnot
  exact hnot (by decide)

end Guk.XenbusLayout
