import Guk.Ring

/-!
# The rings of the xenstore page (`xenbus.c`)

Two rings of `XENSTORE_RING_SIZE` bytes: requests and responses. A message is a
`struct xsd_sockmsg` of four 32-bit fields followed by as many bytes as its last
field says. `xb_write` and `memcpy_from_ring` copy to and from a ring in pieces
that end where the ring ends.
-/
namespace Guk.XenbusRing

open Guk.Ring List

structure RingSize where
  bits : Nat
  le : bits ≤ 30

def RingSize.size (r : RingSize) : Nat := 2 ^ r.bits

theorem RingSize.size_pos (r : RingSize) : 0 < r.size := Nat.two_pow_pos _

theorem RingSize.size_lt (r : RingSize) : r.size < idxMod :=
  Nat.pow_lt_pow_right (by decide) (lt_of_le_of_lt r.le (by decide))

def ring1024 : RingSize := ⟨10, by decide⟩

/-! ## Messages -/

def le32 (n : UInt32) : List UInt8 :=
  [UInt8.ofNat n.toNat, UInt8.ofNat (n.toNat / 2 ^ 8), UInt8.ofNat (n.toNat / 2 ^ 16),
    UInt8.ofNat (n.toNat / 2 ^ 24)]

def ofLe32 (bytes : List UInt8) : UInt32 :=
  UInt32.ofNat (bytes.foldr (fun b n => b.toNat + 2 ^ 8 * n) 0)

structure Sockmsg where
  type : UInt32
  reqId : UInt32
  txId : UInt32
  len : UInt32
  deriving DecidableEq, Repr

def sizeofMsg : Nat := 16

def Sockmsg.bytes (m : Sockmsg) : List UInt8 :=
  le32 m.type ++ le32 m.reqId ++ le32 m.txId ++ le32 m.len

def Sockmsg.ofBytes (bytes : List UInt8) : Sockmsg where
  type := ofLe32 (bytes.take 4)
  reqId := ofLe32 ((bytes.drop 4).take 4)
  txId := ofLe32 ((bytes.drop 8).take 4)
  len := ofLe32 ((bytes.drop 12).take 4)

theorem ofLe32_le32 (n : UInt32) : ofLe32 (le32 n) = n := by
  apply UInt32.toNat_inj.mp
  have hlt := n.toNat_lt
  simp only [ofLe32, le32, foldr_cons, foldr_nil, UInt8.toNat_ofNat', UInt32.toNat_ofNat']
  omega

@[simp] theorem Sockmsg.length_bytes (m : Sockmsg) : m.bytes.length = sizeofMsg := rfl

theorem Sockmsg.ofBytes_bytes (m : Sockmsg) : Sockmsg.ofBytes m.bytes = m := by
  have htype : m.bytes.take 4 = le32 m.type := rfl
  have hreq : (m.bytes.drop 4).take 4 = le32 m.reqId := rfl
  have htx : (m.bytes.drop 8).take 4 = le32 m.txId := rfl
  have hlen : (m.bytes.drop 12).take 4 = le32 m.len := rfl
  simp only [Sockmsg.ofBytes, htype, hreq, htx, hlen, ofLe32_le32]

/-! ## Copies -/

variable {ring : Nat → UInt8} {size lo : Nat} {l bytes : List UInt8}

def memcpyFromRing (size : Nat) (ring : Nat → UInt8) (off len : Nat) : List UInt8 :=
  let c1 := min len (size - off)
  let c2 := len - c1
  (List.range c1).map (fun i => ring (off + i)) ++ (List.range c2).map ring

def memcpyToRing (ring : Nat → UInt8) (off : Nat) (bytes : List UInt8) (i : Nat) : UInt8 :=
  if off ≤ i then (bytes[i - off]?).getD (ring i) else ring i

theorem length_memcpyFromRing (size : Nat) (ring : Nat → UInt8) (off len : Nat) :
    (memcpyFromRing size ring off len).length = len := by
  simp only [memcpyFromRing, length_append, length_map, length_range]
  omega

theorem getElem?_memcpyFromRing {off len i : Nat} (hoff : off < size) (hlen : len ≤ size)
    (hi : i < len) : (memcpyFromRing size ring off len)[i]? = some (ring ((off + i) % size)) := by
  simp only [memcpyFromRing, List.getElem?_append, length_map, length_range, List.getElem?_map]
  split
  · rw [List.getElem?_range (by omega), Nat.mod_eq_of_lt (by omega), Option.map_some]
  · rw [List.getElem?_range (by omega), Nat.mod_eq_sub_mod (by omega), Nat.mod_eq_of_lt (by omega),
      Option.map_some]
    congr 2
    omega

theorem memcpyFromRing_eq (hsize : l.length ≤ size) (h : Segment ring size lo l) :
    memcpyFromRing size ring (lo % size) l.length = l := by
  apply ext_getElem?
  intro i
  by_cases hi : i < l.length
  · have hoff : lo % size < size := Nat.mod_lt _ (by omega)
    rw [getElem?_memcpyFromRing hoff hsize hi, Nat.mod_add_mod, segment_iff.mp h i hi,
      List.getElem?_eq_getElem hi]
  · rw [List.getElem?_eq_none (by rw [length_memcpyFromRing]; omega),
      List.getElem?_eq_none (by omega)]

theorem segment_memcpyToRing (h : Segment ring size lo l)
    (hend : (lo + l.length) % size + bytes.length ≤ size) (hroom : l.length + bytes.length ≤ size) :
    Segment (memcpyToRing ring ((lo + l.length) % size) bytes) size lo (l ++ bytes) := by
  have hslot : ∀ {i}, i < bytes.length →
      (lo + l.length + i) % size = (lo + l.length) % size + i := by
    intro i hi
    rw [Nat.add_mod, Nat.mod_eq_of_lt (a := i) (by omega), Nat.mod_eq_of_lt (by omega)]
  rw [segment_append]
  constructor
  · apply segment_congr h
    intro j hj hj'
    unfold memcpyToRing
    split
    · rename_i hle
      by_cases hlt : j % size - (lo + l.length) % size < bytes.length
      · -- such a slot would be that of a byte of the piece
        have hne : j % size ≠ (lo + l.length + (j % size - (lo + l.length) % size)) % size :=
          slot_ne lo hj (by omega) (by omega) (by omega) (by omega)
        rw [hslot hlt] at hne
        omega
      · rw [List.getElem?_eq_none (by omega), Option.getD_none]
    · rfl
  · rw [segment_iff]
    intro i hi
    rw [hslot hi, memcpyToRing, if_pos (Nat.le_add_right _ _), Nat.add_sub_cancel_left,
      List.getElem?_eq_getElem hi, Option.getD_some]

end Guk.XenbusRing
