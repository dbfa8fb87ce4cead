import Mathlib.Tactic.Common

/-!
# Memory by bytes

Copying, and writing something unknown to some regions of memory.
-/
namespace Guk.ByteMemory

abbrev Bytes := Nat → Nat

def memcpy (mem : Bytes) (dst src n : Nat) : Bytes :=
  fun p => if dst ≤ p ∧ p < dst + n then mem (src + (p - dst)) else mem p

def scribble (regions : List (Nat × Nat)) (junk mem : Bytes) : Bytes :=
  fun p => if ∃ r ∈ regions, r.1 ≤ p ∧ p < r.1 + r.2 then junk p else mem p

variable {mem junk : Bytes} {regions : List (Nat × Nat)} {dst src n p j : Nat}

theorem memcpy_inside (hj : j < n) : memcpy mem dst src n (dst + j) = mem (src + j) := by
  rw [memcpy, if_pos (by omega), Nat.add_sub_cancel_left]

theorem memcpy_outside (h : p < dst ∨ dst + n ≤ p) : memcpy mem dst src n p = mem p :=
  if_neg (by omega)

theorem scribble_outside (h : ∀ r ∈ regions, p < r.1 ∨ r.1 + r.2 ≤ p) :
    scribble regions junk mem p = mem p := by
  apply if_neg
  rintro ⟨r, hr, hle, hlt⟩
  have := h r hr
  omega

end Guk.ByteMemory
