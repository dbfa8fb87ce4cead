import Mathlib.Data.List.Basic
import Mathlib.Data.Nat.ModEq

/-!
# Rings with free running indices

Producer and consumer indices are 32-bit counters that are never reduced to the
size of the ring. They are kept here without their wrap: an index is a natural
number, the code compares and subtracts indices modulo `2 ^ 32`, and slot
numbers are indices modulo the size of the ring.
-/
namespace Guk.Ring

open List

def idxMod : Nat := 2 ^ 32

def sameIdx (a b : Nat) : Prop := a % idxMod = b % idxMod

instance (a b : Nat) : Decidable (sameIdx a b) := inferInstanceAs (Decidable (_ = _))

def subIdx (a b : Nat) : Nat := (a + (idxMod - b % idxMod)) % idxMod

theorem sameIdx_iff {a b : Nat} (hab : a < b + idxMod) (hba : b < a + idxMod) :
    sameIdx a b ↔ a = b := by
  unfold sameIdx idxMod at *
  omega

theorem subIdx_eq {a b : Nat} (hle : b ≤ a) (hlt : a < b + idxMod) : subIdx a b = a - b := by
  unfold subIdx idxMod at *
  omega

theorem slot_ne {size i j : Nat} (lo : Nat) (hi : lo ≤ i) (hi' : i < lo + size) (hj : lo ≤ j)
    (hj' : j < lo + size) (hne : i ≠ j) : i % size ≠ j % size := by
  intro h
  rcases Nat.lt_or_gt_of_ne hne with hlt | hlt
  · have hd := (Nat.modEq_iff_dvd' (by omega)).mp h
    have := Nat.le_of_dvd (by omega) hd
    omega
  · have hd := (Nat.modEq_iff_dvd' (by omega)).mp h.symm
    have := Nat.le_of_dvd (by omega) hd
    omega

variable {α : Type} {view view' : Nat → α} {size lo : Nat} {l : List α} {x : α}

/-- The slots of the indices from `lo` on show the elements of the list. -/
def Segment (view : Nat → α) (size : Nat) : Nat → List α → Prop
  | _, [] => True
  | lo, x :: l => view (lo % size) = x ∧ Segment view size (lo + 1) l

theorem segment_iff :
    Segment view size lo l ↔ ∀ i, (h : i < l.length) → view ((lo + i) % size) = l[i] := by
  induction l generalizing lo with
  | nil => simp [Segment]
  | cons x l ih =>
    have hshift : ∀ i, lo + (i + 1) = lo + 1 + i := by omega
    simp only [Segment, ih]
    constructor
    · intro h i hi
      cases i with
      | zero => exact h.1
      | succ i =>
        rw [hshift]
        exact h.2 i (Nat.lt_of_succ_lt_succ hi)
    · intro h
      refine ⟨h 0 (Nat.zero_lt_succ _), fun i hi => ?_⟩
      rw [← hshift]
      exact h (i + 1) (Nat.succ_lt_succ hi)

theorem segment_eq (h : Segment view size lo l) : l = (List.range' lo l.length).map fun i =>
    view (i % size) := by
  induction l generalizing lo with
  | nil => rfl
  | cons x l ih =>
    rw [length_cons, range'_succ, map_cons, h.1, ← ih h.2]

theorem segment_append {m : List α} :
    Segment view size lo (l ++ m) ↔ Segment view size lo l ∧
      Segment view size (lo + l.length) m := by
  induction l generalizing lo with
  | nil => simp [Segment]
  | cons x l ih =>
    rw [cons_append, Segment, ih, Segment, length_cons, Nat.add_assoc, Nat.add_comm 1,
      and_assoc]

theorem segment_congr (h : Segment view size lo l)
    (hagree : ∀ i, lo ≤ i → i < lo + l.length → view' (i % size) = view (i % size)) :
    Segment view' size lo l := by
  induction l generalizing lo with
  | nil => trivial
  | cons x l ih =>
    refine ⟨?_, ih h.2 ?_⟩
    · rw [hagree lo (le_refl lo) (by simp)]
      exact h.1
    · intro i hi hi'
      exact hagree i (by omega) (by simp only [length_cons]; omega)

theorem segment_push (h : Segment view size lo l) (hx : view ((lo + l.length) % size) = x) :
    Segment view size lo (l ++ [x]) := by
  induction l generalizing lo with
  | nil => exact ⟨hx, trivial⟩
  | cons y l ih =>
    refine ⟨h.1, ih h.2 ?_⟩
    rw [← hx, length_cons]
    congr 2
    omega

theorem segment_write {β : Type} {ring : Nat → β} {f : β → α} {b : β} {j : Nat} (win : Nat)
    (h : Segment (fun i => f (ring i)) size lo l) (hlo : win ≤ lo)
    (hl : lo + l.length ≤ win + size) (hj : win ≤ j) (hj' : j < win + size)
    (hout : j < lo ∨ lo + l.length ≤ j) :
    Segment (fun i => f (Function.update ring (j % size) b i)) size lo l := by
  apply segment_congr h
  intro i hi hi'
  have hne := slot_ne win (le_trans hlo hi) (lt_of_lt_of_le hi' hl) hj hj' (by omega)
  simp only [Function.update_of_ne hne]

end Guk.Ring
