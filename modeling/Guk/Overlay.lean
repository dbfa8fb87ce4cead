import Mathlib.Algebra.Group.Nat.Defs
import Mathlib.Tactic.Common

/-!
# Answers in the place of requests

A program reads fields of a request, writes fields of a response and calls the system
around it. Request and response may be two pieces of memory or one: there is no
difference if no byte is read after it has been written.
-/
namespace Guk.Overlay

abbrev Bytes := Nat → UInt8

/-- The number in `width` bytes from `off` on, lowest byte first. -/
def readField (m : Bytes) (off : Nat) : (width : Nat) → Nat
  | 0 => 0
  | width + 1 => (m off).toNat + 256 * readField m (off + 1) width

def writeField (m : Bytes) (off width value : Nat) : Bytes :=
  fun i => if off ≤ i ∧ i < off + width then UInt8.ofNat (value / 256 ^ (i - off)) else m i

/-- `κ` is the state of the system, `ε` what stops it. -/
inductive Prog (κ ε : Type) : Type 1 where
  | done
  | read (off width : Nat) (next : Nat → Prog κ ε)
  | write (off width value : Nat) (next : Prog κ ε)
  | call {β : Type} (f : κ → Except ε (β × κ)) (next : β → Prog κ ε)

namespace Prog

variable {κ ε : Type} {written : Nat → Prop}

/-- The response is written over the request. -/
def inPlace : Prog κ ε → Bytes → κ → Except ε (Bytes × κ)
  | done, m, k => .ok (m, k)
  | read off width next, m, k => (next (readField m off width)).inPlace m k
  | write off width value next, m, k => next.inPlace (writeField m off width value) k
  | call f next, m, k => (f k).bind fun r => (next r.1).inPlace m r.2

/-- The request is read from a copy. -/
def apart (req : Bytes) : Prog κ ε → Bytes → κ → Except ε (Bytes × κ)
  | done, m, k => .ok (m, k)
  | read off width next, m, k => (next (readField req off width)).apart req m k
  | write off width value next, m, k => next.apart req (writeField m off width value) k
  | call f next, m, k => (f k).bind fun r => (next r.1).apart req m r.2

/-- No byte is read that has been written. -/
def Ordered (written : Nat → Prop) : Prog κ ε → Prop
  | done => True
  | read off width next =>
    (∀ i, off ≤ i → i < off + width → ¬ written i) ∧ ∀ v, (next v).Ordered written
  | write off width _ next => next.Ordered fun i => written i ∨ off ≤ i ∧ i < off + width
  | call _ next => ∀ r, (next r).Ordered written

section

variable {b b' off width : Nat} {next : Prog κ ε}

theorem Ordered.mono {written' : Nat → Prop} {p : Prog κ ε} (h : p.Ordered written')
    (hsub : ∀ i, written i → written' i) : p.Ordered written := by
  induction p generalizing written written' with
  | done => trivial
  | read off width next ih =>
      exact ⟨fun i hle hlt hi => h.1 i hle hlt (hsub i hi), fun v => ih v (h.2 v) hsub⟩
  | write off width value next ih => exact ih h fun i => Or.imp_left (hsub i)
  | call f next ih => exact fun r => ih r (h r) hsub

theorem ordered_read {next : Nat → Prog κ ε} (hb : b ≤ off) (h : ∀ v, (next v).Ordered (· < b)) :
    (read off width next).Ordered (· < b) :=
  ⟨fun _ hle _ => Nat.not_lt.mpr (Nat.le_trans hb hle), h⟩

theorem ordered_write {value : Nat} (hb : b ≤ b') (hend : off + width ≤ b')
    (h : next.Ordered (· < b')) :
    (write off width value next).Ordered (· < b) := by
  refine h.mono fun i hi => ?_
  omega

theorem ordered_ite {c : Prop} [Decidable c] {p q : Prog κ ε} (hp : p.Ordered written)
    (hq : q.Ordered written) :
    (if c then p else q).Ordered written := by
  split
  · exact hp
  · exact hq

end

def writeWords (next : Prog κ ε) : (off : Nat) → List Nat → Prog κ ε
  | _, [] => next
  | off, v :: l => write off 8 v (writeWords next (off + 8) l)

theorem ordered_writeWords (off : Nat) (l : List Nat) :
    (writeWords (done : Prog κ ε) off l).Ordered written := by
  induction l generalizing off written with
  | nil => trivial
  | cons v l ih => exact ih (off + 8)

theorem readField_congr {m m' : Bytes} {off width : Nat}
    (h : ∀ i, off ≤ i → i < off + width → m i = m' i) :
    readField m off width = readField m' off width := by
  induction width generalizing off with
  | zero => rfl
  | succ width ih =>
    rw [readField, readField, h off (by omega) (by omega), ih]
    intro i hle hlt
    exact h i (by omega) (by omega)

theorem inPlace_eq_apart {req m : Bytes} (p : Prog κ ε) (k : κ)
    (h : p.Ordered written) (hagree : ∀ i, ¬ written i → m i = req i) :
    p.inPlace m k = p.apart req m k := by
  induction p generalizing written m k with
  | done => rfl
  | read off width next ih =>
    have hfield := readField_congr fun i hle hlt => hagree i (h.1 i hle hlt)
    rw [inPlace, apart, hfield]
    exact ih _ k (h.2 _) hagree
  | write off width value next ih =>
    refine ih k h fun i hi => ?_
    rw [writeField, if_neg fun hin => hi (.inr hin)]
    exact hagree i fun hw => hi (.inl hw)
  | call f next ih =>
    rw [inPlace, apart]
    cases f k with
    | error e => rfl
    | ok r => exact ih r.1 r.2 (h r.1) hagree

end Prog

end Guk.Overlay
