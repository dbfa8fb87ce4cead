import Mathlib.Algebra.Group.Nat.Defs
import Mathlib.Data.List.Basic

/-!
# Numbers as decimal text

How `printf` writes a number and how `scanf` reads one: the digits of a number,
the value of a text of digits, and the longest text of digits at the start of a
text. Reading takes back what writing has put before anything that is not a digit.
-/
namespace Guk.Decimal

open List

def digit (d : Nat) : UInt8 := UInt8.ofNat (48 + d)

def isDigit (b : UInt8) : Bool := 48 ≤ b && b ≤ 57

def isSpace (b : UInt8) : Bool := b == 32 || (9 ≤ b && b ≤ 13)

def digits : (fuel n : Nat) → List UInt8
  | 0, _ => []
  | fuel + 1, n => if n < 10 then [digit n] else digits fuel (n / 10) ++ [digit (n % 10)]

def decimal (n : Nat) : List UInt8 := digits (n + 1) n

def value (ds : List UInt8) : Nat := ds.foldl (fun n b => 10 * n + (b.toNat - 48)) 0

def scanUnsigned (m : List UInt8) : Option (Nat × List UInt8) :=
  let m := m.dropWhile isSpace
  let ds := m.takeWhile isDigit
  if ds = [] then none else some (value ds, m.dropWhile isDigit)

theorem digit_spec {d : Nat} (h : d < 10) :
    isDigit (digit d) = true ∧ (digit d).toNat - 48 = d := by
  have hall : ∀ d : Fin 10, isDigit (digit d) = true ∧ (digit d).toNat - 48 = d := by decide
  exact hall ⟨d, h⟩

theorem digits_isDigit (fuel n : Nat) : ∀ b ∈ digits fuel n, isDigit b = true := by
  induction fuel generalizing n with
  | zero => simp [digits]
  | succ fuel ih =>
    intro b hb
    simp only [digits] at hb
    split at hb
    · rename_i hn
      rw [mem_singleton] at hb
      rw [hb]
      exact (digit_spec hn).1
    · rw [mem_append, mem_singleton] at hb
      rcases hb with hb | hb
      · exact ih (n / 10) b hb
      · rw [hb]
        exact (digit_spec (Nat.mod_lt n (by decide))).1

theorem decimal_isDigit (n : Nat) : ∀ b ∈ decimal n, isDigit b = true := digits_isDigit (n + 1) n

theorem decimal_ne_nil (n : Nat) : decimal n ≠ [] := by
  simp only [decimal, digits]
  split <;> simp

variable {n : Nat} {rest : List UInt8} {b : UInt8}

theorem length_digits_le (k fuel : Nat) (h : n < 10 ^ (k + 1)) :
    (digits fuel n).length ≤ k + 1 := by
  induction k generalizing fuel n with
  | zero =>
    cases fuel with
    | zero => simp [digits]
    | succ fuel => simp [digits, show n < 10 from h]
  | succ k ih =>
    cases fuel with
    | zero => simp [digits]
    | succ fuel =>
      have hdiv : n / 10 < 10 ^ (k + 1) := by
        rw [Nat.pow_succ] at h
        omega
      simp only [digits]
      split
      · simp
      · have hrec := ih fuel hdiv
        simp
        omega

theorem length_decimal_le (k : Nat) (h : n < 10 ^ (k + 1)) :
    (decimal n).length ≤ k + 1 := length_digits_le k (n + 1) h

theorem value_append (ds : List UInt8) (b : UInt8) :
    value (ds ++ [b]) = 10 * value ds + (b.toNat - 48) := by
  simp [value]

theorem value_digits {fuel : Nat} (h : n < fuel) : value (digits fuel n) = n := by
  induction fuel generalizing n with
  | zero => omega
  | succ fuel ih =>
    simp only [digits]
    split
    · rename_i hn
      simp [value, (digit_spec hn).2]
    · rw [value_append, ih (by omega), (digit_spec (Nat.mod_lt n (by decide))).2]
      omega

theorem value_decimal (n : Nat) : value (decimal n) = n := value_digits (Nat.lt_succ_self n)

theorem not_isSpace_of_isDigit (h : isDigit b = true) : isSpace b = false := by
  simp only [isDigit, Bool.and_eq_true, decide_eq_true_eq, UInt8.le_iff_toNat_le] at h
  simp only [isSpace, Bool.or_eq_false_iff, Bool.and_eq_false_iff, beq_eq_false_iff_ne,
    decide_eq_false_iff_not, UInt8.le_iff_toNat_le, ne_eq, UInt8.toNat_inj.symm]
  have h48 : (48 : UInt8).toNat = 48 := rfl
  have h13 : (13 : UInt8).toNat = 13 := rfl
  have h32 : (32 : UInt8).toNat = 32 := rfl
  omega

def scanDigits (m : List UInt8) : Option (Nat × List UInt8) :=
  let ds := m.takeWhile isDigit
  if ds = [] then none else some (value ds, m.dropWhile isDigit)

def Ends (rest : List UInt8) : Prop := ∀ b ∈ rest.head?, isDigit b = false

theorem scanDigits_decimal (n : Nat) (h : Ends rest) :
    scanDigits (decimal n ++ rest) = some (n, rest) := by
  have hdig := decimal_isDigit n
  have hnone : rest.takeWhile isDigit = [] ∧ rest.dropWhile isDigit = rest := by
    cases rest with
    | nil => exact ⟨rfl, rfl⟩
    | cons b rest =>
      have hb := h b rfl
      simp [hb]
  have htake : (decimal n ++ rest).takeWhile isDigit = decimal n := by
    rw [takeWhile_append_of_pos hdig, hnone.1, append_nil]
  have hdrop : (decimal n ++ rest).dropWhile isDigit = rest := by
    rw [dropWhile_append_of_pos hdig, hnone.2]
  simp only [scanDigits, htake, hdrop, decimal_ne_nil, if_false, value_decimal]

theorem scanUnsigned_decimal (n : Nat) (hb : isDigit b = false) (rest : List UInt8) :
    scanUnsigned (decimal n ++ b :: rest) = some (n, b :: rest) := by
  have hends : Ends (b :: rest) := by
    intro c hc
    cases hc
    exact hb
  have hspace : (decimal n ++ b :: rest).dropWhile isSpace = decimal n ++ b :: rest := by
    cases hd : decimal n with
    | nil => exact absurd hd (decimal_ne_nil n)
    | cons c ds =>
      have hc := not_isSpace_of_isDigit (decimal_isDigit n c (by simp [hd]))
      simp [hc]
  have hscan := scanDigits_decimal n hends
  rw [← hspace] at hscan
  exact hscan

/-! ## Numbers with a sign -/

def decimalInt : Int → List UInt8
  | .ofNat n => decimal n
  | .negSucc n => 45 :: decimal (n + 1)

def scanInt (m : List UInt8) : Option (Int × List UInt8) :=
  let m := m.dropWhile isSpace
  if m.head? = some 45 then (scanDigits m.tail).map fun (n, rest) => (-(n : Int), rest)
  else if m.head? = some 43 then (scanDigits m.tail).map fun (n, rest) => ((n : Int), rest)
  else (scanDigits m).map fun (n, rest) => ((n : Int), rest)

theorem scanInt_decimalInt (v : Int) (h : Ends rest) :
    scanInt (decimalInt v ++ rest) = some (v, rest) := by
  cases v with
  | ofNat n =>
    cases hd : decimal n with
    | nil => exact absurd hd (decimal_ne_nil n)
    | cons c ds =>
      have hc := decimal_isDigit n c (by simp [hd])
      have hspace := not_isSpace_of_isDigit hc
      have hminus : c ≠ 45 := by
        intro he
        rw [he] at hc
        exact absurd hc (by decide)
      have hplus : c ≠ 43 := by
        intro he
        rw [he] at hc
        exact absurd hc (by decide)
      have hscan := scanDigits_decimal n h
      rw [hd] at hscan
      simp only [cons_append] at hscan
      simp [decimalInt, hd, scanInt, hspace, hminus, hplus, hscan]
  | negSucc n =>
    have hspace : isSpace 45 = false := by decide
    have hscan := scanDigits_decimal (n + 1) h
    simp [decimalInt, scanInt, hspace, hscan, Int.negSucc_eq]

theorem decimalInt_append_inj {v w : Int} {rest' : List UInt8} (h : Ends rest) (h' : Ends rest')
    (he : decimalInt v ++ rest = decimalInt w ++ rest') : v = w ∧ rest = rest' := by
  have hv := scanInt_decimalInt v h
  rw [he, scanInt_decimalInt w h'] at hv
  simp only [Option.some.injEq, Prod.mk.injEq] at hv
  exact ⟨hv.1.symm, hv.2.symm⟩

end Guk.Decimal
