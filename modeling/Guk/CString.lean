import Mathlib.Data.List.Basic
import Mathlib.Data.List.TakeWhile

/-!
# Strings in memory

Memory is read from an address on as a list of bytes. A C string is what stands
before the first NUL; strings can follow one another, each with its NUL.
-/
namespace Guk.CString

open List

abbrev Memory := List UInt8

def text (s : String) : List UInt8 := s.toList.map fun c => UInt8.ofNat c.toNat

def cString (m : Memory) : List UInt8 := m.takeWhile (· ≠ 0)

def strings : Nat → Memory → List (List UInt8)
  | 0, _ => []
  | k + 1, m => cString m :: strings k (m.drop ((cString m).length + 1))

def terminated (l : List (List UInt8)) : Memory := l.flatMap (· ++ [0])

@[simp] theorem terminated_nil : terminated [] = [] := rfl

@[simp] theorem terminated_cons (s : List UInt8) (l : List (List UInt8)) :
    terminated (s :: l) = s ++ 0 :: terminated l := by
  simp [terminated]

variable {s : List UInt8}

theorem not_nul_of_mem (h : 0 ∉ s) : ∀ b ∈ s, decide (b ≠ 0) = true := by
  intro b hb
  rw [decide_eq_true_eq]
  exact fun h0 => h (h0 ▸ hb)

theorem cString_terminator (h : 0 ∉ s) (m : Memory) : cString (s ++ 0 :: m) = s := by
  rw [cString, takeWhile_append_of_pos (not_nul_of_mem h)]
  simp

theorem cString_of_noNul (h : 0 ∉ s) : cString s = s := by
  have happend : (s ++ []).takeWhile (fun b => decide (b ≠ 0)) = s ++ [] :=
    takeWhile_append_of_pos (not_nul_of_mem h)
  simpa only [cString, append_nil] using happend

theorem noNul_cString (m : Memory) : 0 ∉ cString m := by
  intro h
  simpa using mem_takeWhile_imp h

theorem cString_append_nul (s : List UInt8) : cString (s ++ [0]) = cString s := by
  by_cases h : 0 ∈ s
  · rw [cString, takeWhile_append, if_neg]
    · rfl
    · intro hlen
      have hs := (List.takeWhile_prefix _).eq_of_length hlen
      rw [← hs] at h
      exact noNul_cString s h
  · rw [cString_terminator h, cString_of_noNul h]

theorem length_cString_lt (h : 0 ∈ s) : (cString s).length < s.length := by
  have hpre : cString s <+: s := takeWhile_prefix _
  apply Nat.lt_of_le_of_ne hpre.length_le
  intro hlen
  rw [← hpre.eq_of_length hlen] at h
  exact noNul_cString s h

theorem strings_terminated {l : List (List UInt8)} (h : ∀ s ∈ l, 0 ∉ s) (m : Memory) :
    strings l.length (terminated l ++ m) = l := by
  induction l with
  | nil => rfl
  | cons s l ih =>
    have hs : cString (s ++ 0 :: (terminated l ++ m)) = s :=
      cString_terminator (h s mem_cons_self) _
    have hrest : (s ++ 0 :: (terminated l ++ m)).drop (s.length + 1) = terminated l ++ m := by
      rw [drop_append]
      simp
    simp only [length_cons, strings, terminated_cons, append_assoc, cons_append, hs,
      hrest]
    rw [ih fun t ht => h t (mem_cons_of_mem s ht)]

end Guk.CString
