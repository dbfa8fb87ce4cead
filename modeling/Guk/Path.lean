import Mathlib.Data.List.Infix

/-!
# Lexical paths

A path is read component by component, without looking at any file: an empty
component and `.` stay where they are, `..` leaves the last name, and anything
else is a name to go down to. What is left is the normal form: whether the path
starts at the root, how often it leaves the directory it starts from, and the
names below.
-/
namespace Guk.Path

open List

variable {α : Type}

structure Normal (α : Type) where
  absolute : Bool
  ups : Nat
  names : List (List α)
deriving DecidableEq

namespace Normal

def start (absolute : Bool) : Normal α := ⟨absolute, 0, []⟩

/-- `..`: nothing lies above the root. -/
def up (n : Normal α) : Normal α :=
  match n.names with
  | [] => if n.absolute then n else { n with ups := n.ups + 1 }
  | _ :: _ => { n with names := n.names.dropLast }

def down (n : Normal α) (c : List α) : Normal α := { n with names := n.names ++ [c] }

/-- Where `m` leads to when `n` is where it starts. -/
def join (n m : Normal α) : Normal α :=
  { up^[m.ups] n with names := (up^[m.ups] n).names ++ m.names }

/-- `m` is `n`, or lies below it at the end of a component. -/
def Below (n m : Normal α) : Prop :=
  m.absolute = n.absolute ∧ m.ups = n.ups ∧ n.names <+: m.names

instance [DecidableEq α] (n m : Normal α) : Decidable (Below n m) :=
  inferInstanceAs (Decidable (_ ∧ _ ∧ _))

theorem up_eq (n : Normal α) :
    n.up = ⟨n.absolute, n.ups + (if n.absolute then 0 else 1 - n.names.length),
      n.names.take (n.names.length - 1)⟩ := by
  obtain ⟨a, u, names⟩ := n
  cases names with
  | nil => cases a <;> rfl
  | cons c cs => simp [up, dropLast_eq_take]

theorem up_iterate (k : Nat) (n : Normal α) :
    up^[k] n = ⟨n.absolute, n.ups + (if n.absolute then 0 else k - n.names.length),
      n.names.take (n.names.length - k)⟩ := by
  induction k with
  | zero => simp
  | succ k ih =>
    rw [Function.iterate_succ_apply', ih, up_eq]
    simp only [length_take, take_take, mk.injEq, true_and]
    constructor
    · split <;> omega
    · congr 1
      omega

theorem join_start (n : Normal α) (a : Bool) : n.join (start a) = n := by
  simp [join, start]

theorem join_down (n m : Normal α) (c : List α) : n.join (m.down c) = (n.join m).down c := by
  simp [join, down]

theorem join_up (n m : Normal α) (hm : m.absolute = false) : n.join m.up = (n.join m).up := by
  obtain ⟨a, u, names⟩ := m
  cases hm
  cases names with
  | nil => simp [join, up, Function.iterate_succ_apply']
  | cons c cs =>
    simp only [join, up]
    split
    · rename_i h
      simp at h
    · simp

theorem below_join (n m : Normal α) :
    n.Below (n.join m) ↔ (n.absolute = true ∨ m.ups ≤ n.names.length) ∧
      n.names.drop (n.names.length - m.ups) <+: m.names := by
  have hnames : n.names <+: n.names.take (n.names.length - m.ups) ++ m.names ↔
      n.names.drop (n.names.length - m.ups) <+: m.names := by
    conv_lhs =>
      lhs
      rw [← take_append_drop (n.names.length - m.ups) n.names]
    exact prefix_append_right_inj _
  have hups : n.ups + (if n.absolute then 0 else m.ups - n.names.length) = n.ups ↔
      (n.absolute = true ∨ m.ups ≤ n.names.length) := by
    cases n.absolute
    · simp
      omega
    · simp
  simp only [Below, join, up_iterate, true_and, hnames, hups]

end Normal

variable [DecidableEq α] (sep dot : α)

def follow (n : Normal α) (c : List α) : Normal α :=
  if c = [] ∨ c = [dot] then n
  else if c = [dot, dot] then n.up
  else n.down c

def walk (n : Normal α) (cs : List (List α)) : Normal α := cs.foldl (follow dot) n

def normalise (path : List α) : Normal α :=
  walk dot (.start (path.head? == some sep)) (path.splitOn sep)

variable {dot}

theorem follow_absolute (n : Normal α) (c : List α) : (follow dot n c).absolute = n.absolute := by
  simp only [follow]
  split
  · rfl
  · split
    · rw [Normal.up_eq]
    · rfl

theorem join_follow (n m : Normal α) (c : List α) (hm : m.absolute = false) :
    n.join (follow dot m c) = follow dot (n.join m) c := by
  simp only [follow]
  split
  · rfl
  · split
    · exact Normal.join_up n m hm
    · exact Normal.join_down n m c

theorem walk_absolute (n : Normal α) (cs : List (List α)) :
    (walk dot n cs).absolute = n.absolute := by
  induction cs generalizing n with
  | nil => rfl
  | cons c cs ih => exact (ih (follow dot n c)).trans (follow_absolute n c)

theorem walk_eq_join (n : Normal α) (cs : List (List α)) :
    walk dot n cs = n.join (walk dot (.start false) cs) := by
  suffices h : ∀ m : Normal α, m.absolute = false →
      walk dot (n.join m) cs = n.join (walk dot m cs) by
    simpa only [Normal.join_start] using h (.start false) rfl
  induction cs with
  | nil => exact fun _ _ => rfl
  | cons c cs ih =>
    intro m hm
    have hc : (follow dot m c).absolute = false := by rw [follow_absolute, hm]
    calc walk dot (n.join m) (c :: cs)
        = walk dot (follow dot (n.join m) c) cs := rfl
      _ = walk dot (n.join (follow dot m c)) cs := by rw [join_follow n m c hm]
      _ = n.join (walk dot (follow dot m c) cs) := ih _ hc

variable {sep}

theorem normalise_append (e r : List α) (he : e ≠ []) :
    normalise sep dot (e ++ sep :: r) =
      (normalise sep dot e).join (walk dot (.start false) (r.splitOn sep)) := by
  have hhead : (e ++ sep :: r).head? = e.head? := by
    cases e with
    | nil => exact absurd rfl he
    | cons c cs => rfl
  simp only [normalise, hhead, splitOn_append_cons_self]
  rw [← walk_eq_join, walk, walk, walk, foldl_append]

end Guk.Path
