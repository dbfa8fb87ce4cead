import Mathlib.Data.Nat.Basic
import Mathlib.Data.Option.Basic
import Mathlib.Tactic.Common

/-!
# Trees of tables in memory

Memory holds tables of entries, and an entry may refer to a further table. A key
gives an index for every level; following it from the root for `d` entries leads
to a table, if all these entries refer to one. The entries of the tables at
`depth` are the leaves.

In a tree no table is reached in two ways. Then a write to an entry changes what
the keys through that entry find, and nothing else.
-/
namespace Guk.Radix

open Function Option

variable {φ ι ε : Type}

/-- Where a key leads through `d` entries. -/
def node (next : ε → Option φ) (m : φ → ι → ε) (root : φ) (p : Nat → ι) : Nat → Option φ
  | 0 => some root
  | d + 1 => (node next m root p d).bind fun t => next (m t (p d))

/-- Two keys with the same first `d` indices. -/
def Agree (d : Nat) (p q : Nat → ι) : Prop := ∀ e < d, p e = q e

def Reached (next : ε → Option φ) (m : φ → ι → ε) (root : φ) (depth : Nat) (t : φ) : Prop :=
  ∃ d ≤ depth, ∃ p, node next m root p d = some t

def IsTree (next : ε → Option φ) (m : φ → ι → ε) (root : φ) (depth : Nat) : Prop :=
  ∀ d d' p q t, d ≤ depth → d' ≤ depth → node next m root p d = some t →
    node next m root q d' = some t → d = d' ∧ Agree d p q

/-- The entry that a key finds at `depth`, if it refers to something. -/
def leaf (next : ε → Option φ) (m : φ → ι → ε) (root : φ) (depth : Nat) (p : Nat → ι) : Option ε :=
  (node next m root p depth).bind fun t =>
    if (next (m t (p depth))).isSome then some (m t (p depth)) else none

variable {next : ε → Option φ} {m m' : φ → ι → ε} {root t g x : φ} {p q p₀ : Nat → ι} {i : ι}
  {e : ε} {d d' d₀ depth : Nat}

theorem Agree.mono (h : Agree d p q) (hle : d' ≤ d) : Agree d' p q :=
  fun e he => h e (lt_of_lt_of_le he hle)

theorem Agree.symm (h : Agree d p q) : Agree d q p := fun e he => (h e he).symm

theorem Agree.trans (h : Agree d p q) (h' : Agree d q p₀) : Agree d p p₀ :=
  fun e he => (h e he).trans (h' e he)

theorem agree_succ : Agree (d + 1) p q ↔ Agree d p q ∧ p d = q d := by
  constructor
  · intro h
    exact ⟨h.mono (Nat.le_succ d), h d (Nat.lt_succ_self d)⟩
  · rintro ⟨h, hd⟩ e he
    rcases Nat.lt_succ_iff_lt_or_eq.mp he with he | rfl
    · exact h e he
    · exact hd

theorem node_congr (h : Agree d p q) : node next m root p d = node next m root q d := by
  induction d with
  | zero => rfl
  | succ d ih =>
    obtain ⟨hd, hi⟩ := agree_succ.mp h
    rw [node, node, ih hd, hi]

theorem node_eq
    (h : ∀ e < d, ∀ t, node next m root p e = some t → next (m' t (p e)) = next (m t (p e))) :
    node next m' root p d = node next m root p d := by
  induction d with
  | zero => rfl
  | succ d ih =>
    rw [node, node, ih fun e he => h e (Nat.lt_succ_of_lt he)]
    cases ht : node next m root p d with
    | none => rfl
    | some t => exact h d (Nat.lt_succ_self d) t ht

theorem node_none (h : node next m root p d = none) (hle : d ≤ d') :
    node next m root p d' = none := by
  obtain ⟨k, rfl⟩ := Nat.exists_eq_add_of_le hle
  induction k with
  | zero => exact h
  | succ k ih => rw [← Nat.add_assoc, node, ih (Nat.le_add_right d k), bind_none]

theorem node_absent (ht : node next m root p₀ d₀ = some t) (habsent : next (m t (p₀ d₀)) = none)
    (hp : Agree (d₀ + 1) p p₀) (hd : d₀ < d) : node next m root p d = none := by
  obtain ⟨hagree, hi⟩ := agree_succ.mp hp
  have hfirst : node next m root p (d₀ + 1) = none := by
    rw [node, node_congr hagree, ht, bind_some, hi, habsent]
  exact node_none hfirst hd

theorem node_succ_depth : node next m root p (depth + 1) =
    (leaf next m root depth p).bind next := by
  rw [node, leaf]
  cases node next m root p depth with
  | none => rfl
  | some t =>
    simp only [bind_some]
    cases hn : next (m t (p depth)) with
    | none => rfl
    | some f => exact hn.symm

theorem leaf_eq (hnode : node next m' root p depth = node next m root p depth)
    (h : ∀ t, node next m root p depth = some t → m' t (p depth) = m t (p depth)) :
    leaf next m' root depth p = leaf next m root depth p := by
  rw [leaf, leaf, hnode]
  cases ht : node next m root p depth with
  | none => rfl
  | some t => simp only [bind_some, h t ht]

theorem isTree_of_node (htree : IsTree next m root depth)
    (h : ∀ p d, d ≤ depth → node next m' root p d = node next m root p d) :
    IsTree next m' root depth := by
  intro d d' p q t hd hd' hp hq
  rw [h p d hd] at hp
  rw [h q d' hd'] at hq
  exact htree d d' p q t hd hd' hp hq

/-! ## A table that is not reached -/

section

variable [DecidableEq φ] (f : ι → ε) (ht : ¬ Reached next m root depth t)

include ht

theorem node_update_unreached (hd : d ≤ depth + 1) :
    node next (update m t f) root p d = node next m root p d := by
  apply node_eq
  intro e he x hx
  have hne : x ≠ t := by
    rintro rfl
    exact ht ⟨e, by omega, p, hx⟩
  rw [update_of_ne hne]

theorem leaf_update_unreached :
    leaf next (update m t f) root depth p = leaf next m root depth p := by
  apply leaf_eq (node_update_unreached f ht (Nat.le_succ depth))
  intro x hx
  have hne : x ≠ t := by
    rintro rfl
    exact ht ⟨depth, le_rfl, p, hx⟩
  rw [update_of_ne hne]

end

/-! ## A leaf is written -/

variable [DecidableEq φ] [DecidableEq ι]

def write (m : φ → ι → ε) (t : φ) (i : ι) (e : ε) : φ → ι → ε :=
  update m t (update (m t) i e)

@[simp] theorem write_self : write m t i e t i = e := by simp [write]

theorem write_other {j : ι} (h : x ≠ t ∨ j ≠ i) : write m t i e x j = m x j := by
  unfold write
  by_cases hx : x = t
  · subst hx
    rw [update_self, update_of_ne (h.resolve_left (not_not_intro rfl))]
  · rw [update_of_ne hx]

section

variable (htree : IsTree next m root depth) (ht : node next m root p₀ depth = some t)

include htree ht

theorem node_write_leaf (hd : d ≤ depth) :
    node next (write m t i e) root p d = node next m root p d := by
  apply node_eq
  intro j hj x hx
  have hne : x ≠ t := by
    rintro rfl
    have := (htree j depth p p₀ x (by omega) le_rfl hx ht).1
    omega
  rw [write_other (.inl hne)]

theorem leaf_write_self (hp : Agree (depth + 1) p p₀) (he : (next e).isSome) :
    leaf next (write m t (p₀ depth) e) root depth p = some e := by
  obtain ⟨hd, hi⟩ := agree_succ.mp hp
  rw [leaf, node_write_leaf htree ht le_rfl, node_congr hd, ht, bind_some, hi, write_self,
    if_pos he]

theorem leaf_write_other (hp : ¬ Agree (depth + 1) p p₀) :
    leaf next (write m t (p₀ depth) e) root depth p = leaf next m root depth p := by
  apply leaf_eq (node_write_leaf htree ht le_rfl)
  intro x hx
  apply write_other
  by_contra hsame
  rw [not_or, not_not, not_not] at hsame
  obtain ⟨rfl, hi⟩ := hsame
  have hagree := (htree depth depth p p₀ x le_rfl le_rfl hx ht).2
  exact hp (agree_succ.mpr ⟨hagree, hi⟩)

end

/-! ## A new table without entries is entered in the tree -/

section

variable (htree : IsTree next m root depth) (ht : node next m root p₀ d₀ = some t)
  (hd₀ : d₀ < depth) (habsent : next (m t (p₀ d₀)) = none) (hg : ¬ Reached next m root depth g)
  (hempty : ∀ i, next (m g i) = none) (he : next e = some g)

include htree ht hd₀

theorem node_extend_le (hd : d ≤ d₀) :
    node next (write m t (p₀ d₀) e) root p d = node next m root p d := by
  apply node_eq
  intro j hj x hx
  have hne : x ≠ t := by
    rintro rfl
    have := (htree j d₀ p p₀ x (by omega) (le_of_lt hd₀) hx ht).1
    omega
  rw [write_other (.inl hne)]

theorem node_extend_other (hp : ¬ Agree (d₀ + 1) p p₀) (hd : d ≤ depth + 1) :
    node next (write m t (p₀ d₀) e) root p d = node next m root p d := by
  apply node_eq
  intro j hj x hx
  rw [write_other]
  by_contra hsame
  rw [not_or, not_not, not_not] at hsame
  obtain ⟨rfl, hi⟩ := hsame
  obtain ⟨rfl, hagree⟩ := htree j d₀ p p₀ x (by omega) (le_of_lt hd₀) hx ht
  exact hp (agree_succ.mpr ⟨hagree, hi⟩)

include he in
theorem node_extend_self (hp : Agree (d₀ + 1) p p₀) :
    node next (write m t (p₀ d₀) e) root p (d₀ + 1) = some g := by
  obtain ⟨hd, hi⟩ := agree_succ.mp hp
  rw [node, node_extend_le htree ht hd₀ le_rfl, node_congr hd, ht, bind_some, hi, write_self,
    he]

include hg hempty he in
theorem node_extend_below (hp : Agree (d₀ + 1) p p₀) (hd : d₀ + 1 < d) :
    node next (write m t (p₀ d₀) e) root p d = none := by
  have hgt : g ≠ t := by
    rintro rfl
    exact hg ⟨d₀, le_of_lt hd₀, p₀, ht⟩
  have hfirst : node next (write m t (p₀ d₀) e) root p (d₀ + 1 + 1) = none := by
    rw [node, node_extend_self htree ht hd₀ he hp, bind_some, write_other (.inl hgt), hempty]
  exact node_none hfirst hd

include habsent in
theorem node_extend_mono (hx : node next m root p d = some x) (hd : d ≤ depth) :
    node next (write m t (p₀ d₀) e) root p d = some x := by
  by_cases hp : Agree (d₀ + 1) p p₀
  · by_cases hle : d ≤ d₀
    · rw [node_extend_le htree ht hd₀ hle, hx]
    · rw [node_absent ht habsent hp (Nat.lt_of_not_le hle)] at hx
      cases hx
  · rw [node_extend_other htree ht hd₀ hp (Nat.le_succ_of_le hd), hx]

include hg hempty he in
theorem node_extend_cases (hx : node next (write m t (p₀ d₀) e) root p d = some x)
    (hd : d ≤ depth) :
    (x = g ∧ d = d₀ + 1 ∧ Agree (d₀ + 1) p p₀) ∨ node next m root p d = some x := by
  by_cases hp : Agree (d₀ + 1) p p₀
  · rcases Nat.lt_trichotomy d (d₀ + 1) with hlt | rfl | hlt
    · rw [node_extend_le htree ht hd₀ (Nat.le_of_lt_succ hlt)] at hx
      exact .inr hx
    · rw [node_extend_self htree ht hd₀ he hp] at hx
      exact .inl ⟨(some.inj hx).symm, rfl, hp⟩
    · rw [node_extend_below htree ht hd₀ hg hempty he hp hlt] at hx
      cases hx
  · rw [node_extend_other htree ht hd₀ hp (Nat.le_succ_of_le hd)] at hx
    exact .inr hx

include hg hempty he in
theorem isTree_extend : IsTree next (write m t (p₀ d₀) e) root depth := by
  intro d d' p q x hd hd' hp hq
  rcases node_extend_cases htree ht hd₀ hg hempty he hp hd with ⟨rfl, rfl, hpa⟩ | hp'
  · rcases node_extend_cases htree ht hd₀ hg hempty he hq hd' with ⟨-, rfl, hqa⟩ | hq'
    · exact ⟨rfl, hpa.trans hqa.symm⟩
    · exact absurd ⟨d', hd', q, hq'⟩ hg
  · rcases node_extend_cases htree ht hd₀ hg hempty he hq hd' with ⟨rfl, -, -⟩ | hq'
    · exact absurd ⟨d, hd, p, hp'⟩ hg
    · exact htree d d' p q x hd hd' hp' hq'

include hg hempty he in
theorem reached_extend (hx : Reached next (write m t (p₀ d₀) e) root depth x) :
    x = g ∨ Reached next m root depth x := by
  obtain ⟨d, hd, p, hp⟩ := hx
  rcases node_extend_cases htree ht hd₀ hg hempty he hp hd with ⟨hxg, -, -⟩ | hp
  · exact .inl hxg
  · exact .inr ⟨d, hd, p, hp⟩

include habsent hg hempty he in
theorem leaf_extend : leaf next (write m t (p₀ d₀) e) root depth p = leaf next m root depth p := by
  have hgt : g ≠ t := by
    rintro rfl
    exact hg ⟨d₀, le_of_lt hd₀, p₀, ht⟩
  by_cases hp : Agree (d₀ + 1) p p₀
  · have hbefore : leaf next m root depth p = none := by
      rw [leaf, node_absent ht habsent hp hd₀, bind_none]
    rw [hbefore, leaf]
    rcases Nat.lt_or_eq_of_le hd₀ with hlt | heq
    · rw [node_extend_below htree ht hd₀ hg hempty he hp hlt, bind_none]
    · subst heq
      rw [node_extend_self htree ht hd₀ he hp, bind_some, write_other (.inl hgt), hempty]
      rfl
  · apply leaf_eq (node_extend_other htree ht hd₀ hp (Nat.le_succ depth))
    intro x hx
    apply write_other
    left
    rintro rfl
    have := (htree depth d₀ p p₀ x le_rfl (le_of_lt hd₀) hx ht).1
    omega

end

end Guk.Radix
