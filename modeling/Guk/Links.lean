import Mathlib.Data.List.Nodup

/-!
# Nodes that are linked into one of several lists

`lists k` is the sequence of the nodes in list `k`, and `loc x` the list that node
`x` is linked into, if any. `Linked` says that the two agree: no node is in two
lists, or twice in one.
-/
namespace Guk.Links

open Function List

variable {ι κ : Type} [DecidableEq ι]

structure Linked (lists : κ → List ι) (loc : ι → Option κ) : Prop where
  nodup : ∀ k, (lists k).Nodup
  mem : ∀ k x, x ∈ lists k ↔ loc x = some k

def unlink (lists : κ → List ι) (x : ι) (k : κ) : List ι := (lists k).filter (· ≠ x)

def append [DecidableEq κ] (lists : κ → List ι) (k : κ) (x : ι) : κ → List ι :=
  Function.update lists k (lists k ++ [x])

variable {lists : κ → List ι} {loc : ι → Option κ} {x : ι}

theorem linked_unlink (h : Linked lists loc) (x : ι) :
    Linked (unlink lists x) (update loc x none) := by
  refine ⟨fun k => (h.nodup k).filter _, ?_⟩
  intro k y
  rw [unlink, mem_filter, h.mem, update_apply]
  by_cases hy : y = x
  · simp [hy]
  · simp [hy]

theorem unlink_eq [DecidableEq κ] (h : Linked lists loc) {k : κ} (hx : loc x = some k) :
    unlink lists x = update lists k ((lists k).filter (· ≠ x)) := by
  funext j
  rw [update_apply]
  split
  · rename_i hj
    rw [hj, unlink]
  · rename_i hj
    rw [unlink, filter_eq_self]
    intro y hy
    have hne : y ≠ x := by
      rintro rfl
      exact hj (Option.some.inj (((h.mem j y).mp hy).symm.trans hx))
    simpa using hne

theorem linked_append [DecidableEq κ] (h : Linked lists loc) (hx : loc x = none) (k : κ) :
    Linked (append lists k x) (update loc x (some k)) := by
  have hnot : ∀ j, x ∉ lists j := by
    intro j hj
    rw [h.mem, hx] at hj
    cases hj
  constructor
  · intro j
    rw [append, update_apply]
    split
    · exact nodup_append.mpr ⟨h.nodup k, nodup_singleton x, by
        intro a ha b hb
        rw [mem_singleton.mp hb]
        rintro rfl
        exact hnot k ha⟩
    · exact h.nodup j
  · intro j y
    rw [append, update_apply, update_apply]
    by_cases hj : j = k <;> by_cases hy : y = x
    · simp [hj, hy]
    · simp [hj, hy, h.mem]
    · simp [hj, hy, hnot, Ne.symm hj]
    · simp [hj, hy, h.mem]

end Guk.Links
