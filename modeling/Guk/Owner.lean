import Mathlib.Data.List.Nodup
import Mathlib.Data.List.Perm.Subperm

/-!
# Exclusive ownership

Agents `ι` hold at most one resource `κ` each: `own t = some k` says that `t`
holds `k`. Taking a resource nobody holds and giving one back keep ownership
exclusive, and change the set of resources nobody holds by exactly that one.
With fewer holders than resources, one resource is left.
-/
namespace Guk.Owner

open Function List

variable {ι κ : Type}

def Exclusive (own : ι → Option κ) : Prop :=
  ∀ t u k, own t = some k → own u = some k → t = u

def Unowned (own : ι → Option κ) (k : κ) : Prop := ∀ t, own t ≠ some k

/-- Fewer than `n` agents hold something. -/
def Fewer (own : ι → Option κ) (n : Nat) : Prop :=
  ∃ holders : List ι, holders.length < n ∧ ∀ t, own t ≠ none → t ∈ holders

theorem exists_unowned {own : ι → Option κ} {ks : List κ} (hnodup : ks.Nodup)
    (hfewer : Fewer own ks.length) : ∃ k ∈ ks, Unowned own k := by
  obtain ⟨holders, hlt, hin⟩ := hfewer
  by_contra hall
  have hsub : ks.map some ⊆ holders.map own := by
    intro o ho
    obtain ⟨k, hk, rfl⟩ := mem_map.mp ho
    by_contra hnot
    refine hall ⟨k, hk, fun t ht => hnot (mem_map.mpr ⟨t, hin t ?_, ht⟩)⟩
    simp [ht]
  have hlen := (subperm_of_subset (hnodup.map fun _ _ => Option.some.inj) hsub).length_le
  rw [length_map, length_map] at hlen
  omega

variable [DecidableEq ι] {own : ι → Option κ} {t : ι} {i k : κ}

theorem exclusive_take (h : Exclusive own) (hk : Unowned own k) :
    Exclusive (update own t (some k)) := by
  intro u v i hu hv
  simp only [update_apply] at hu hv
  split at hu <;> split at hv
  · rename_i hut hvt
    rw [hut, hvt]
  · cases hu
    exact absurd hv (hk v)
  · cases hv
    exact absurd hu (hk u)
  · exact h u v i hu hv

theorem exclusive_drop (h : Exclusive own) : Exclusive (update own t none) := by
  intro u v i hu hv
  simp only [update_apply] at hu hv
  split at hu
  · cases hu
  · split at hv
    · cases hv
    · exact h u v i hu hv

theorem unowned_take (ht : own t = none) :
    Unowned (update own t (some k)) i ↔ Unowned own i ∧ i ≠ k := by
  constructor
  · intro h
    refine ⟨fun u hu => ?_, ?_⟩
    · by_cases hut : u = t
      · rw [hut, ht] at hu
        cases hu
      · exact h u (by rw [update_of_ne hut, hu])
    · rintro rfl
      exact h t (update_self ..)
  · rintro ⟨h, hne⟩ u hu
    simp only [update_apply] at hu
    split at hu
    · cases hu
      exact hne rfl
    · exact h u hu

theorem unowned_drop (h : Exclusive own) (ht : own t = some k) :
    Unowned (update own t none) i ↔ Unowned own i ∨ i = k := by
  constructor
  · intro hu
    by_cases hi : i = k
    · exact .inr hi
    · left
      intro u hui
      by_cases hut : u = t
      · rw [hut, ht] at hui
        cases hui
        exact hi rfl
      · exact hu u (by rw [update_of_ne hut, hui])
  · rintro (hu | rfl) v hv <;> simp only [update_apply] at hv <;> split at hv
    · cases hv
    · exact hu v hv
    · cases hv
    · rename_i hvt
      exact hvt (h v t _ hv ht)

end Guk.Owner
