import Mathlib.Data.List.Sort

/-!
# Lists in the order of a key

A list is kept in ascending order of a key, and elements with one key in the order in
which they arrived. A new element goes in front of the first one with a larger key.
-/
namespace Guk.StableOrder

open List

variable {α κ : Type} [LinearOrder κ] {key key' : α → κ} {arrivals l : List α} {a b x : α}
  {bound : κ}

/-- `a` comes before `b`: its key is smaller, or it is the same and `a` arrived first. -/
def Precedes (key : α → κ) (arrivals : List α) (a b : α) : Prop :=
  key a < key b ∨ key a = key b ∧ [a, b].Sublist arrivals

def InOrder (key : α → κ) (arrivals l : List α) : Prop := l.Pairwise (Precedes key arrivals)

theorem Precedes.le (h : Precedes key arrivals a b) : key a ≤ key b := by
  rcases h with hlt | ⟨heq, -⟩
  · exact le_of_lt hlt
  · exact le_of_eq heq

section

variable (h : InOrder key arrivals l)

include h

theorem InOrder.sorted : l.Pairwise fun a b => key a ≤ key b :=
  h.imp Precedes.le

theorem InOrder.congr (hkey : ∀ a ∈ l, key' a = key a) : InOrder key' arrivals l := by
  apply h.imp_of_mem
  intro a b ha hb hab
  unfold Precedes
  rw [hkey a ha, hkey b hb]
  exact hab

theorem InOrder.insert (hmem : ∀ a ∈ l, a ∈ arrivals) (x : α) :
    InOrder key (arrivals ++ [x]) (l.orderedInsert (fun a b => key a < key b) x) := by
  induction l with
  | nil => exact pairwise_singleton _ x
  | cons b l ih =>
    obtain ⟨hb, hl⟩ := List.pairwise_cons.mp h
    have hmono : ∀ a c, Precedes key arrivals a c → Precedes key (arrivals ++ [x]) a c := by
      rintro a c (hlt | ⟨heq, hsub⟩)
      · exact .inl hlt
      · exact .inr ⟨heq, hsub.trans (sublist_append_left arrivals [x])⟩
    rw [orderedInsert_cons]
    split
    case isTrue hlt =>
      refine List.pairwise_cons.mpr ⟨?_, h.imp (hmono _ _)⟩
      intro c hc
      rcases List.mem_cons.mp hc with rfl | hc
      · exact .inl hlt
      · exact .inl (lt_of_lt_of_le hlt (hb c hc).le)
    case isFalse hnot =>
      refine List.pairwise_cons.mpr ⟨?_, ih hl fun a ha => hmem a (mem_cons_of_mem b ha)⟩
      intro c hc
      rcases (mem_orderedInsert _).mp hc with rfl | hc
      · rcases lt_or_eq_of_le (not_lt.mp hnot) with hlt | heq
        · exact .inl hlt
        · exact .inr ⟨heq, (List.singleton_sublist.mpr (hmem b mem_cons_self)).append (.refl [c])⟩
      · exact hmono _ _ (hb c hc)

end

theorem InOrder.remove [DecidableEq α] (h : InOrder key arrivals l) (x : α) :
    InOrder key (arrivals.filter (· ≠ x)) (l.filter (· ≠ x)) := by
  apply (h.filter _).imp_of_mem
  intro a b ha hb hab
  have hkept : [a, b].filter (· ≠ x) = [a, b] := by
    simp only [filter_cons, (List.mem_filter.mp ha).2, (List.mem_filter.mp hb).2, if_true,
      filter_nil]
  refine hab.imp_right fun ⟨heq, hsub⟩ => ⟨heq, ?_⟩
  rw [← hkept]
  exact hsub.filter _

theorem above_of_head (h : (x :: l).Pairwise fun a b => key a ≤ key b) (hx : bound < key x) :
    ∀ a ∈ x :: l, bound < key a := by
  intro a ha
  rcases List.mem_cons.mp ha with rfl | ha
  · exact hx
  · exact lt_of_lt_of_le hx ((List.pairwise_cons.mp h).1 a ha)

end Guk.StableOrder
