import Mathlib.Data.List.Nodup
import Mathlib.Logic.Function.Iterate

/-!
# Free lists threaded through an array

A cell of the array holds the index of the next free cell; the chain ends at a
distinguished index `stop`. The head of the list is kept in some cell of the
same array or elsewhere, so a chain is described from its first index on.
-/
namespace Guk.Chain

open Function List

variable {α : Type}

/-- Starting at `h` and following `next`, the cells visited before `stop` are
exactly those of the list, in this order. -/
def Follows (next : α → α) (stop : α) : α → List α → Prop
  | h, [] => h = stop
  | h, r :: rest => h = r ∧ r ≠ stop ∧ Follows next stop (next r) rest

variable {next next' : α → α} {stop h r : α} {l l' : List α}

@[simp] theorem follows_nil : Follows next stop h [] ↔ h = stop := Iff.rfl
section

variable (hc : Follows next stop h l)

include hc

theorem stop_not_mem : stop ∉ l := by
  induction l generalizing h with
  | nil => simp
  | cons r l ih =>
    obtain ⟨_, hne, hrest⟩ := hc
    intro hm
    rcases List.mem_cons.mp hm with he | hm
    · exact hne he.symm
    · exact ih hrest hm

theorem follows_unique (hc' : Follows next stop h l') : l = l' := by
  induction l generalizing h l' with
  | nil =>
    cases l' with
    | nil => rfl
    | cons r' l' => exact absurd (hc'.1.symm.trans hc) hc'.2.1
  | cons r l ih =>
    cases l' with
    | nil => exact absurd (hc.1.symm.trans hc') hc.2.1
    | cons r' l' =>
      obtain ⟨rfl, _, hrest⟩ := hc
      obtain ⟨rfl, _, hrest'⟩ := hc'
      rw [ih hrest hrest']

theorem follows_suffix (hr : r ∈ l) : ∃ pre suf, l = pre ++ suf ∧ Follows next stop r suf := by
  induction l generalizing h with
  | nil => simp at hr
  | cons a l ih =>
    rcases List.mem_cons.mp hr with rfl | hr
    · exact ⟨[], r :: l, rfl, rfl, hc.2.1, hc.2.2⟩
    · obtain ⟨pre, suf, rfl, hs⟩ := ih hc.2.2 hr
      exact ⟨a :: pre, suf, rfl, hs⟩

theorem follows_nodup : l.Nodup := by
  induction l generalizing h with
  | nil => exact nodup_nil
  | cons r l ih =>
    obtain ⟨rfl, hne, hrest⟩ := hc
    refine List.nodup_cons.mpr ⟨?_, ih hrest⟩
    intro hm
    obtain ⟨pre, suf, hl, hs⟩ := follows_suffix hrest hm
    have he : h :: l = suf := follows_unique ⟨rfl, hne, hrest⟩ hs
    have hlen := congrArg List.length he
    rw [hl] at hlen
    simp only [length_cons, length_append] at hlen
    omega

end

theorem follows_congr (hagree : ∀ r ∈ l, next' r = next r) (hc : Follows next stop h l) :
    Follows next' stop h l := by
  induction l generalizing h with
  | nil => exact hc
  | cons r l ih =>
    obtain ⟨rfl, hne, hrest⟩ := hc
    refine ⟨rfl, hne, ?_⟩
    rw [hagree h mem_cons_self]
    exact ih (fun r hr => hagree r (mem_cons_of_mem _ hr)) hrest

section

variable (hc : Follows next stop h l)

include hc

theorem follows_iterate (hr : r ∈ l ∨ r = stop) : ∃ k, next^[k] h = r := by
  induction l generalizing h with
  | nil =>
    rcases hr with hr | rfl
    · simp at hr
    · exact ⟨0, hc⟩
  | cons a l ih =>
    obtain ⟨rfl, _, hrest⟩ := hc
    by_cases he : r = h
    · exact ⟨0, he.symm⟩
    · have hr : r ∈ l ∨ r = stop := by
        rcases hr with hr | hr
        · exact .inl ((List.mem_cons.mp hr).resolve_left he)
        · exact .inr hr
      obtain ⟨k, hk⟩ := ih hrest hr
      exact ⟨k + 1, hk⟩

theorem follows_head : h ∈ l ∨ h = stop := by
  cases l with
  | nil => exact .inr hc
  | cons r l => exact .inl (by simp [hc.1])

theorem follows_next (hr : r ∈ l) : next r ∈ l ∨ next r = stop := by
  induction l generalizing h with
  | nil => cases hr
  | cons a l ih =>
    have hrest := hc.2.2
    have htail : next r ∈ l ∨ next r = stop := by
      rcases List.mem_cons.mp hr with he | hr
      · rw [he]
        exact follows_head hrest
      · exact ih hrest hr
    exact htail.imp_left (mem_cons_of_mem a)

end

theorem follows_iterate_mem (hc : Follows next stop (next stop) l) (k : Nat) :
    next^[k] (next stop) ∈ l ∨ next^[k] (next stop) = stop := by
  induction k with
  | zero => exact follows_head hc
  | succ k ih =>
    rw [iterate_succ_apply']
    rcases ih with hm | hs
    · exact follows_next hc hm
    · rw [hs]
      exact follows_head hc

variable [DecidableEq α]

theorem follows_push (hc : Follows next stop h l) (hne : r ≠ stop) (hr : r ∉ l) :
    Follows (update next r h) stop r (r :: l) := by
  refine ⟨rfl, hne, ?_⟩
  rw [update_self]
  refine follows_congr (fun x hx => update_of_ne ?_ _ _) hc
  rintro rfl
  exact hr hx

theorem follows_update (hc : Follows next stop h l) (hr : r ∉ l) (v : α) :
    Follows (update next r v) stop h l := by
  refine follows_congr (fun x hx => update_of_ne ?_ _ _) hc
  rintro rfl
  exact hr hx

/-! ## Lists with their head in the cell `stop` -/

theorem follows_pop (hc : Follows next stop (next stop) l) (hr : next stop = r) (hne : r ≠ stop) :
    r ∈ l ∧ ∃ l', Follows (update next stop (next r)) stop (next r) l' ∧
      ∀ x, x ∈ l' ↔ x ∈ l ∧ x ≠ r := by
  cases l with
  | nil => exact absurd (hr.symm.trans hc) hne
  | cons a l =>
    obtain rfl : a = r := hc.1.symm.trans hr
    have hnot : a ∉ l := (List.nodup_cons.mp (follows_nodup hc)).1
    have hrest := hc.2.2
    refine ⟨mem_cons_self, l, follows_update hrest (stop_not_mem hrest) _, ?_⟩
    intro x
    rw [mem_cons]
    constructor
    · intro hx
      exact ⟨.inr hx, ne_of_mem_of_not_mem hx hnot⟩
    · rintro ⟨hx, hxa⟩
      exact hx.resolve_left hxa

theorem follows_put (hc : Follows next stop (next stop) l) (hne : r ≠ stop) (hr : r ∉ l) :
    Follows (update (update next r (next stop)) stop r) stop r (r :: l) := by
  have hpush := follows_push hc hne hr
  exact follows_update hpush (stop_not_mem hpush) r

end Guk.Chain
