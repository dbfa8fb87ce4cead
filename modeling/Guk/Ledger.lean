import Mathlib.Tactic.Common

/-!
# A ledger of resources

A resource is free, was in use before the books were opened, is held by somebody,
or is lost: in use, and held by nobody any more. Taking free resources, losing
them, and giving up everything one holds are the entries; at the end the
resources in use are those of the beginning just when nothing has been lost.
-/
namespace Guk.Ledger

open Classical

inductive Owner (τ : Type) where
  | free
  | before
  | holder (t : τ)
  | lost

variable {ρ τ : Type} {used used' before : ρ → Bool} {holds holds' : τ → ρ → Prop}
  {own : ρ → Owner τ} {t : τ} {r : ρ} {P : ρ → Prop}

/-- The owner that the ledger has for each resource agrees with what is in use, with
what was in use at first, and with what everybody holds. -/
structure Balanced (used before : ρ → Bool) (holds : τ → ρ → Prop) (own : ρ → Owner τ) : Prop where
  used : ∀ r, used r = true ↔ own r ≠ .free
  before : ∀ r, before r = true ↔ own r = .before
  holds : ∀ t r, holds t r ↔ own r = .holder t

noncomputable def opening (before : ρ → Bool) (r : ρ) : Owner τ :=
  if before r then .before else .free

noncomputable def transfer (own : ρ → Owner τ) (P : ρ → Prop) (o : Owner τ) (r : ρ) : Owner τ :=
  if P r then o else own r

noncomputable def giveUp (own : ρ → Owner τ) (t : τ) (K : ρ → Prop) (r : ρ) : Owner τ :=
  if own r = .holder t then if K r then .lost else .free else own r

namespace Balanced

theorem open_books (h : ∀ t r, ¬ holds t r) : Balanced before before holds (opening before) := by
  constructor
  · intro r
    cases hr : before r <;> simp [opening, hr]
  · intro r
    cases hr : before r <;> simp [opening, hr]
  · intro t r
    cases hr : before r <;> simp [opening, hr, h t r]

section

variable (h : Balanced used before holds own)

include h

theorem owner_free (hr : used r = false) : own r = .free := by
  by_contra hne
  rw [(h.used r).mpr hne] at hr
  cases hr

theorem not_holds (hr : used r = false) : ¬ holds t r := by
  rw [h.holds, h.owner_free hr]
  exact nofun

section

variable (hfresh : ∀ r, P r → used r = false)

include hfresh

theorem transfer_free {o : Owner τ} (hused : ∀ r, used' r = true ↔ P r ∨ used r = true)
    (hfree : o ≠ .free) (hbefore : o ≠ .before)
    (hholds : ∀ u r, holds' u r ↔ (o = .holder u ∧ P r) ∨ holds u r) :
    Balanced used' before holds' (transfer own P o) := by
  constructor
  · intro r
    rw [hused, h.used]
    by_cases hr : P r <;> simp [transfer, hr, hfree]
  · intro r
    rw [h.before]
    by_cases hr : P r
    · simp [transfer, hr, h.owner_free (hfresh r hr), hbefore]
    · simp [transfer, hr]
  · intro u r
    rw [hholds, h.holds]
    by_cases hr : P r
    · simp [transfer, hr, h.owner_free (hfresh r hr)]
    · simp [transfer, hr]

theorem take (hused : ∀ r, used' r = true ↔ P r ∨ used r = true)
    (hholds : ∀ u r, holds' u r ↔ (u = t ∧ P r) ∨ holds u r) :
    Balanced used' before holds' (transfer own P (.holder t)) := by
  refine h.transfer_free hfresh hused (by simp) (by simp) ?_
  intro u r
  rw [hholds, Owner.holder.injEq, eq_comm]

theorem lose (hused : ∀ r, used' r = true ↔ P r ∨ used r = true) :
    Balanced used' before holds (transfer own P .lost) := by
  refine h.transfer_free hfresh hused (by simp) (by simp) ?_
  intro u r
  simp

end

theorem drop {K : ρ → Prop} (hused : ∀ r, used' r = true ↔ used r = true ∧ (holds t r → K r))
    (hholds : ∀ u r, holds' u r ↔ u ≠ t ∧ holds u r) :
    Balanced used' before holds' (giveUp own t K) := by
  constructor
  · intro r
    rw [hused, h.used, h.holds]
    by_cases hr : own r = .holder t
    · by_cases hk : K r <;> simp [giveUp, hr, hk]
    · simp [giveUp, hr]
  · intro r
    rw [h.before]
    by_cases hr : own r = .holder t
    · by_cases hk : K r <;> simp [giveUp, hr, hk]
    · simp [giveUp, hr]
  · intro u r
    rw [hholds, h.holds]
    by_cases hr : own r = .holder t
    · by_cases hk : K r <;> simp [giveUp, hr, hk, eq_comm]
    · simp only [giveUp, hr, if_false, and_iff_right_iff_imp]
      intro hu hut
      rw [hut] at hu
      exact hr hu

theorem settled (hnone : ∀ t r, ¬ holds t r) : used = before ↔ ∀ r, own r ≠ .lost := by
  constructor
  · intro heq r hlost
    have hr := (h.used r).mpr (by simp [hlost])
    rw [heq, h.before, hlost] at hr
    cases hr
  · intro hlost
    funext r
    rw [Bool.eq_iff_iff, h.used, h.before]
    cases hr : own r with
    | free | before => simp
    | holder t => exact absurd ((h.holds t r).mpr hr) (hnone t r)
    | lost => exact absurd hr (hlost r)

end

end Balanced

end Guk.Ledger
