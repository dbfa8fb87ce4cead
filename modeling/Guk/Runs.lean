import Mathlib.Logic.Basic

/-!
# Runs of labelled step functions

A system is a partial step function `step : σ → α → Option σ`. The label holds
everything the code does not decide by itself: which thread moves, what its
environment answers. `none` means that the step is not possible in this state,
or that the code stops there.

`Reach step ok init s` says that `s` is reached from an initial state by steps
that all meet the condition `ok` in the state they start from.
-/
namespace Guk.Runs

open Option

variable {σ α : Type} {step : σ → α → Option σ} {ok : σ → α → Prop} {init P : σ → Prop} {s t u : σ}
  {c : Prop}

inductive Reach (step : σ → α → Option σ) (ok : σ → α → Prop) (init : σ → Prop) : σ → Prop where
  | start {s : σ} (h : init s) : Reach step ok init s
  | next {s t : σ} (a : α) (h : Reach step ok init s) (hok : ok s a) (hs : step s a = some t) :
      Reach step ok init t

theorem of_when [Decidable c] (h : (if c then some s else none) = some t) : c ∧ s = t := by
  obtain ⟨hc, h⟩ := ite_none_right_eq_some.mp h
  exact ⟨hc, some.inj h⟩

theorem of_unless [Decidable c] (h : (if c then none else some s) = some t) :
    ¬ c ∧ s = t := by
  obtain ⟨hc, h⟩ := ite_none_left_eq_some.mp h
  exact ⟨hc, some.inj h⟩

def anyStep (_ : σ) (_ : α) : Prop := True

theorem Reach.invariant {I : σ → Prop} (hinit : ∀ s, init s → I s)
    (hstep : ∀ s a t, I s → ok s a → step s a = some t → I t)
    (h : Reach step ok init s) : I s := by
  induction h with
  | start h => exact hinit _ h
  | next a _ hok hs ih => exact hstep _ a _ ih hok hs

def run (step : σ → α → Option σ) : σ → List α → Option σ
  | s, [] => some s
  | s, a :: labels => (step s a).bind fun t => run step t labels

theorem Reach.runOk (h : Reach step ok init s) (labels : List α)
    (hok : ∀ a ∈ labels, ∀ s, ok s a) (hr : run step s labels = some t) : Reach step ok init t := by
  induction labels generalizing s with
  | nil =>
    cases hr
    exact h
  | cons a labels ih =>
    obtain ⟨u, hu, hr⟩ := bind_eq_some_iff.mp hr
    obtain ⟨ha, hok⟩ := List.forall_mem_cons.mp hok
    exact ih (.next a h (ha s) hu) hok hr

theorem Reach.run (h : Reach step anyStep init s) (labels : List α)
    (hr : run step s labels = some t) : Reach step anyStep init t :=
  h.runOk labels (fun _ _ _ => trivial) hr

theorem Reach.runTo [DecidablePred P] (h : Reach step anyStep init s)
    (labels : List α) (hr : (Runs.run step s labels).any (fun t => decide (P t)) = true) :
    ∃ t, Reach step anyStep init t ∧ P t := by
  obtain ⟨t, ht, hp⟩ := (Option.any_eq_true _ _).mp hr
  exact ⟨t, h.run labels ht, of_decide_eq_true hp⟩

def guarded (step : σ → α → Option σ) (ok : σ → α → Prop) [∀ s a, Decidable (ok s a)] (s : σ)
    (a : α) :
    Option σ :=
  if ok s a then step s a else none

theorem Reach.runGuarded [∀ s a, Decidable (ok s a)] (h : Reach step ok init s)
    (labels : List α) (hr : Runs.run (guarded step ok) s labels = some t) :
    Reach step ok init t := by
  induction labels generalizing s with
  | nil =>
    cases hr
    exact h
  | cons a labels ih =>
    obtain ⟨u, hu, hr⟩ := bind_eq_some_iff.mp hr
    obtain ⟨hok, hu⟩ := ite_none_right_eq_some.mp hu
    exact ih (.next a h hok hu) hr

theorem Reach.runGuardedTo [DecidablePred P] [∀ s a, Decidable (ok s a)]
    (h : Reach step ok init s) (labels : List α)
    (hr : (Runs.run (guarded step ok) s labels).any (fun t => decide (P t)) = true) :
    ∃ t, Reach step ok init t ∧ P t := by
  obtain ⟨t, ht, hp⟩ := (Option.any_eq_true _ _).mp hr
  exact ⟨t, h.runGuarded labels ht, of_decide_eq_true hp⟩

def Leads (step : σ → α → Option σ) (s t : σ) : Prop := ∃ labels, run step s labels = some t

theorem Leads.refl (s : σ) : Leads step s s := ⟨[], rfl⟩

theorem Leads.head (a : α) (hs : step s a = some t) (h : Leads step t u) : Leads step s u := by
  obtain ⟨labels, hr⟩ := h
  exact ⟨a :: labels, bind_eq_some_iff.mpr ⟨t, hs, hr⟩⟩

theorem Leads.trans (h : Leads step s t) (h' : Leads step t u) : Leads step s u := by
  obtain ⟨labels, hr⟩ := h
  induction labels generalizing s with
  | nil =>
    cases hr
    exact h'
  | cons a labels ih =>
    obtain ⟨v, hv, hr⟩ := bind_eq_some_iff.mp hr
    exact .head a hv (ih hr)

end Guk.Runs
