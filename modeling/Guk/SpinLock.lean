import Guk.Owner
import Guk.Runs
import Mathlib.Data.Nat.Basic

/-!
# Spinlocks (`spinlock.c`, `arch_spinlock.h`)

Elsewhere a section under a spinlock is one step, since no two threads are in sections
under the same lock. Here any number of threads use one lock, and each access to it is a
step. `preempt_disable` and `local_irq_save` concern the thread alone and come with the
access behind them. Sections under other locks leave the counters and the interrupt flag
of a thread as they were: `base` is what the thread has outside all sections of this lock.
-/
namespace Guk.SpinLock

open Owner Runs Function

/-- Where a thread is in a function with or without `irqsave`, or behind it with the saved flags. -/
inductive Pc where
  | run
  /-- at `_raw_spin_trylock` -/
  | trying (irqsave : Bool)
  /-- at the test of `break_lock` behind a failure -/
  | failed (irqsave : Bool)
  | breaking (irqsave : Bool)
  /-- at `spin_can_lock`, and then at `break_lock` -/
  | testLock (irqsave : Bool)
  | testBreak (irqsave : Bool)
  | counting (irqsave : Bool)
  /-- has the lock, at `break_lock = 0` -/
  | got (flags : Option Bool)
  /-- at the writes behind it -/
  | reset (flags : Option Bool)
  | locked (flags : Option Bool)
  deriving DecidableEq, Repr

structure Thread where
  lockCount : Int
  preemptCount : Nat
  irq : Bool
  deriving DecidableEq, Repr

/-- The fields of the lock; `owner` is written by `guk_spin_lock_irqsave` only. -/
structure State where
  slock : Nat
  breakLock : Bool
  spinCount : Nat
  owner : Option Nat
  thread : Nat → Thread
  pc : Nat → Pc

inductive Label where
  | lock (t : Nat) (irqsave : Bool)
  | thread (t : Nat)
  | unlock (t : Nat)
  deriving DecidableEq, Repr

def spinLockMax : Nat := 100000000

section

variable (s : State) (t : Nat)

def goto (pc : Pc) : State := { s with pc := update s.pc t pc }

/-- `preempt_disable`, `local_irq_save` and `_raw_spin_trylock`; a failure takes the first two
back. -/
def tryLock (irqsave : Bool) : State :=
  if 0 < s.slock then
    { s with
      slock := 0
      thread := update s.thread t { s.thread t with
        preemptCount := (s.thread t).preemptCount + 1, irq := (s.thread t).irq && !irqsave }
      pc := update s.pc t (.got (if irqsave then some (s.thread t).irq else none)) }
  else goto { s with slock := 0 } t (.failed irqsave)

/-- `none` where `crash_exit_backtrace` stops the system. -/
def stepThread : Option State :=
  match s.pc t with
  | .run | .locked _ => none
  | .trying q => some (tryLock s t q)
  | .failed q => some (goto s t (if s.breakLock then .testLock q else .breaking q))
  | .breaking q => some (goto { s with breakLock := true } t (.testLock q))
  | .testLock q => some (goto s t (if 0 < s.slock then .trying q else .testBreak q))
  | .testBreak q => some (goto s t (if s.breakLock then .counting q else .trying q))
  | .counting q =>
    if spinLockMax < s.spinCount + 1 then none
    else some (goto { s with spinCount := s.spinCount + 1 } t (.testLock q))
  | .got f => some (goto { s with breakLock := false } t (.reset f))
  | .reset f =>
    some (goto { s with
      spinCount := 0
      owner := if f.isSome then some t else s.owner
      thread := update s.thread t { s.thread t with lockCount := (s.thread t).lockCount + 1 } } t
        (.locked f))

def step : Label → Option State
  | .lock t q => if s.pc t = .run then some (goto s t (.trying q)) else none
  | .thread t => stepThread s t
  -- `none` where `DEBUG_LOCKS` stops the system
  | .unlock t =>
    match s.pc t with
    | .locked f =>
      if (s.thread t).lockCount - 1 < 0 then none
      else some (goto { s with
        slock := 1
        thread := update s.thread t ⟨(s.thread t).lockCount - 1, (s.thread t).preemptCount - 1,
          f.getD (s.thread t).irq⟩ } t .run)
    | _ => none

structure Initial (base : Nat → Thread) : Prop where
  lock : s.slock = 1 ∧ s.breakLock = false ∧ s.spinCount = 0 ∧ s.owner = none
  thread : s.thread = base
  counted : ∀ t, 0 ≤ (base t).lockCount
  pc : ∀ t, s.pc t = .run

end

/-- From a successful `trylock` to the release, with the saved flags. -/
@[simp] def Pc.hand : Pc → Option (Option Bool)
  | .got f | .reset f | .locked f => some f
  | _ => none

@[simp] def Pc.isLocked : Pc → Bool
  | .locked _ => true
  | _ => false

/-- What a thread should have at a place in the program. -/
def Thread.within (b : Thread) (pc : Pc) : Thread :=
  ⟨b.lockCount + pc.isLocked.toNat, b.preemptCount + pc.hand.isSome.toNat,
    b.irq && pc.hand.all Option.isNone⟩

/-- Sections exclude each other, the counters and the interrupt flag are right, and no release stops
the system. -/
structure Works (base : Nat → Thread) (s : State) : Prop where
  alone : ∀ t u, (s.pc t).hand ≠ none → (s.pc u).hand ≠ none → t = u
  taken : s.slock = 0 ↔ ∃ t, (s.pc t).hand ≠ none
  thread : ∀ t, s.thread t = (base t).within (s.pc t)
  released : ∀ t f, s.pc t = .locked f → (step s (.unlock t)).isSome = true

/-! ## The invariant -/

@[simp] def Pc.own (pc : Pc) : Option Unit := pc.hand.map fun _ => ()

structure Inv (base : Nat → Thread) (s : State) : Prop where
  counted : ∀ t, 0 ≤ (base t).lockCount
  excl : Exclusive (Pc.own ∘ s.pc)
  slock : s.slock ≤ 1 ∧ (s.slock = 1 ↔ Unowned (Pc.own ∘ s.pc) ())
  thread : ∀ t, s.thread t = (base t).within (s.pc t)
  flags : ∀ t f, (s.pc t).hand = some (some f) → f = (base t).irq

variable {base : Nat → Thread} {s u : State} {t : Nat} {q : Bool} {pc : Pc} {f : Option Bool}

theorem inv_initial (h : Initial s base) : Inv base s := by
  refine ⟨h.counted, fun t u k hk => ?_, ⟨le_of_eq h.lock.1, ?_⟩, fun t => ?_, fun t f hf => ?_⟩
  · simp [h.pc] at hk
  · simp [h.lock.1, Unowned, h.pc]
  · rw [h.thread, h.pc]
    simp [Thread.within]
  · simp [h.pc] at hf

theorem inv_update (h : Inv base s) (pc : Pc) (slock : Nat)
    (hexcl : Exclusive (Pc.own ∘ update s.pc t pc))
    (hslock : slock ≤ 1 ∧ (slock = 1 ↔ Unowned (Pc.own ∘ update s.pc t pc) ()))
    (hflags : ∀ f, pc.hand = some (some f) → f = (base t).irq) :
    Inv base { s with
      slock := slock, thread := update s.thread t ((base t).within pc), pc :=
        update s.pc t pc } := by
  refine ⟨h.counted, hexcl, hslock, fun v => ?_, fun v f hf => ?_⟩ <;> by_cases hv : v = t
  · simp [hv]
  · simpa [hv] using h.thread v
  · subst hv
    exact hflags f (by simpa using hf)
  · exact h.flags v f (by simpa [hv] using hf)

theorem own_update (hhand : pc.hand = (s.pc t).hand) :
    Pc.own ∘ update s.pc t pc = Pc.own ∘ s.pc := by
  rw [comp_update, Pc.own, hhand]
  exact update_eq_self t (Pc.own ∘ s.pc)

section

variable (h : Inv base s)

include h

theorem inv_goto (hhand : pc.hand = (s.pc t).hand)
    (hlocked : pc.isLocked = (s.pc t).isLocked) : Inv base (goto s t pc) := by
  have hthread : update s.thread t ((base t).within pc) = s.thread := by
    rw [update_eq_iff, h.thread t, Thread.within, hhand, hlocked]
    exact ⟨rfl, fun _ _ => rfl⟩
  have hnext := inv_update h (t := t) pc s.slock (by rw [own_update hhand]; exact h.excl)
    (by rw [own_update hhand]; exact h.slock) fun f hf => h.flags t f (hhand ▸ hf)
  rw [hthread] at hnext
  exact hnext

theorem inv_tryLock (hpc : s.pc t = .trying q) : Inv base (tryLock s t q) := by
  have hthread := h.thread t
  rw [hpc] at hthread
  unfold tryLock
  split
  · rename_i hfree
    have hun := h.slock.2.mp (le_antisymm h.slock.1 hfree)
    have hx :
      { s.thread t with
        preemptCount := (s.thread t).preemptCount + 1, irq := (s.thread t).irq && !q } =
        (base t).within (.got (if q then some (s.thread t).irq else none)) := by
      cases q <;> simp [hthread, Thread.within]
    rw [hx]
    refine { inv_update h _ 0 ?_ ⟨Nat.zero_le 1, nofun, fun hall => ?_⟩ fun f hf => ?_ with }
    · rw [comp_update]
      exact exclusive_take h.excl hun
    · exact absurd (by simp) (hall t)
    · cases q <;> simp_all [Thread.within]
  · rename_i hzero
    have hs : s.slock = 0 := Nat.eq_zero_of_not_pos hzero
    rw [← hs]
    exact inv_goto h (by simp [hpc]) (by simp [hpc])

theorem inv_reset (hpc : s.pc t = .reset f) (owner : Option Nat) : Inv base (goto { s with
      spinCount := 0
      owner := owner
      thread := update s.thread t { s.thread t with lockCount := (s.thread t).lockCount + 1 } } t
        (.locked f)) := by
  have hx :
      { s.thread t with lockCount := (s.thread t).lockCount + 1 } =
      (base t).within (.locked f) := by
    simp [h.thread t, hpc, Thread.within]
  have hown : Pc.own ∘ update s.pc t (.locked f) = Pc.own ∘ s.pc := own_update (by simp [hpc])
  rw [hx]
  exact { inv_update h _ _ (hown ▸ h.excl) (hown ▸ h.slock) fun g hg =>
    h.flags t g (by rw [hpc]; exact hg) with }

theorem inv_unlock (hpc : s.pc t = .locked f) : Inv base (goto { s with
      slock := 1
      thread := update s.thread t ⟨(s.thread t).lockCount - 1, (s.thread t).preemptCount - 1,
        f.getD (s.thread t).irq⟩ } t .run) := by
  have hx :
    (⟨(s.thread t).lockCount - 1, (s.thread t).preemptCount - 1, f.getD (s.thread t).irq⟩
    : Thread) =
      (base t).within .run := by
    have hflags := h.flags t
    cases f <;> simp_all [h.thread t, Thread.within]
  have hown : (Pc.own ∘ s.pc) t = some () := by simp [hpc]
  rw [hx]
  refine { inv_update h _ 1 ?_ ⟨le_refl 1, fun _ => ?_, fun _ => rfl⟩
    (fun _ hf => by cases hf) with }
  · rw [comp_update]
    exact exclusive_drop h.excl
  · rw [comp_update]
    exact (unowned_drop h.excl hown).mpr (.inr rfl)

theorem inv_step {a : Label} (hs : step s a = some u) : Inv base u := by
  cases a with
  | lock t q =>
    obtain ⟨hpc, rfl⟩ := of_when hs
    exact inv_goto h (by simp [hpc]) (by simp [hpc])
  | thread t =>
    change stepThread s t = some u at hs
    unfold stepThread at hs
    split at hs <;> rename_i hpc
    · cases hs
    · cases hs
    · cases hs
      exact inv_tryLock h hpc
    · cases hs
      exact inv_goto h (by split <;> simp [hpc]) (by split <;> simp [hpc])
    · cases hs
      exact inv_goto (s := { s with breakLock := true }) { h with } (by simp [hpc]) (by simp [hpc])
    · cases hs
      exact inv_goto h (by split <;> simp [hpc]) (by split <;> simp [hpc])
    · cases hs
      exact inv_goto h (by split <;> simp [hpc]) (by split <;> simp [hpc])
    · obtain ⟨-, rfl⟩ := of_unless hs
      exact inv_goto (s := { s with spinCount := s.spinCount + 1 }) { h with } (by simp [hpc])
        (by simp [hpc])
    · cases hs
      exact inv_goto (s := { s with breakLock := false }) { h with } (by simp [hpc]) (by simp [hpc])
    · cases hs
      exact inv_reset h hpc _
  | unlock t =>
    change (match s.pc t with | .locked f => _ | _ => _) = some u at hs
    split at hs
    · obtain ⟨-, rfl⟩ := of_unless hs
      exact inv_unlock h ‹_›
    · cases hs

end

theorem spin_lock_works (base : Nat → Thread) (s : State)
    (h : Reach step anyStep (Initial · base) s) :
    Works base s := by
  have hinv : Inv base s := h.invariant (fun _ => inv_initial) fun _ _ _ hi _ hs => inv_step hi hs
  have hown : ∀ t, (Pc.own ∘ s.pc) t = some () ↔ (s.pc t).hand ≠ none := by
    simp [Option.ne_none_iff_exists']
  refine ⟨fun t u ht hu => ?_, ?_, hinv.thread, fun t f hpc => ?_⟩
  · exact hinv.excl t u () ((hown t).mpr ht) ((hown u).mpr hu)
  · have hfree : s.slock = 0 ↔ ¬ s.slock = 1 := by have := hinv.slock.1; omega
    rw [hfree, hinv.slock.2, Unowned]
    simp only [ne_eq, hown, not_forall, not_not]
  · have hcount := hinv.counted t
    simp only [step, hpc, hinv.thread t, Thread.within, Pc.isLocked, Bool.toNat_true]
    rw [if_neg (by omega)]
    rfl

def unused : State := ⟨1, false, 0, none, fun _ => ⟨0, 0, true⟩, fun _ => .run⟩

/-- Thread 0 is in a section, thread 1 spins. -/
theorem spin_lock_works_contended :
    ∃ s, Works (fun _ => ⟨0, 0, true⟩) s ∧ s.thread 0 = ⟨1, 1, false⟩ ∧
      s.pc 1 = .counting false := by
  have hstart : Reach step anyStep (Initial · fun _ => ⟨0, 0, true⟩) unused :=
    .start ⟨⟨rfl, rfl, rfl, rfl⟩, rfl, fun _ => Int.le_refl 0, fun _ => rfl⟩
  obtain ⟨s, hs, hrest⟩ :=
    hstart.runTo (P := fun s => s.thread 0 = ⟨1, 1, false⟩ ∧ s.pc 1 = .counting false)
    [.lock 0 true, .thread 0, .lock 1 false, .thread 1, .thread 0, .thread 0, .thread 1, .thread 1,
      .thread 1, .thread 1] (by decide)
  exact ⟨s, spin_lock_works _ s hs, hrest⟩

end Guk.SpinLock
