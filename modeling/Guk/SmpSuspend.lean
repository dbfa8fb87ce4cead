import Guk.Runs
import Mathlib.Data.List.Nodup
import Mathlib.Data.List.Range

/-!
# Taking the secondary CPUs down (`smp.c`)

`smp_suspend` runs on CPU 0. It marks every other CPU and waits until each of
them has counted itself out in `smp_cpu_safe`, which the idle loop of a CPU gets
to through `check_suspend`. The state word of a CPU is also written by
`block_domain`, without `cpu_lock`. A section under `cpu_lock` is one step, and so
is every other write of a state word.

Nothing is resumed here, so `CPU_RESUMING` does not occur.
-/
namespace Guk.SmpSuspend

open Runs Function List

inductive CpuState where
  | down
  | up
  | suspending
  | sleeping
  deriving DecidableEq, Repr

inductive Pc where
  | off
  /-- before `check_suspend`: threads run -/
  | check
  /-- behind it, on the way to `block_domain` or back to `schedule` -/
  | ready
  /-- in `HYPERVISOR_sched_op(SCHEDOP_block, 0)` -/
  | asleep
  /-- in the loop of `check_suspend`, at the `switch` of `smp_cpu_safe` -/
  | safe
  /-- `--suspend_count` -/
  | count
  /-- `per_cpu(cpu, cpu_state) = CPU_DOWN` -/
  | goDown
  /-- `smp_active--` -/
  | leave
  deriving DecidableEq, Repr

inductive Phase where
  | idle
  | waiting
  | returned
  deriving DecidableEq, Repr

structure State where
  cpuState : Nat → CpuState
  pc : Nat → Pc
  suspendCount : Int
  smpActive : Int
  phase : Phase
  marked : List Nat

inductive Label where
  | suspend
  | poll
  | cpu (c : Nat)
  | skip (c : Nat)

def setPc (s : State) (c : Nat) (pc : Pc) : State := { s with pc := update s.pc c pc }

def setCpuState (s : State) (c : Nat) (x : CpuState) : State :=
  { s with cpuState := update s.cpuState c x }

def markCpu (s : State) (c : Nat) : State :=
  if s.cpuState c = .up ∨ s.cpuState c = .sleeping then
    { setCpuState s c .suspending with suspendCount := s.suspendCount + 1, marked := c :: s.marked }
  else s

def testCount (s : State) : State :=
  { s with phase := if s.suspendCount = 0 then .returned else .waiting }

def stepCpu (s : State) (c : Nat) : Option State :=
  match s.pc c with
  | .off => none
  | .check => some (setPc s c (if s.cpuState c ≠ .up then .safe else .ready))
  | .ready => some (setPc (setCpuState s c .sleeping) c .asleep)
  | .asleep => some (setPc (setCpuState s c .up) c .check)
  | .safe => some (if s.cpuState c = .suspending then setPc s c .count else s)
  | .count => some (setPc { s with suspendCount := s.suspendCount - 1 } c .goDown)
  | .goDown => some (setPc (setCpuState s c .down) c .leave)
  | .leave => some (setPc { s with smpActive := s.smpActive - 1 } c .safe)

def secondary (maxVirtCpus : Nat) : List Nat := List.range' 1 (maxVirtCpus - 1)

section

variable (maxVirtCpus : Nat)

def smpSuspend (s : State) : State :=
  testCount ((secondary maxVirtCpus).foldl markCpu { s with suspendCount := 0, marked := [] })

def step (s : State) : Label → Option State
  | .suspend => if s.phase = .idle then some (smpSuspend maxVirtCpus s) else none
  | .poll => if s.phase = .waiting then some (testCount s) else none
  | .cpu c => if c ∈ secondary maxVirtCpus then stepCpu s c else none
  | .skip c => if c ∈ secondary maxVirtCpus ∧ s.pc c = .ready then some (setPc s c .check) else none

def Before (pc : Pc) (x : CpuState) : Prop :=
  pc = .off ∧ x = .down ∨ pc = .check ∧ x = .up ∨ pc = .ready ∧ x = .up ∨ pc = .asleep ∧
    x = .sleeping

structure Initial (s : State) : Prop where
  phase : s.phase = .idle
  cpus : ∀ c ∈ secondary maxVirtCpus, Before (s.pc c) (s.cpuState c)
  active : s.smpActive = 1 + (secondary maxVirtCpus).countP fun c => s.pc c ≠ .off

structure Handshake (s : State) : Prop where
  count : s.phase = .waiting →
    s.suspendCount = (secondary maxVirtCpus).countP fun c => s.cpuState c = .suspending
  returned : s.phase = .returned → (∀ c ∈ s.marked, s.cpuState c = .down) ∧ s.smpActive = 1

def markKeptStep (s : State) : Label → Prop
  | .cpu c => s.cpuState c = .suspending → s.pc c ≠ .ready ∧ s.pc c ≠ .asleep
  | _ => True

def handshakeStep (s : State) (l : Label) : Prop :=
  markKeptStep s l ∧ ∀ c, l = .cpu c → s.pc c ≠ .count

def After : Pc → CpuState → Prop
  | .off, x | .leave, x => x = .down
  | .safe, x => x = .suspending ∨ x = .down
  | .check, x | .ready, x | .asleep, x | .count, x | .goDown, x => x = .suspending

def pending (s : State) (c : Nat) : Bool := s.cpuState c = .suspending ∧ s.pc c ≠ .goDown

def active (s : State) (c : Nat) : Bool := s.pc c ≠ .off ∧ ¬ (s.pc c = .safe ∧ s.cpuState c = .down)

structure Inv (s : State) : Prop where
  before : s.phase = .idle → ∀ c ∈ secondary maxVirtCpus, Before (s.pc c) (s.cpuState c)
  after : s.phase ≠ .idle → ∀ c ∈ secondary maxVirtCpus, After (s.pc c) (s.cpuState c)
  count : s.phase ≠ .idle → s.suspendCount = (secondary maxVirtCpus).countP (pending s)
  active : s.smpActive = 1 + (secondary maxVirtCpus).countP (active s)
  marked : s.phase ≠ .idle → ∀ c, c ∈ s.marked ↔ c ∈ secondary maxVirtCpus ∧ s.pc c ≠ .off
  returned : s.phase = .returned → s.suspendCount = 0

end

variable {n c : Nat} {s t : State} {l : List Nat} {pc : Pc} {x : CpuState} {a : Label}

/-! ## Counting CPUs -/

theorem countP_change {p q : Nat → Bool} (hnodup : l.Nodup) (hc : c ∈ l)
    (hother : ∀ x, x ≠ c → q x = p x) :
    l.countP q + (p c).toNat = l.countP p + (q c).toNat := by
  induction l with
  | nil => cases hc
  | cons x l ih =>
    obtain ⟨hx, hnodup⟩ := List.nodup_cons.mp hnodup
    rw [countP_cons, countP_cons]
    rcases List.mem_cons.mp hc with rfl | hc
    · have hsame : l.countP q = l.countP p := by
        apply countP_congr
        intro y hy
        rw [hother y (ne_of_mem_of_not_mem hy hx)]
      rw [hsame]
      cases p c <;> cases q c <;> simp
    · have hxc : x ≠ c := by
        rintro rfl
        exact hx hc
      rw [hother x hxc]
      have := ih hnodup hc
      omega

theorem setCpuState_self (s : State) (c : Nat) :
    setCpuState s c (s.cpuState c) = s := by simp [setCpuState]

theorem nodup_secondary : (secondary n).Nodup := nodup_range'

section Cpu

variable (h : Inv n s) (hc : c ∈ secondary n)

include h hc

theorem inv_local (hphase : t.phase = s.phase) (hmarked : t.marked = s.marked)
    (hother : ∀ x, x ≠ c → t.pc x = s.pc x ∧ t.cpuState x = s.cpuState x)
    (hoff : t.pc c = .off ↔ s.pc c = .off)
    (hbefore : s.phase = .idle → Before (t.pc c) (t.cpuState c))
    (hafter : s.phase ≠ .idle → After (t.pc c) (t.cpuState c))
    (hcount : s.phase ≠ .idle →
      t.suspendCount + (pending s c).toNat = s.suspendCount + (pending t c).toNat)
    (hactive : t.smpActive + (active s c).toNat = s.smpActive + (active t c).toNat)
    (hreturned : s.phase = .returned → t.suspendCount = s.suspendCount) : Inv n t := by
  have hpending := countP_change (p := pending s) (q := pending t) nodup_secondary hc (by
    intro x hx
    simp only [pending, hother x hx])
  have hactives := countP_change (p := active s) (q := active t) nodup_secondary hc (by
    intro x hx
    simp only [active, hother x hx])
  constructor
  · intro hp x hx
    rw [hphase] at hp
    by_cases hxc : x = c
    · rw [hxc]
      exact hbefore hp
    · rw [(hother x hxc).1, (hother x hxc).2]
      exact h.before hp x hx
  · intro hp x hx
    rw [hphase] at hp
    by_cases hxc : x = c
    · rw [hxc]
      exact hafter hp
    · rw [(hother x hxc).1, (hother x hxc).2]
      exact h.after hp x hx
  · intro hp
    rw [hphase] at hp
    have := h.count hp
    have := hcount hp
    omega
  · have := h.active
    omega
  · intro hp x
    rw [hphase] at hp
    rw [hmarked, h.marked hp x]
    by_cases hxc : x = c
    · rw [hxc, Ne, Ne, hoff]
    · rw [(hother x hxc).1]
  · intro hp
    rw [hphase] at hp
    rw [hreturned hp, h.returned hp]

theorem inv_setCpu (hoff : pc = .off ↔ s.pc c = .off)
    (hbefore : s.phase = .idle → Before (s.pc c) (s.cpuState c) → Before pc x)
    (hafter : s.phase ≠ .idle → After (s.pc c) (s.cpuState c) →
      After pc x ∧ (pending s c = decide (x = .suspending ∧ pc ≠ .goDown)))
    (hactive : Before (s.pc c) (s.cpuState c) ∨ After (s.pc c) (s.cpuState c) →
      active s c = decide (pc ≠ .off ∧ ¬ (pc = .safe ∧ x = .down))) :
    Inv n (setPc (setCpuState s c x) c pc) := by
  have hfacts : Before (s.pc c) (s.cpuState c) ∨ After (s.pc c) (s.cpuState c) := by
    by_cases hp : s.phase = .idle
    · exact .inl (h.before hp c hc)
    · exact .inr (h.after hp c hc)
  apply inv_local (t := setPc (setCpuState s c x) c pc) h hc rfl rfl
  · intro y hy
    simp [setPc, setCpuState, hy]
  · simp [setPc, hoff]
  · intro hp
    simpa [setPc, setCpuState] using hbefore hp (h.before hp c hc)
  · intro hp
    simpa [setPc, setCpuState] using (hafter hp (h.after hp c hc)).1
  · intro hp
    rw [(hafter hp (h.after hp c hc)).2]
    simp [setPc, setCpuState, pending]
  · rw [hactive hfacts]
    simp [setPc, setCpuState, active]
  · intro _
    rfl

theorem after_of_marked (hpc : s.pc c = .count ∨ s.pc c = .goDown ∨ s.pc c = .leave) :
    s.phase ≠ .idle ∧ After (s.pc c) (s.cpuState c) := by
  have hidle : s.phase ≠ .idle := by
    intro hp
    have hbefore := h.before hp c hc
    rcases hpc with hpc | hpc | hpc <;> simp [Before, hpc] at hbefore
  exact ⟨hidle, h.after hidle c hc⟩

theorem not_pending_of_returned (hp : s.phase = .returned) : pending s c = false := by
  by_contra hpending
  have hpos := List.countP_pos_iff.mpr ⟨c, hc, by simpa using hpending⟩
  have hcount := h.count (by rw [hp]; simp)
  rw [h.returned hp] at hcount
  omega

theorem inv_count (hpc : s.pc c = .count) :
    Inv n (setPc { s with suspendCount := s.suspendCount - 1 } c .goDown) := by
  obtain ⟨hidle, hafter⟩ := after_of_marked h hc (.inl hpc)
  simp only [hpc, After] at hafter
  have hpending : pending s c = true := by simp [pending, hpc, hafter]
  apply inv_local (t := setPc { s with suspendCount := s.suspendCount - 1 } c .goDown) h hc rfl rfl
  · intro y hy
    simp [setPc, hy]
  · simp [setPc, hpc]
  · intro hp
    exact absurd hp hidle
  · intro _
    simpa [setPc, After] using hafter
  · intro _
    rw [hpending]
    simp [setPc, pending]
  · simp [setPc, active, hpc]
  · intro hp
    rw [not_pending_of_returned h hc hp] at hpending
    cases hpending

theorem inv_leave (hpc : s.pc c = .leave) :
    Inv n (setPc { s with smpActive := s.smpActive - 1 } c .safe) := by
  obtain ⟨hidle, hafter⟩ := after_of_marked h hc (.inr (.inr hpc))
  simp only [hpc, After] at hafter
  apply inv_local (t := setPc { s with smpActive := s.smpActive - 1 } c .safe) h hc rfl rfl
  · intro y hy
    simp [setPc, hy]
  · simp [setPc, hpc]
  · intro hp
    exact absurd hp hidle
  · intro _
    simpa [setPc, After] using .inr hafter
  · intro _
    simp [setPc, pending, hafter]
  · simp [setPc, active, hpc, hafter]
  · intro _
    rfl

theorem inv_stepCpu (hok : s.cpuState c = .suspending → s.pc c ≠ .ready ∧ s.pc c ≠ .asleep)
    (hs : stepCpu s c = some t) : Inv n t := by
  cases hpc : s.pc c <;> simp only [stepCpu, hpc] at hs <;> cases hs
  case check =>
    rw [← setCpuState_self s c]
    apply inv_setCpu h hc <;> split <;> simp_all [Before, After, pending, active, setCpuState_self]
  case ready | asleep | goDown =>
    apply inv_setCpu h hc <;> simp_all [Before, After, pending, active]
  case safe =>
    split
    · rw [← setCpuState_self s c]
      apply inv_setCpu h hc <;> simp_all [Before, After, pending, active]
    · exact h
  case count => exact inv_count h hc hpc
  case leave => exact inv_leave h hc hpc

end Cpu

/-! ## Marking -/

def markable (s : State) (c : Nat) : Bool := s.cpuState c = .up ∨ s.cpuState c = .sleeping

structure Marks (l : List Nat) (s t : State) : Prop where
  pc : t.pc = s.pc
  smpActive : t.smpActive = s.smpActive
  cpuState : ∀ c, t.cpuState c = if c ∈ l ∧ markable s c then .suspending else s.cpuState c
  suspendCount : t.suspendCount = s.suspendCount + l.countP (markable s)
  marked : ∀ c, c ∈ t.marked ↔ c ∈ s.marked ∨ c ∈ l ∧ markable s c

theorem marks_markCpu (s : State) (x : Nat) : Marks [x] s (markCpu s x) := by
  unfold markCpu
  by_cases hm : s.cpuState x = .up ∨ s.cpuState x = .sleeping
  · rw [if_pos hm]
    refine ⟨rfl, rfl, ?_, by simp [markable, hm], ?_⟩
    · intro c
      by_cases hcx : c = x
      · subst hcx
        simp [setCpuState, markable, hm]
      · simp [setCpuState, hcx]
    · intro c
      by_cases hcx : c = x
      · subst hcx
        simp [markable, hm]
      · simp [hcx]
  · rw [if_neg hm]
    refine ⟨rfl, rfl, ?_, by simp [markable, hm], ?_⟩
    · intro c
      by_cases hcx : c = x
      · subst hcx
        simp [markable, hm]
      · simp [hcx]
    · intro c
      by_cases hcx : c = x
      · subst hcx
        simp [markable, hm]
      · simp [hcx]

theorem Marks.cons {x : Nat} {u : State} (hx : x ∉ l) (h₁ : Marks [x] s t)
    (h₂ : Marks l t u) : Marks (x :: l) s u := by
  have hstate : ∀ c, c ≠ x → t.cpuState c = s.cpuState c := by
    intro c hcx
    rw [h₁.cpuState, if_neg (by simp [hcx])]
  have hmark : ∀ c, c ≠ x → markable t c = markable s c := by
    intro c hcx
    simp only [markable, hstate c hcx]
  refine ⟨h₂.pc.trans h₁.pc, h₂.smpActive.trans h₁.smpActive, ?_, ?_, ?_⟩
  · intro c
    rw [h₂.cpuState]
    by_cases hcx : c = x
    · subst hcx
      rw [if_neg (by simp [hx]), h₁.cpuState]
      simp
    · simp [hcx, hmark c hcx, hstate c hcx]
  · have hcongr : l.countP (markable t) = l.countP (markable s) := by
      apply countP_congr
      intro c hc
      rw [hmark c (ne_of_mem_of_not_mem hc hx)]
    rw [h₂.suspendCount, h₁.suspendCount, hcongr, countP_cons, countP_cons, countP_nil]
    omega
  · intro c
    rw [h₂.marked, h₁.marked]
    by_cases hcx : c = x
    · subst hcx
      simp [hx]
    · simp [hcx, hmark c hcx]

theorem marks_foldl (hnodup : l.Nodup) (s : State) : Marks l s (l.foldl markCpu s) := by
  induction l generalizing s with
  | nil => exact ⟨rfl, rfl, by simp, by simp, by simp⟩
  | cons x l ih =>
    obtain ⟨hx, hnodup⟩ := List.nodup_cons.mp hnodup
    exact (marks_markCpu s x).cons hx (ih hnodup (markCpu s x))

theorem marks_smpSuspend (n : Nat) (s : State) :
    Marks (secondary n) { s with suspendCount := 0, marked := [] } (smpSuspend n s) := by
  have hnodup : (secondary n).Nodup := nodup_secondary
  obtain ⟨hpc, hsmp, hstate, hcount, hmarked⟩ :=
    marks_foldl hnodup { s with suspendCount := 0, marked := [] }
  exact ⟨hpc, hsmp, hstate, hcount, hmarked⟩

theorem markable_iff (h : Before (s.pc c) (s.cpuState c)) : markable s c = true ↔
    s.pc c ≠ .off := by
  rcases h with ⟨hpc, hx⟩ | ⟨hpc, hx⟩ | ⟨hpc, hx⟩ | ⟨hpc, hx⟩ <;> simp [markable, hpc, hx]

theorem active_of_before (h : Before (s.pc c) (s.cpuState c)) :
    active s c = decide (s.pc c ≠ .off) := by
  rcases h with ⟨hpc, hx⟩ | ⟨hpc, hx⟩ | ⟨hpc, hx⟩ | ⟨hpc, hx⟩ <;> simp [active, hpc]

theorem inv_initial (h : Initial n s) : Inv n s := by
  have hidle := h.phase
  refine ⟨fun _ => h.cpus, fun hp => absurd hidle hp, fun hp => absurd hidle hp, ?_,
    fun hp => absurd hidle hp, fun hp => ?_⟩
  · have hcongr : (secondary n).countP (active s) =
        (secondary n).countP fun c => decide (s.pc c ≠ .off) := by
      apply countP_congr
      intro c hc
      rw [active_of_before (h.cpus c hc)]
    rw [h.active, hcongr]
  · rw [hidle] at hp
    cases hp

theorem after_marked (h : Before (s.pc c) (s.cpuState c)) :
    After (s.pc c) (if markable s c then .suspending else s.cpuState c) := by
  rcases h with ⟨hpc, hx⟩ | ⟨hpc, hx⟩ | ⟨hpc, hx⟩ | ⟨hpc, hx⟩ <;> simp [After, markable, hpc, hx]

theorem inv_testCount (h : Inv n s) (hidle : s.phase ≠ .idle) :
    Inv n (testCount s) := by
  have hphase : (testCount s).phase ≠ .idle := by
    unfold testCount
    simp only
    split <;> simp
  refine ⟨fun hp => absurd hp hphase, fun _ => h.after hidle, fun _ => h.count hidle, h.active,
    fun _ => h.marked hidle, fun hp => ?_⟩
  unfold testCount at hp ⊢
  simp only at hp
  split at hp
  · assumption
  · cases hp

theorem inv_smpSuspend (h : Inv n s) (hidle : s.phase = .idle) :
    Inv n (smpSuspend n s) := by
  have hbefore := h.before hidle
  have hnodup : (secondary n).Nodup := nodup_secondary
  have hm := marks_foldl hnodup { s with suspendCount := 0, marked := [] }
  unfold smpSuspend
  generalize (secondary n).foldl markCpu _ = u at hm
  obtain ⟨hpc, hsmp, hstate, hcount, hmarked⟩ := hm
  simp only at hpc hsmp
  have hstate : ∀ c ∈ secondary n,
      u.cpuState c = if markable s c then .suspending else s.cpuState c := by
    intro c hc
    rw [hstate c]
    simp only [hc, true_and]
    rfl
  have hafter : ∀ c ∈ secondary n, After (u.pc c) (u.cpuState c) := by
    intro c hc
    rw [hpc, hstate c hc]
    exact after_marked (hbefore c hc)
  suffices hinv : Inv n { u with phase := .waiting } from
    inv_testCount (s := { u with phase := .waiting }) hinv (by simp)
  refine ⟨by simp, fun _ => hafter, fun _ => ?_, ?_, fun _ c => ?_, by simp⟩
  · have hcongr : (secondary n).countP (pending u) = (secondary n).countP (markable s) := by
      apply countP_congr
      intro c hc
      rw [pending, hpc, hstate c hc]
      rcases hbefore c hc with ⟨hp, hx⟩ | ⟨hp, hx⟩ | ⟨hp, hx⟩ | ⟨hp, hx⟩ <;> simp [markable, hp, hx]
    change u.suspendCount = ((secondary n).countP (pending u) : Nat)
    rw [hcount, hcongr]
    exact Int.zero_add _
  · have hcongr : (secondary n).countP (active u) = (secondary n).countP (active s) := by
      apply countP_congr
      intro c hc
      rw [active, hpc, hstate c hc, active]
      rcases hbefore c hc with ⟨hp, hx⟩ | ⟨hp, hx⟩ | ⟨hp, hx⟩ | ⟨hp, hx⟩ <;> simp [markable, hp, hx]
    change u.smpActive = 1 + ((secondary n).countP (active u) : Nat)
    rw [hsmp, h.active, hcongr]
  · change c ∈ u.marked ↔ c ∈ secondary n ∧ u.pc c ≠ .off
    rw [hmarked c, hpc]
    constructor
    · rintro (hnil | ⟨hc, hmark⟩)
      · cases hnil
      · exact ⟨hc, (markable_iff (hbefore c hc)).mp hmark⟩
    · rintro ⟨hc, hne⟩
      exact .inr ⟨hc, (markable_iff (hbefore c hc)).mpr hne⟩

/-! ## Runs -/

theorem inv_step (h : Inv n s) (hok : markKeptStep s a)
    (hs : step n s a = some t) : Inv n t := by
  cases a with
  | suspend =>
    obtain ⟨hp, rfl⟩ := of_when hs
    exact inv_smpSuspend h hp
  | poll =>
    obtain ⟨hp, rfl⟩ := of_when hs
    exact inv_testCount h (by rw [hp]; simp)
  | cpu c =>
    obtain ⟨hc, hs⟩ := Option.ite_none_right_eq_some.mp hs
    exact inv_stepCpu h hc hok hs
  | skip c =>
    obtain ⟨⟨hc, hpc⟩, rfl⟩ := of_when hs
    rw [← setCpuState_self s c]
    apply inv_setCpu h hc <;> simp_all [Before, After, pending, active]

theorem inv_of_reach (h : Reach (step n) markKeptStep (Initial n) s) :
    Inv n s := by
  apply h.invariant (fun _ => inv_initial)
  intro s a t hi hok hs
  exact inv_step hi hok hs

/-- Where the marks are kept, every CPU marked has counted itself out when `smp_suspend` returns,
but may still be about to write `CPU_DOWN` or to take itself out of `smp_active`. -/
theorem counted_out_of_returned (maxVirtCpus : Nat) (s : State)
    (h : Reach (step maxVirtCpus) markKeptStep (Initial maxVirtCpus) s) (hp : s.phase = .returned)
    (c : Nat) (hc : c ∈ s.marked) :
    s.pc c = .goDown ∨ s.cpuState c = .down ∧ (s.pc c = .leave ∨ s.pc c = .safe) := by
  have hinv := inv_of_reach h
  have hidle : s.phase ≠ .idle := by rw [hp]; simp
  obtain ⟨hmem, hoff⟩ := (hinv.marked hidle c).mp hc
  have hafter := hinv.after hidle c hmem
  have hpending := not_pending_of_returned hinv hmem hp
  cases hpc : s.pc c <;> simp_all [After, pending]

def Settled (n : Nat) (s : State) : Prop :=
  ∀ c ∈ secondary n, s.pc c ≠ .goDown ∧ s.pc c ≠ .leave

theorem count_settled (h : Inv n s) (hset : Settled n s) (hidle : s.phase ≠ .idle) :
    s.suspendCount = (secondary n).countP fun c => s.cpuState c = .suspending := by
  rw [h.count hidle]
  congr 1
  apply countP_congr
  intro c hc
  simp [pending, (hset c hc).1]

theorem handshake_settled (h : Inv n s) (hset : Settled n s) :
    Handshake n s := by
  constructor
  · intro hp
    exact count_settled h hset (by rw [hp]; simp)
  · intro hp
    have hidle : s.phase ≠ .idle := by rw [hp]; simp
    have hdown : ∀ c ∈ secondary n, s.cpuState c = .down ∧ (s.pc c = .off ∨ s.pc c = .safe) := by
      intro c hc
      have hpending := not_pending_of_returned h hc hp
      have hafter := h.after hidle c hc
      have hpc := hset c hc
      cases hat : s.pc c <;> simp_all [After, pending]
    constructor
    · intro c hc
      exact (hdown c ((h.marked hidle c).mp hc).1).1
    · have hzero : (secondary n).countP (active s) = 0 := by
        apply List.countP_eq_zero.mpr
        intro c hc
        obtain ⟨hx, hpc | hpc⟩ := hdown c hc <;> simp [active, hx, hpc]
      rw [h.active, hzero]
      rfl

/-- Where the marks are kept, the handshake holds whenever no CPU is on its way out of
`smp_cpu_safe`. -/
theorem handshake_of_settled (maxVirtCpus : Nat) (s : State)
    (h : Reach (step maxVirtCpus) markKeptStep (Initial maxVirtCpus) s)
    (hset : Settled maxVirtCpus s) :
    Handshake maxVirtCpus s :=
  handshake_settled (inv_of_reach h) hset

def Uncounted (n : Nat) (s : State) : Prop :=
  ∀ c ∈ secondary n, s.pc c ≠ .goDown ∧ (s.cpuState c = .down → s.pc c = .off)

theorem uncounted_initial (h : Initial n s) : Uncounted n s := by
  intro c hc
  rcases h.cpus c hc with ⟨hp, hx⟩ | ⟨hp, hx⟩ | ⟨hp, hx⟩ | ⟨hp, hx⟩ <;> simp [hp, hx]

theorem uncounted_setCpu (h : Uncounted n s)
    (hpc : pc ≠ .goDown ∧ (x = .down → pc = .off)) :
    Uncounted n (setPc (setCpuState s c x) c pc) := by
  intro y hy
  by_cases hyc : y = c
  · subst hyc
    simpa [setPc, setCpuState] using hpc
  · simpa [setPc, setCpuState, hyc] using h y hy

theorem settled_of_uncounted (h : Inv n s) (hun : Uncounted n s) :
    Settled n s := by
  intro c hc
  refine ⟨(hun c hc).1, fun hpc => ?_⟩
  have hdown := (after_of_marked h hc (.inr (.inr hpc))).2
  rw [hpc] at hdown
  cases hpc.symm.trans ((hun c hc).2 hdown)

theorem uncounted_stepCpu (hinv : Inv n s) (h : Uncounted n s) (hc : c ∈ secondary n)
    (hcount : s.pc c ≠ .count) (hs : stepCpu s c = some t) : Uncounted n t := by
  have hc' := h c hc
  cases hpc : s.pc c <;> simp only [stepCpu, hpc] at hs <;> cases hs
  case check =>
    rw [← setCpuState_self s c]
    exact uncounted_setCpu h ⟨by split <;> simp, fun hdown => by cases hpc.symm.trans (hc'.2 hdown)⟩
  case ready | asleep => exact uncounted_setCpu h (by simp)
  case safe =>
    split
    · rename_i hx
      rw [← setCpuState_self s c]
      exact uncounted_setCpu h (by simp [hx])
    · exact h
  case count => exact absurd hpc hcount
  case goDown => exact absurd hpc hc'.1
  case leave => exact absurd hpc (settled_of_uncounted hinv h c hc).2

theorem uncounted_step (hinv : Inv n s) (h : Uncounted n s)
    (hok : handshakeStep s a) (hs : step n s a = some t) : Uncounted n t := by
  cases a with
  | suspend =>
    obtain ⟨hp, rfl⟩ := of_when hs
    have hm := marks_smpSuspend n s
    intro c hc
    rw [hm.pc, hm.cpuState]
    refine ⟨(h c hc).1, fun hdown => (h c hc).2 ?_⟩
    split at hdown
    · cases hdown
    · exact hdown
  | poll =>
    obtain ⟨-, rfl⟩ := of_when hs
    exact h
  | skip c =>
    obtain ⟨⟨hc, hpc⟩, rfl⟩ := of_when hs
    rw [← setCpuState_self s c]
    exact uncounted_setCpu h ⟨by simp, fun hdown => by cases hpc.symm.trans ((h c hc).2 hdown)⟩
  | cpu c =>
    obtain ⟨hc, hs⟩ := Option.ite_none_right_eq_some.mp hs
    exact uncounted_stepCpu hinv h hc (hok.2 c rfl) hs

theorem inv_uncounted_of_reach (h : Reach (step n) handshakeStep (Initial n) s) :
    Inv n s ∧ Uncounted n s := by
  apply h.invariant (I := fun s => Inv n s ∧ Uncounted n s)
  · intro s hs
    exact ⟨inv_initial hs, uncounted_initial hs⟩
  · intro s a t hi hok hs
    exact ⟨inv_step hi.1 hok.1 hs, uncounted_step hi.1 hi.2 hok hs⟩

theorem waiting_of_suspending (h : Inv n s) (hset : Settled n s)
    (hc : c ∈ secondary n) (hx : s.cpuState c = .suspending) : s.phase = .waiting := by
  cases hp : s.phase with
  | waiting => rfl
  | idle =>
    have hbefore := h.before hp c hc
    simp [Before, hx] at hbefore
  | returned =>
    have hpending := not_pending_of_returned h hc hp
    simp [pending, hx, (hset c hc).1] at hpending

theorem suspending_of_bad (h : Inv n s) (hbad : ¬ handshakeStep s a)
    (hs : step n s a = some t) : ∃ c ∈ secondary n, stepCpu s c = some t ∧
      s.cpuState c = .suspending ∧ (s.pc c = .ready ∨ s.pc c = .asleep ∨ s.pc c = .count) := by
  cases a with
  | suspend | poll | skip c => exact absurd ⟨trivial, by simp⟩ hbad
  | cpu c =>
    obtain ⟨hc, hs⟩ := Option.ite_none_right_eq_some.mp hs
    refine ⟨c, hc, hs, ?_⟩
    by_cases hpc : s.pc c = .count
    · refine ⟨?_, .inr (.inr hpc)⟩
      have hafter := (after_of_marked h hc (.inl hpc)).2
      rw [hpc] at hafter
      exact hafter
    · simp only [handshakeStep, markKeptStep, Label.cpu.injEq, forall_eq', not_and] at hbad
      by_contra hno
      apply hbad _ hpc
      intro hx
      constructor
      · intro hp
        exact hno ⟨hx, .inl hp⟩
      · intro hp
        exact hno ⟨hx, .inr (.inl hp)⟩

theorem not_handshake_of_write (hc : c ∈ secondary n)
    (hwait : s.phase = .waiting) (hmark : s.cpuState c = .suspending) (hx : x ≠ .suspending)
    (hcount : s.suspendCount = (secondary n).countP fun c => s.cpuState c = .suspending) :
    ¬ Handshake n (setPc (setCpuState s c x) c pc) := by
  intro ht
  have hafter : s.suspendCount = ((secondary n).countP fun y =>
      update s.cpuState c x y = .suspending : Nat) := ht.count hwait
  have hless := countP_change (p := fun y => decide (s.cpuState y = .suspending))
    (q := fun y => decide (update s.cpuState c x y = .suspending)) nodup_secondary hc
    (fun y hy => by simp only [update_of_ne hy])
  simp [hmark, hx] at hless
  omega

/-- The handshake holds as long as no marked CPU writes its state in `block_domain` or counts itself
out, and the first step that does either breaks it. -/
theorem handshake_until_counted (maxVirtCpus : Nat) (s : State)
    (h : Reach (step maxVirtCpus) handshakeStep (Initial maxVirtCpus) s) :
    Handshake maxVirtCpus s ∧
      ∀ a t, ¬ handshakeStep s a → step maxVirtCpus s a = some t → ¬ Handshake maxVirtCpus t := by
  obtain ⟨hinv, hun⟩ := inv_uncounted_of_reach h
  have hset := settled_of_uncounted hinv hun
  refine ⟨handshake_settled hinv hset, ?_⟩
  intro a t hbad hs ht
  obtain ⟨c, hc, hs, hx, hpc⟩ := suspending_of_bad hinv hbad hs
  have hwait := waiting_of_suspending hinv hset hc hx
  have hcount := count_settled hinv hset (by rw [hwait]; simp)
  unfold stepCpu at hs
  rcases hpc with hpc | hpc | hpc
  · rw [hpc] at hs
    cases hs
    exact not_handshake_of_write hc hwait hx (by simp) hcount ht
  · rw [hpc] at hs
    cases hs
    exact not_handshake_of_write hc hwait hx (by simp) hcount ht
  · rw [hpc] at hs
    cases hs
    have hafter : s.suspendCount - 1 =
        ((secondary maxVirtCpus).countP fun c => s.cpuState c = .suspending : Nat) := ht.count hwait
    omega

/-! ## One secondary CPU -/

def oneUp : State where
  cpuState c := if c = 1 then .up else .down
  pc c := if c = 1 then .check else .off
  suspendCount := 0
  smpActive := 2
  phase := .idle
  marked := []

theorem oneUp_initial : Initial 2 oneUp := by
  refine ⟨rfl, ?_, by decide⟩
  intro c hc
  have hc : c = 1 := by simpa [secondary, List.range'] using hc
  subst hc
  simp [Before, oneUp]

theorem handshake_while_marked : ∃ s, Reach (step 2) handshakeStep (Initial 2) s ∧
    s.phase = .waiting ∧ s.pc 1 = .count ∧ Handshake 2 s := by
  have h₀ : Reach (step 2) handshakeStep (Initial 2) oneUp := .start oneUp_initial
  have h₁ := Reach.next Label.suspend h₀ ⟨trivial, by simp⟩ rfl
  have h₂ := Reach.next (Label.cpu 1) h₁ ⟨fun _ => by decide, by rintro c ⟨⟩; decide⟩ rfl
  have h₃ := Reach.next (Label.cpu 1) h₂ ⟨fun _ => by decide, by rintro c ⟨⟩; decide⟩ rfl
  exact ⟨_, h₃, rfl, rfl, (handshake_until_counted 2 _ h₃).1⟩

instance (s : State) : (l : Label) → Decidable (markKeptStep s l)
  | .cpu _ => inferInstanceAs (Decidable (_ → _))
  | .suspend | .poll | .skip _ => isTrue trivial

theorem counted_out_of_returned_one : ∃ s, Reach (step 2) markKeptStep (Initial 2) s ∧
    s.phase = .returned ∧
    (s.pc 1 = .goDown ∨ s.cpuState 1 = .down ∧ (s.pc 1 = .leave ∨ s.pc 1 = .safe)) := by
  have h₀ : Reach (step 2) markKeptStep (Initial 2) oneUp := .start oneUp_initial
  obtain ⟨s, hs, hphase, hmarked⟩ :=
    h₀.runGuardedTo (P := fun s => s.phase = .returned ∧ 1 ∈ s.marked)
    [.suspend, .cpu 1, .cpu 1, .cpu 1, .poll] (by decide)
  exact ⟨s, hs, hphase, counted_out_of_returned 2 s hs hphase 1 hmarked⟩

theorem handshake_of_settled_one : ∃ s, Reach (step 2) markKeptStep (Initial 2) s ∧
    s.phase = .returned ∧ Handshake 2 s := by
  have h₀ : Reach (step 2) markKeptStep (Initial 2) oneUp := .start oneUp_initial
  obtain ⟨s, hs, hphase, hset⟩ := h₀.runGuardedTo
    (P := fun s => s.phase = .returned ∧ ∀ c ∈ secondary 2, s.pc c ≠ .goDown ∧ s.pc c ≠ .leave)
    [.suspend, .cpu 1, .cpu 1, .cpu 1, .cpu 1, .cpu 1, .poll] (by decide)
  exact ⟨s, hs, hphase, handshake_of_settled 2 s hs hset⟩

/-- `smp_suspend` may return between the decrement and the write of `CPU_DOWN`. -/
theorem handshake_broken : ¬ ∀ maxVirtCpus s,
    Reach (step maxVirtCpus) anyStep (Initial maxVirtCpus) s → Handshake maxVirtCpus s := by
  intro hall
  have h₀ : Reach (step 2) anyStep (Initial 2) oneUp := .start oneUp_initial
  obtain ⟨s, hs, hphase, hmarked, hstate⟩ := h₀.runTo
    (P := fun s => s.phase = .returned ∧ s.marked = [1] ∧ s.cpuState 1 = .suspending)
    [.suspend, .cpu 1, .cpu 1, .cpu 1, .poll] (by decide)
  have hhand := hall 2 s hs
  have hdown := (hhand.returned hphase).1 1 (by rw [hmarked]; exact mem_singleton_self 1)
  rw [hstate] at hdown
  cases hdown

end Guk.SmpSuspend
