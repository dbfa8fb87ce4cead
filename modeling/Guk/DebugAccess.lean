import Guk.DebugTransfer
import Guk.Runs

/-!
# Fault recovery of the debug backend (`db-back.c`, `traps.c`)

Before it accesses memory for the debugger, a handler sets `db_back_access` and
`db_back_addr`. The trap code takes a fault for one of such an access if the flag is
set, and for a page fault if the address is the same, and then jumps to
`db_back_handler`, into the frame of the handler that was armed last.

A handler is one step between two writes to these variables. All other code, on any
CPU, may fault between any two steps. The backend runs only if `guk_debugging()`.
-/
namespace Guk.DebugAccess

open Runs

inductive Handler where
  | readbytes
  | writebytes
  | validateWatchpoint
  deriving DecidableEq, Repr

def Handler.resets : Handler → Bool
  | .readbytes => true
  | .writebytes => false
  | .validateWatchpoint => true

inductive Pc where
  | idle
  /-- at the head of the loop, with so many accesses to come -/
  | loop (h : Handler) (pointer : UInt64) (left : Nat) (begun : Bool)
  /-- `db_back_access` is set -/
  | armed (h : Handler) (pointer : UInt64) (left : Nat)
  /-- `db_back_addr` is set too, and `set_db_back_handler` has returned 0 -/
  | access (h : Handler) (pointer : UInt64) (left : Nat)
  /-- before `db_back_access = 0` -/
  | reset (h : Handler) (begun : Bool)
  /-- in the fault handler for an access of its own -/
  | trapped
  deriving DecidableEq, Repr

inductive Fault where
  | page (address : UInt64)
  | generalProtection
  deriving DecidableEq, Repr

structure State where
  dbBackAccess : Bool
  dbBackAddr : UInt64
  dbDebugLevel : Int
  pc : Pc
  diverted : Option Fault
  deriving DecidableEq, Repr

inductive Access where
  | succeeds
  | pageFault
  | generalProtection
  deriving DecidableEq, Repr

inductive Label where
  | readbytes (address n : UInt64)
  | writebytes (address n : UInt64)
  | activateWatchpoint (address : UInt64)
  | dbDebug (level : Int)
  | backend (access : Access)
  | fault (f : Fault)
  deriving DecidableEq, Repr

def dbIsDbaccessAddr (s : State) (addr : UInt64) : Bool := s.dbBackAccess && s.dbBackAddr = addr

def dbIsDbaccess (s : State) : Bool := s.dbBackAccess

def diverts (s : State) : Fault → Bool
  | .page address => dbIsDbaccessAddr s address
  | .generalProtection => dbIsDbaccess s

def leave (h : Handler) (begun : Bool) : Pc := if h.resets then .reset h begun else .idle

def recover (s : State) (h : Handler) (f : Fault) : State :=
  { s with pc := if diverts s f then leave h true else .trapped }

def stepBackend (s : State) (access : Access) : Option State :=
  match s.pc with
  | .idle => none
  | .loop h _ 0 begun => some { s with pc := leave h begun }
  | .loop h pointer (left + 1) _ =>
    some { s with dbBackAccess := true, pc := .armed h pointer left }
  | .armed h pointer left => some { s with dbBackAddr := pointer, pc := .access h pointer left }
  | .access h pointer left =>
    match access with
    | .succeeds => some { s with pc := .loop h (pointer + 1) left true }
    | .pageFault => some (recover s h (.page pointer))
    | .generalProtection => some (recover s h .generalProtection)
  | .reset _ _ => some { s with dbBackAccess := false, pc := .idle }
  | .trapped => none

def serve (s : State) (pc : Pc) : Option State :=
  if s.pc = .idle then some { s with pc := pc } else none

def step (s : State) (a : Label) : Option State :=
  -- the jump goes to a frame that is not there any more
  if s.diverted.isSome then none
  else
    match a with
    | .readbytes address n => serve s (.loop .readbytes address n.toUInt16.toNat false)
    | .writebytes address n => serve s (.loop .writebytes address n.toUInt16.toNat false)
    | .activateWatchpoint address =>
      serve s (if s.dbDebugLevel ≥ 2 then .loop .validateWatchpoint address 1 false else .idle)
    | .dbDebug level => if s.pc = .idle then some { s with dbDebugLevel := level } else none
    | .backend access => stepBackend s access
    | .fault f => some (if diverts s f then { s with diverted := some f } else s)

structure Initial (s : State) : Prop where
  dbBackAccess : s.dbBackAccess = false
  pc : s.pc = .idle
  diverted : s.diverted = none

def Pc.begun : Pc → Bool
  | .idle => false
  | .loop _ _ _ begun => begun
  | .armed _ _ _ => true
  | .access _ _ _ => true
  | .reset _ begun => begun
  | .trapped => false

structure RecoveryArmed (s : State) : Prop where
  access : s.dbBackAccess = true → s.pc.begun = true
  diverted : s.diverted = none

def recoveryStep (s : State) : Label → Prop
  | .writebytes _ n => n.toUInt16.toNat = 0
  | .fault (.page address) => s.pc.begun = true → s.dbBackAddr ≠ address
  | .fault .generalProtection => s.pc.begun = false
  | _ => True

instance (s : State) : (a : Label) → Decidable (recoveryStep s a)
  | .readbytes _ _ => isTrue trivial
  | .writebytes _ _ => inferInstanceAs (Decidable (_ = _))
  | .activateWatchpoint _ => isTrue trivial
  | .dbDebug _ => isTrue trivial
  | .backend _ => isTrue trivial
  | .fault (.page _) => inferInstanceAs (Decidable (_ → _))
  | .fault .generalProtection => inferInstanceAs (Decidable (_ = _))

/-! ## Runs without writes -/

def Pc.Quiet (dbBackAddr : UInt64) : Pc → Prop
  | .idle => True
  | .loop h _ left begun => h = .writebytes → left = 0 ∧ begun = false
  | .armed h _ _ => h ≠ .writebytes
  | .access h pointer _ => h ≠ .writebytes ∧ dbBackAddr = pointer
  | .reset _ _ => True
  | .trapped => False

structure Inv (s : State) : Prop where
  flag : s.dbBackAccess = s.pc.begun
  pc : s.pc.Quiet s.dbBackAddr
  diverted : s.diverted = none

variable {s u : State} {a : Label} {k : Handler} {pointer : UInt64} {left : Nat} {begun : Bool}
  {pc : Pc}

theorem inv_initial (h : Initial s) : Inv s := by
  refine ⟨?_, ?_, h.diverted⟩
  · rw [h.pc]
    exact h.dbBackAccess
  · rw [h.pc]
    trivial

section

variable (h : Inv s) {f : Fault}

include h

theorem inv_leave (hbegun : s.pc.begun = begun) (hk : k = .writebytes → begun = false) :
    Inv { s with pc := leave k begun } := by
  have hflag := h.flag
  rw [hbegun] at hflag
  cases k with
  | readbytes | validateWatchpoint => exact ⟨hflag, trivial, h.diverted⟩
  | writebytes => exact ⟨hflag.trans (hk rfl), trivial, h.diverted⟩

theorem inv_recover (hpc : s.pc = .access k pointer left)
    (hf : f = .page pointer ∨ f = .generalProtection) : Inv (recover s k f) := by
  have hflag := h.flag
  have hquiet := h.pc
  rw [hpc] at hflag hquiet
  have hdiverts : diverts s f = true := by
    rcases hf with rfl | rfl <;> simp [diverts, dbIsDbaccessAddr, dbIsDbaccess, hflag, hquiet.2,
      Pc.begun]
  rw [recover, if_pos hdiverts]
  exact inv_leave h (by rw [hpc]; rfl) fun hk => absurd hk hquiet.1

theorem inv_stepBackend {access : Access} (hs : stepBackend s access = some u) : Inv u := by
  have hflag := h.flag
  have hquiet := h.pc
  unfold stepBackend at hs
  cases hpc : s.pc with
  | idle | trapped =>
    rw [hpc] at hs
    cases hs
  | loop k pointer left begun =>
    rw [hpc] at hs hquiet
    cases left with
    | zero =>
      cases hs
      exact inv_leave h (by rw [hpc]; rfl) fun hk => (hquiet hk).2
    | succ left =>
      cases hs
      exact ⟨rfl, fun hk => absurd (hquiet hk).1 (Nat.succ_ne_zero left), h.diverted⟩
  | armed k pointer left =>
    rw [hpc] at hs hflag hquiet
    cases hs
    exact ⟨hflag, ⟨hquiet, rfl⟩, h.diverted⟩
  | access k pointer left =>
    cases access with
    | succeeds =>
      rw [hpc] at hs hflag hquiet
      cases hs
      exact ⟨hflag, fun hk => absurd hk hquiet.1, h.diverted⟩
    | pageFault =>
      rw [hpc] at hs
      cases hs
      exact inv_recover h hpc (.inl rfl)
    | generalProtection =>
      rw [hpc] at hs
      cases hs
      exact inv_recover h hpc (.inr rfl)
  | reset k begun =>
    rw [hpc] at hs
    cases hs
    exact ⟨rfl, trivial, h.diverted⟩

theorem inv_serve (hs : serve s pc = some u) (hbegun : pc.begun = false)
    (hquiet : pc.Quiet s.dbBackAddr) : Inv u := by
  obtain ⟨hidle, rfl⟩ := of_when hs
  have hflag := h.flag
  rw [hidle] at hflag
  exact ⟨hflag.trans hbegun.symm, hquiet, h.diverted⟩

theorem not_diverts (hok : recoveryStep s (.fault f)) : ¬ diverts s f = true := by
  intro hdiverts
  cases f with
  | page address =>
    have hboth : s.dbBackAccess = true ∧ s.dbBackAddr = address := by
      simpa [diverts, dbIsDbaccessAddr] using hdiverts
    exact hok (h.flag.symm.trans hboth.1) hboth.2
  | generalProtection =>
    have hset : s.dbBackAccess = true := hdiverts
    rw [h.flag, hok] at hset
    cases hset

theorem inv_step (hok : recoveryStep s a) (hs : step s a = some u) : Inv u := by
  obtain ⟨-, hs⟩ := Option.ite_none_left_eq_some.mp hs
  cases a with
  | readbytes address n => exact inv_serve h hs rfl (by simp [Pc.Quiet])
  | writebytes address n => exact inv_serve h hs rfl fun _ => ⟨hok, rfl⟩
  | activateWatchpoint address =>
    refine inv_serve h hs ?_ ?_ <;> split <;> simp [Pc.begun, Pc.Quiet]
  | dbDebug level =>
    obtain ⟨-, rfl⟩ := of_when hs
    exact { h with }
  | backend access => exact inv_stepBackend h hs
  | fault f =>
    cases hs
    rw [if_neg (not_diverts h hok)]
    exact h

end

/-- The recovery is armed only for the accesses of a handler, if `dispatch_writebytes` makes none
and no other code has a fault that looks like one of them at the same time. -/
theorem recovery_armed_for_accesses (s : State) (h : Reach step recoveryStep Initial s) :
    RecoveryArmed s := by
  have hinv : Inv s := h.invariant (fun _ => inv_initial) fun _ _ _ => inv_step
  exact ⟨hinv.flag.symm.trans, hinv.diverted⟩

/-! ## A flag that stays -/

def nothingServed : State := ⟨false, 0, 0, .idle, none⟩

theorem nothingServed_initial : Initial nothingServed := ⟨rfl, rfl, rfl⟩

theorem recovery_armed_for_read :
    ∃ s, Reach step recoveryStep Initial s ∧ s.dbBackAddr = 0x1001 ∧ s.pc = .idle ∧
      RecoveryArmed s := by
  have h₀ : Reach step recoveryStep Initial nothingServed := .start nothingServed_initial
  obtain ⟨s, hs, haddr, hpc⟩ := h₀.runGuardedTo (P := fun s => s.dbBackAddr = 0x1001 ∧ s.pc = .idle)
    [.readbytes 0x1000 2, .backend .succeeds, .backend .succeeds, .backend .succeeds,
      .backend .succeeds,
      .backend .succeeds, .backend .pageFault, .backend .succeeds, .fault .generalProtection]
    (by decide +kernel)
  exact ⟨s, hs, haddr, hpc, recovery_armed_for_accesses s hs⟩

/-- After `dispatch_writebytes` of one byte, and during an access of `dispatch_readbytes`, a
protection fault of other code is taken for one of the backend. -/
theorem fault_diverted :
    (∃ s, Reach step anyStep Initial s ∧ s.pc = .idle ∧ s.diverted = some .generalProtection) ∧
      (∃ s, Reach step anyStep Initial s ∧ s.pc = .armed .readbytes 0x1000 0 ∧
        s.diverted = some .generalProtection) ∧
      ¬ ∀ s, Reach step anyStep Initial s → RecoveryArmed s := by
  have h₀ : Reach step anyStep Initial nothingServed := .start nothingServed_initial
  have hwrite := h₀.runTo (P := fun s => s.pc = .idle ∧ s.diverted = some .generalProtection)
    [.writebytes 0x1000 1, .backend .succeeds, .backend .succeeds, .backend .succeeds,
      .backend .succeeds, .fault .generalProtection] (by decide +kernel)
  have hread := h₀.runTo (P := fun s => s.pc = .armed .readbytes 0x1000 0 ∧
    s.diverted = some .generalProtection)
    [.readbytes 0x1000 1, .backend .succeeds, .fault .generalProtection] (by decide +kernel)
  refine ⟨hwrite, hread, ?_⟩
  intro hall
  obtain ⟨s, hs, -, hdiverted⟩ := hwrite
  rw [(hall s hs).diverted] at hdiverted
  cases hdiverted

/-! ## The handlers as a whole -/

structure Agrees (s : State) (t : DebugTransfer.State) : Prop where
  access : s.dbBackAccess = t.dbBackAccess
  addr : s.dbBackAddr = t.dbBackAddr
  diverted : s.diverted = none

theorem step_backend (hnone : s.diverted = none) (access : Access) :
    step s (.backend access) = stepBackend s access := by
  rw [step, hnone]
  rfl

section

variable (hpc : s.pc = .loop k pointer (left + 1) begun)

include hpc

theorem leads_access (hnone : s.diverted = none) :
    Leads step s
      { s with dbBackAccess := true, dbBackAddr := pointer, pc := .access k pointer left } := by
  have hflag : step s (.backend .succeeds) =
      some { s with dbBackAccess := true, pc := .armed k pointer left } := by
    rw [step_backend hnone, stepBackend, hpc]
  refine .head (.backend .succeeds) hflag (.head (.backend .succeeds) ?_ (.refl _))
  rw [step_backend (by exact hnone)]
  rfl

theorem leads_fault (hnone : s.diverted = none) :
    Leads step s { s with dbBackAccess := true, dbBackAddr := pointer, pc := leave k true } := by
  refine (leads_access hpc hnone).trans (.head (.backend .pageFault) ?_ (.refl _))
  rw [step_backend (by exact hnone)]
  simp [stepBackend, recover, diverts, dbIsDbaccessAddr]

theorem leads_next (hnone : s.diverted = none) : Leads step s { s with
      dbBackAccess := true, dbBackAddr := pointer, pc := .loop k (pointer + 1) left true } := by
  refine (leads_access hpc hnone).trans (.head (.backend .succeeds) ?_ (.refl _))
  rw [step_backend (by exact hnone)]
  rfl

end

variable {t : DebugTransfer.State}
  {loop : (left i : Nat) → UInt64 → DebugTransfer.State → DebugTransfer.State}

structure Arms (loop : (left i : Nat) → UInt64 → DebugTransfer.State → DebugTransfer.State) :
    Prop where
  nothing : ∀ i pointer t, loop 0 i pointer t = t
  access : ∀ left i pointer t, ∃ t' : DebugTransfer.State,
    t'.dbBackAccess = true ∧ t'.dbBackAddr = pointer ∧
      (loop (left + 1) i pointer t = t' ∨
        loop (left + 1) i pointer t = loop left (i + 1) (pointer + 1) t')

theorem leads_loop
    (hloop : Arms loop) {i : Nat} (hpc : s.pc = .loop k pointer left begun) (h : Agrees s t) :
    ∃ u b, Leads step s u ∧ u.pc = leave k b ∧ Agrees u (loop left i pointer t) := by
  induction left generalizing s t i pointer begun with
  | zero =>
    refine ⟨_, begun, .head (.backend .succeeds) ?_ (.refl { s with pc := leave k begun }), rfl, ?_⟩
    · rw [step_backend h.diverted, stepBackend, hpc]
    · rw [hloop.nothing]
      exact { h with }
  | succ left ih =>
    obtain ⟨t', haccess, haddr, hend | hnext⟩ := hloop.access left i pointer t
    · rw [hend]
      exact ⟨_, true, leads_fault hpc h.diverted, rfl, haccess.symm, haddr.symm, h.diverted⟩
    · rw [hnext]
      obtain ⟨u, b, hleads, hu, hagrees⟩ := ih (i := i + 1)
        (s := { s with
          dbBackAccess := true, dbBackAddr := pointer, pc := .loop k (pointer + 1) left true })
        rfl ⟨haccess.symm, haddr.symm, h.diverted⟩
      exact ⟨u, b, (leads_next hpc h.diverted).trans hleads, hu, hagrees⟩

theorem arms_readLoop (retVal : UInt64) :
    Arms fun left i pointer t => (DebugTransfer.readLoop left i pointer retVal t).state := by
  refine ⟨fun _ _ _ => rfl, fun left i pointer t => ?_⟩
  by_cases hread : t.readable pointer = true
  · rw [DebugTransfer.readLoop_readable hread]
    exact ⟨_, rfl, rfl, .inr rfl⟩
  · rw [DebugTransfer.readLoop_fault hread]
    exact ⟨_, rfl, rfl, .inl rfl⟩

theorem arms_writeLoop (retVal : UInt64) :
    Arms fun left i pointer t => (DebugTransfer.writeLoop left i pointer retVal t).state := by
  refine ⟨fun _ _ _ => rfl, fun left i pointer t => ?_⟩
  by_cases hwrite : t.writable pointer = true
  · rw [DebugTransfer.writeLoop_writable hwrite]
    exact ⟨_, rfl, rfl, .inr rfl⟩
  · rw [DebugTransfer.writeLoop_fault hwrite]
    exact ⟨_, rfl, rfl, .inl rfl⟩

/-- The request is served, and at the end the variables are those of `t`. -/
def Serves (s : State) (a : Label) (t : DebugTransfer.State) : Prop :=
  ∃ v u, step s a = some v ∧ Leads step v u ∧ u.pc = .idle ∧ Agrees u t

theorem leads_serve
    (hloop : Arms loop) (hidle : s.pc = .idle) (h : Agrees s t)
    (ha : step s a = serve s (.loop k pointer left false)) :
    ∃ v u b, step s a = some v ∧ Leads step v u ∧ u.pc = leave k b ∧
      Agrees u (loop left 0 pointer t) := by
  obtain ⟨u, b, hleads, hu, hagrees⟩ := leads_loop hloop (i := 0)
    (s := { s with pc := .loop k pointer left false }) rfl { h with }
  exact ⟨_, u, b, ha.trans (if_pos hidle), hleads, hu, hagrees⟩

end Guk.DebugAccess
