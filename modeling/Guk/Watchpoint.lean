import Guk.Runs
import Mathlib.Data.List.Basic
import Mathlib.Data.Nat.Basic

/-!
# Watchpoints of the debug backend (`db-back.c`)

A watchpoint unmaps its page. An access to another address of the page maps it
for one instruction: the fault handler of the CPU remembers the watchpoint in
`db_support`, and the trap after the instruction unmaps the page again.
-/
namespace Guk.Watchpoint

open Runs Function List

def PAGE_SIZE : Nat := 4096

def roundPgdown (address : Nat) : Nat := address / PAGE_SIZE * PAGE_SIZE

structure DbWatchpoint where
  address : Nat
  pageAddress : Nat
  pfn : Nat

inductive Cpu where
  | away
  | remap (wp : Nat)
  /-- before `db_support` is set -/
  | record (wp : Nat)
  /-- the step trap, after `activate_watchpoint` -/
  | clear (wp : Nat)
  deriving DecidableEq

inductive Debugger where
  | idle
  /-- the watchpoint is in the list, its page is not filled in -/
  | fill (wp : Nat)
  | unmap (wp : Nat)
  /-- the last watchpoint of its page is out of the list -/
  | remap (wp : Nat)
  | suspending (rest : List Nat)
  | resuming (rest : List Nat)
  deriving DecidableEq

/-- Watchpoints are numbered as they are allocated; they are never freed. `unmapped` says that the
last update of the page by the debugger has unmapped it, `pfn` is the frame in its entry. -/
structure State where
  wp : Nat → DbWatchpoint
  fresh : Nat
  watchpointsList : List Nat
  pfn : Nat → Nat
  unmapped : Nat → Bool
  dbSupport : Nat → Option Nat
  cpu : Nat → Cpu
  debugger : Debugger
  resumed : Bool

inductive Label where
  | fault (cpu address : Nat)
  | handle (cpu : Nat)
  | trap (cpu : Nat)
  /-- `junk` is what the memory of the new watchpoint holds. -/
  | activate (address : Nat) (junk : DbWatchpoint)
  | deactivate (address : Nat)
  | suspendAll
  | resumeAll
  | serve

def getWatchpointLoop (wp : Nat → DbWatchpoint) (address : Nat) (result : Option Nat) :
    List Nat → Option Nat
  | [] => result
  | n :: list =>
    if (wp n).address = address then some n
    else if (wp n).pageAddress = roundPgdown address then getWatchpointLoop wp address (some n) list
    else getWatchpointLoop wp address result list

def getWatchpoint (s : State) (address : Nat) : Option Nat :=
  getWatchpointLoop s.wp address none s.watchpointsList

def activateWatchpoint (s : State) (n : Nat) : State :=
  { s with
    pfn := update s.pfn (s.wp n).pageAddress (s.wp n).pfn
    unmapped := update s.unmapped (s.wp n).pageAddress true }

def deactivateWatchpoint (s : State) (n : Nat) : State :=
  { s with
    pfn := update s.pfn (s.wp n).pageAddress (s.wp n).pfn
    unmapped := update s.unmapped (s.wp n).pageAddress false }

def dbIsWatchpoint (s : State) (cpu address : Nat) : State :=
  match getWatchpoint s address with
  | none => s
  | some n =>
    if (s.wp n).address = address then s
    else { s with cpu := update s.cpu cpu (.remap n) }

def handle (s : State) (cpu : Nat) : Option State :=
  match s.cpu cpu with
  | .away => none
  | .remap n =>
    some { deactivateWatchpoint s n with cpu := update s.cpu cpu (.record n) }
  | .record n =>
    some { s with
      dbSupport := update s.dbSupport cpu (some n), cpu := update s.cpu cpu .away }
  | .clear _ =>
    some { s with
      dbSupport := update s.dbSupport cpu none, cpu := update s.cpu cpu .away }

def dbWatchpointStep (s : State) (cpu : Nat) : State :=
  match s.dbSupport cpu with
  | none => s
  | some n => { activateWatchpoint s n with cpu := update s.cpu cpu (.clear n) }

def dbActivateWatchpoint (s : State) (address : Nat) (junk : DbWatchpoint) : State :=
  { s with
    wp := update s.wp s.fresh { junk with address := address }
    fresh := s.fresh + 1
    watchpointsList := s.watchpointsList ++ [s.fresh]
    debugger := .fill s.fresh }

def remove (s : State) (n : Nat) : State := { s with watchpointsList := s.watchpointsList.erase n }

def dbDeactivateWatchpoint (s : State) (address : Nat) : State :=
  match getWatchpoint s address with
  | none => s
  | some n =>
    if (s.wp n).address = address then
      match getWatchpoint (remove s n) address with
      | none => { remove s n with debugger := .remap n }
      | some _ => remove s n
    else s

def serve (s : State) : Option State :=
  match s.debugger with
  | .idle => none
  | .fill n =>
    let page := roundPgdown (s.wp n).address
    some { s with
      wp := update s.wp n ⟨(s.wp n).address, page, s.pfn page⟩
      debugger := .unmap n }
  | .unmap n => some { activateWatchpoint s n with debugger := .idle }
  | .remap n => some { deactivateWatchpoint s n with debugger := .idle }
  | .suspending [] => some { s with debugger := .idle }
  | .suspending (n :: rest) => some { deactivateWatchpoint s n with debugger := .suspending rest }
  | .resuming [] => some { s with debugger := .idle, resumed := true }
  | .resuming (n :: rest) => some { activateWatchpoint s n with debugger := .resuming rest }

def step (s : State) : Label → Option State
  | .fault cpu address => if s.cpu cpu = .away then some (dbIsWatchpoint s cpu address) else none
  | .handle cpu => handle s cpu
  | .trap cpu => if s.cpu cpu = .away then some (dbWatchpointStep s cpu) else none
  | .activate address junk =>
    if s.debugger = .idle then some (dbActivateWatchpoint s address junk) else none
  | .deactivate address =>
      if s.debugger = .idle then some (dbDeactivateWatchpoint s address) else none
  | .suspendAll =>
    if s.debugger = .idle then
      some { s with debugger := .suspending s.watchpointsList, resumed := false }
    else none
  | .resumeAll =>
    if s.debugger = .idle then some { s with debugger := .resuming s.watchpointsList } else none
  | .serve => serve s

structure Initial (s : State) : Prop where
  watchpointsList : s.watchpointsList = []
  unmapped : ∀ page, s.unmapped page = false
  dbSupport : ∀ cpu, s.dbSupport cpu = none
  cpu : ∀ cpu, s.cpu cpu = .away
  debugger : s.debugger = .idle

structure AtRest (s : State) : Prop where
  resumed : s.resumed = true
  debugger : s.debugger = .idle
  cpu : ∀ cpu, s.cpu cpu = .away ∧ s.dbSupport cpu = none

def OnPage (s : State) (page : Nat) : Prop :=
  ∃ n ∈ s.watchpointsList, roundPgdown (s.wp n).address = page

def Protected (s : State) : Prop :=
  AtRest s → ∀ address, s.unmapped (roundPgdown address) = true ↔ OnPage s (roundPgdown address)

/-! ## The condition -/

def Cpu.wp? : Cpu → Option Nat
  | .away => none
  | .remap n => some n
  | .record n => some n
  | .clear n => some n

def Held (s : State) (cpu n : Nat) : Prop := s.dbSupport cpu = some n ∨ (s.cpu cpu).wp? = some n

def protectedStep (s : State) : Label → Prop
  | .deactivate address =>
    ∀ n, getWatchpoint s address = some n → (s.wp n).address = address →
      getWatchpoint (remove s n) address = none →
      ∀ cpu m, Held s cpu m → (s.wp m).pageAddress ≠ roundPgdown address
  | .fault cpu address =>
    ∀ n, getWatchpoint s address = some n → (s.wp n).address ≠ address →
      (∀ k, s.debugger ≠ .fill k) ∧
      ∀ m, s.dbSupport cpu = some m → (s.wp m).pageAddress = roundPgdown address
  | _ => True

/-! ## The look-up -/

variable {s s' : State} {wp : Nat → DbWatchpoint} {address page cpu n m : Nat} {list : List Nat}
  {result : Option Nat}

theorem getWatchpointLoop_some (h : getWatchpointLoop wp address result list = some n) :
    result = some n ∨
      n ∈ list ∧ ((wp n).address = address ∨ (wp n).pageAddress = roundPgdown address) := by
  induction list generalizing result with
  | nil => exact .inl h
  | cons k list ih =>
    rw [getWatchpointLoop] at h
    by_cases haddress : (wp k).address = address
    · rw [if_pos haddress] at h
      cases h
      exact .inr ⟨mem_cons_self, .inl haddress⟩
    · rw [if_neg haddress] at h
      by_cases hpage : (wp k).pageAddress = roundPgdown address
      · rw [if_pos hpage] at h
        rcases ih h with heq | hn
        · cases heq
          exact .inr ⟨mem_cons_self, .inr hpage⟩
        · exact .inr ⟨mem_cons_of_mem _ hn.1, hn.2⟩
      · rw [if_neg hpage] at h
        rcases ih h with heq | hn
        · exact .inl heq
        · exact .inr ⟨mem_cons_of_mem _ hn.1, hn.2⟩

theorem getWatchpointLoop_none (h : getWatchpointLoop wp address result list = none) :
    result = none ∧
      ∀ n ∈ list, (wp n).address ≠ address ∧ (wp n).pageAddress ≠ roundPgdown address := by
  induction list generalizing result with
  | nil => exact ⟨h, nofun⟩
  | cons k list ih =>
    rw [getWatchpointLoop] at h
    by_cases haddress : (wp k).address = address
    · simp [haddress] at h
    · rw [if_neg haddress] at h
      by_cases hpage : (wp k).pageAddress = roundPgdown address
      · rw [if_pos hpage] at h
        nomatch (ih h).1
      · rw [if_neg hpage] at h
        obtain ⟨hresult, hlist⟩ := ih h
        exact ⟨hresult, forall_mem_cons.mpr ⟨⟨haddress, hpage⟩, hlist⟩⟩

theorem getWatchpoint_some (h : getWatchpoint s address = some n) :
    n ∈ s.watchpointsList ∧
      ((s.wp n).address = address ∨ (s.wp n).pageAddress = roundPgdown address) :=
  (getWatchpointLoop_some h).resolve_left nofun

end Guk.Watchpoint
