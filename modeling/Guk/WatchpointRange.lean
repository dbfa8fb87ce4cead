import Mathlib.Algebra.Group.Nat.Defs
import Guk.WatchpointInv

/-!
# The ranges of watchpoints (`db-back.c`)

A request to watch memory has an address and a size, which is stored with the
watchpoint.
-/
namespace Guk.WatchpointRange

open Runs Watchpoint Function List

structure State extends Watchpoint.State where
  size : Nat → Nat

structure Label where
  base : Watchpoint.Label
  size : Nat

def record (s : State) (size : Nat) (t : Watchpoint.State) : Watchpoint.Label → State
  | .activate _ _ => ⟨t, update s.size s.fresh size⟩
  | _ => ⟨t, s.size⟩

def step (s : State) (a : Label) : Option State :=
  (Watchpoint.step s.toState a.base).map fun t => record s a.size t a.base

structure Thread where
  watch : Bool
  dbData : Option Nat
  reqDebugSuspend : Bool
  needResched : Bool
  deriving DecidableEq, Repr

def suspend (s : Watchpoint.State) (address : Nat) (t : Thread) : Thread :=
  match getWatchpoint s address with
  | none => t
  | some n => if (s.wp n).address = address then ⟨true, some n, true, true⟩ else t

def access (s : Watchpoint.State) (address : Nat) (t : Thread) : Thread :=
  if s.unmapped (roundPgdown address) then suspend s address t else t

def Stops (s : Watchpoint.State) (address : Nat) : Prop :=
  (access s address ⟨false, none, false, false⟩).reqDebugSuspend = true

def SteppedOver (s : Watchpoint.State) (cpu address : Nat) : Prop :=
  ∃ t u, run Watchpoint.step s [.fault cpu address, .handle cpu, .handle cpu] = some t ∧
    t.unmapped (roundPgdown address) = false ∧
    run Watchpoint.step t [.trap cpu, .handle cpu] = some u ∧ u = { s with pfn := u.pfn }

def InRange (s : State) (address : Nat) : Prop :=
  ∃ n ∈ s.watchpointsList, (s.wp n).address ≤ address ∧ address < (s.wp n).address + s.size n

structure Covers (s : State) (cpu : Nat) : Prop where
  stops : ∀ address < 2 ^ 64, Stops s.toState address ↔ InRange s address
  others : ∀ address < 2 ^ 64, OnPage s.toState (roundPgdown address) → ¬ InRange s address →
    SteppedOver s.toState cpu address

structure Watched (s : Watchpoint.State) : Prop where
  rest : AtRest s
  filled : ∀ n ∈ s.watchpointsList, Filled s n
  unmapped : ∀ n ∈ s.watchpointsList, s.unmapped (s.wp n).pageAddress = true

structure BytePerWatchpoint (s : State) : Prop where
  each : ∀ n ∈ s.watchpointsList, ∀ i < s.size n, (s.wp n).address + i < 2 ^ 64 →
    ∃ m ∈ s.watchpointsList, (s.wp m).address = (s.wp n).address + i
  within : ∀ n ∈ s.watchpointsList, (s.wp n).address < 2 ^ 64 → InRange s (s.wp n).address

/-! ## Accesses -/

variable {s : Watchpoint.State} {wp : Nat → DbWatchpoint} {address cpu n : Nat} {list : List Nat}
  {result : Option Nat}

theorem getWatchpointLoop_exact (h : ∃ n ∈ list, (wp n).address = address) :
    ∃ n, getWatchpointLoop wp address result list = some n ∧ (wp n).address = address := by
  induction list generalizing result with
  | nil =>
    obtain ⟨n, hn, _⟩ := h
    cases hn
  | cons k list ih =>
    rw [getWatchpointLoop]
    by_cases hk : (wp k).address = address
    · exact ⟨k, if_pos hk, hk⟩
    · obtain ⟨n, hn, haddress⟩ := h
      have hrest : ∃ n ∈ list, (wp n).address = address := by
        rcases List.mem_cons.mp hn with rfl | hn
        · exact absurd haddress hk
        · exact ⟨n, hn, haddress⟩
      rw [if_neg hk]
      split
      · exact ih hrest
      · exact ih hrest

theorem stops_iff (h : Watched s) : Stops s address ↔ ∃ n ∈ s.watchpointsList,
    (s.wp n).address = address := by
  constructor
  · intro hstops
    unfold Stops access at hstops
    split at hstops
    · unfold suspend at hstops
      cases hget : getWatchpoint s address with
      | none =>
        simp only [hget] at hstops
        cases hstops
      | some n =>
        simp only [hget] at hstops
        split at hstops
        · rename_i haddress
          exact ⟨n, (getWatchpoint_some hget).1, haddress⟩
        · cases hstops
    · cases hstops
  · intro hexact
    obtain ⟨n, hget, haddress⟩ : ∃ n, getWatchpoint s address = some n ∧
        (s.wp n).address = address :=
      getWatchpointLoop_exact hexact
    obtain ⟨m, hm, hpage⟩ := hexact
    have hunmapped := h.unmapped m hm
    rw [h.filled m hm, hpage] at hunmapped
    rw [Stops, access, if_pos hunmapped, suspend]
    simp only [hget, if_pos haddress]

theorem getWatchpoint_other (h : Watched s) (hpage : OnPage s (roundPgdown address))
    (hnone : ∀ n ∈ s.watchpointsList, (s.wp n).address ≠ address) :
    ∃ n, getWatchpoint s address = some n ∧ (s.wp n).address ≠ address ∧
      (s.wp n).pageAddress = roundPgdown address ∧ s.unmapped (roundPgdown address) = true := by
  cases hget : getWatchpoint s address with
  | none =>
    obtain ⟨m, hm, hround⟩ := hpage
    have hne := ((getWatchpointLoop_none hget).2 m hm).2
    exact absurd ((h.filled m hm).trans hround) hne
  | some n =>
    obtain ⟨hn, hmatch⟩ := getWatchpoint_some hget
    have hround := hmatch.resolve_left (hnone n hn)
    exact ⟨n, rfl, hnone n hn, hround, hround ▸ h.unmapped n hn⟩

def mapFor (s : Watchpoint.State) (cpu n : Nat) : Watchpoint.State :=
  { deactivateWatchpoint s n with dbSupport := update s.dbSupport cpu (some n) }

theorem run_fault (haway : s.cpu cpu = .away) (hget : getWatchpoint s address = some n)
    (hne : (s.wp n).address ≠ address) :
    run Watchpoint.step s [.fault cpu address, .handle cpu, .handle cpu] =
      some (mapFor s cpu n) := by
  have hcpu := haway ▸ update_eq_self cpu s.cpu
  simp [run, Watchpoint.step, haway, dbIsWatchpoint, hget, hne, handle, deactivateWatchpoint,
    mapFor, hcpu]

theorem run_trap (haway : s.cpu cpu = .away) (hsupport : s.dbSupport cpu = none)
    (hunmapped : s.unmapped (s.wp n).pageAddress = true) :
    run Watchpoint.step (mapFor s cpu n) [.trap cpu, .handle cpu] =
      some { s with pfn := update s.pfn (s.wp n).pageAddress (s.wp n).pfn } := by
  have hcpu := haway ▸ update_eq_self cpu s.cpu
  have hdb := hsupport ▸ update_eq_self cpu s.dbSupport
  have hpage := hunmapped ▸ update_eq_self _ s.unmapped
  simp [run, Watchpoint.step, haway, dbWatchpointStep, handle, activateWatchpoint,
    deactivateWatchpoint, mapFor, hcpu, hdb, hpage]

theorem steppedOver (h : Watched s) (hpage : OnPage s (roundPgdown address))
    (hnone : ∀ n ∈ s.watchpointsList, (s.wp n).address ≠ address) (cpu : Nat) :
    SteppedOver s cpu address := by
  obtain ⟨n, hget, hne, hround, hunmapped⟩ := getWatchpoint_other h hpage hnone
  obtain ⟨haway, hsupport⟩ := h.rest.cpu cpu
  refine ⟨mapFor s cpu n, _, run_fault haway hget hne, ?_,
    run_trap haway hsupport (hround ▸ hunmapped), rfl⟩
  rw [← hround]
  exact update_self ..

/-- A thread is stopped at the addresses of the watchpoints and nowhere else. -/
theorem watchpoints_cover_iff (s : State) (cpu : Nat) (h : Watched s.toState) :
    Covers s cpu ↔ BytePerWatchpoint s := by
  constructor
  · intro hcovers
    constructor
    · intro n hn i hi hlt
      have hin : InRange s ((s.wp n).address + i) := ⟨n, hn, Nat.le_add_right .., by omega⟩
      exact (stops_iff h).mp ((hcovers.stops _ hlt).mpr hin)
    · intro n hn hlt
      exact (hcovers.stops _ hlt).mp ((stops_iff h).mpr ⟨n, hn, rfl⟩)
  · intro hbytes
    have hstops : ∀ address < 2 ^ 64, Stops s.toState address ↔ InRange s address := by
      intro address hlt
      rw [stops_iff h]
      constructor
      · rintro ⟨n, hn, rfl⟩
        exact hbytes.within n hn hlt
      · rintro ⟨n, hn, hle, hend⟩
        have hoffset : (s.wp n).address + (address - (s.wp n).address) = address := by omega
        have hown := hbytes.each n hn (address - (s.wp n).address) (by omega) (by omega)
        rw [hoffset] at hown
        exact hown
    refine ⟨hstops, ?_⟩
    intro address hlt hpage hout
    apply steppedOver h hpage
    intro n hn heq
    exact hout ((hstops address hlt).mp ((stops_iff h).mpr ⟨n, hn, heq⟩))

/-! ## Runs -/

def Initial (s : State) : Prop := Watchpoint.Initial s.toState

def protectedLabel (s : State) (a : Label) : Prop := protectedStep s.toState a.base

theorem record_toState (s : State) (size : Nat) (t : Watchpoint.State) (a : Watchpoint.Label) :
    (record s size t a).toState = t := by
  cases a <;> rfl

theorem reach_toState {s : State} (h : Reach step protectedLabel Initial s) :
    Reach Watchpoint.step protectedStep Watchpoint.Initial s.toState := by
  induction h with
  | start h => exact .start h
  | next a _ hok hs ih =>
    obtain ⟨t, ht, rfl⟩ := Option.map_eq_some_iff.mp hs
    rw [record_toState]
    exact .next a.base ih hok ht

theorem inv_of_reach {s : State} (h : Reach step protectedLabel Initial s) : Inv s.toState :=
  (reach_toState h).invariant (fun _ => inv_initial) fun _ _ _ hinv hok hs => inv_step hinv hok hs

theorem watched_of_reach {s : State} (h : Reach step protectedLabel Initial s)
    (hrest : AtRest s.toState) :
    Watched s.toState := by
  have hinv := inv_of_reach h
  have hfilled : ∀ n ∈ s.watchpointsList, Filled s.toState n := by
    intro n hn
    apply hinv.filled n hn
    rw [hrest.debugger]
    simp
  refine ⟨hrest, hfilled, ?_⟩
  intro n hn
  rw [hfilled n hn]
  exact (protected_of_inv hinv hrest _).mpr ⟨n, hn, rfl⟩

def activate (s : State) (address size : Nat) : State where
  wp := update s.wp s.fresh ⟨address, roundPgdown address, s.pfn (roundPgdown address)⟩
  fresh := s.fresh + 1
  watchpointsList := s.watchpointsList ++ [s.fresh]
  pfn := s.pfn
  unmapped := update s.unmapped (roundPgdown address) true
  dbSupport := s.dbSupport
  cpu := s.cpu
  debugger := .idle
  resumed := s.resumed
  size := update s.size s.fresh size

def activateLabels (address size : Nat) : List Label :=
  [⟨.activate address ⟨0, 0, 0⟩, size⟩, ⟨.serve, 0⟩, ⟨.serve, 0⟩]

theorem run_activate {s : State} (hidle : s.debugger = .idle) (address size : Nat) :
    run step s (activateLabels address size) = some (activate s address size) := by
  simp [activateLabels, run, step, Watchpoint.step, hidle, record, dbActivateWatchpoint,
    Watchpoint.serve, activateWatchpoint, activate]

theorem reach_activate {s : State} (h : Reach step protectedLabel Initial s)
    (hidle : s.debugger = .idle)
    (address size : Nat) : Reach step protectedLabel Initial (activate s address size) := by
  refine h.runOk (activateLabels address size) ?_ (run_activate hidle address size)
  intro a ha s
  simp only [activateLabels, mem_cons, not_mem_nil, or_false] at ha
  rcases ha with rfl | rfl | rfl <;> trivial

def ranges (s : State) : List (Nat × Nat) :=
  s.watchpointsList.map fun n => ((s.wp n).address, s.size n)

theorem bytePerWatchpoint_of_size_one {s : State} (h : ∀ n ∈ s.watchpointsList, s.size n = 1) :
    BytePerWatchpoint s := by
  constructor
  · intro n hn i hi _
    rw [h n hn] at hi
    exact ⟨n, hn, by omega⟩
  · intro n hn _
    exact ⟨n, hn, le_rfl, by rw [h n hn]; omega⟩

/-! ## A range of eight bytes -/

def boot : State := ⟨Watchpoint.boot, fun _ => 0⟩

theorem reach_boot : Reach step protectedLabel Initial boot := .start initial_boot

theorem watched_activate_boot (address size : Nat) : Watched (activate boot address size).toState :=
  watched_of_reach (reach_activate reach_boot rfl address size) ⟨rfl, rfl, fun _ => ⟨rfl, rfl⟩⟩

theorem watchpoints_cover_one_byte :
    Watched (activate boot 0x5008 1).toState ∧ Covers (activate boot 0x5008 1) 0 := by
  refine ⟨watched_activate_boot 0x5008 1,
    (watchpoints_cover_iff _ 0 (watched_activate_boot 0x5008 1)).mpr
      (bytePerWatchpoint_of_size_one ?_)⟩
  intro n hn
  cases List.mem_singleton.mp hn
  rfl

theorem range_not_covered : ∃ s, Reach step protectedLabel Initial s ∧ Watched s.toState ∧
    ranges s = [(0x5008, 8)] ∧ InRange s 0x500c ∧ ¬ Stops s.toState 0x500c ∧ ¬ Covers s 0 := by
  have hin : InRange (activate boot 0x5008 8) 0x500c :=
    ⟨0, mem_singleton_self 0, by decide, by decide⟩
  have hstops : ¬ Stops (activate boot 0x5008 8).toState 0x500c := by
    rw [stops_iff (watched_activate_boot 0x5008 8)]
    rintro ⟨n, hn, haddress⟩
    cases List.mem_singleton.mp hn
    cases haddress
  refine ⟨activate boot 0x5008 8, reach_activate reach_boot rfl .., watched_activate_boot 0x5008 8,
    rfl, hin, hstops, ?_⟩
  intro hcovers
  exact hstops ((hcovers.stops 0x500c (by decide)).mpr hin)

end Guk.WatchpointRange
