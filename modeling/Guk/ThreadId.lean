import Guk.Runs
import Mathlib.Algebra.Group.Nat.Defs
import Mathlib.Data.List.Nodup
import Mathlib.Data.Nat.Basic

/-!
# Thread ids (`sched.c`)

Idle threads have the number of their CPU as id, the next two ids are for the threads
of the debug backend, and the other threads have the ids behind them. Both ranges
have a counter that is read and written without a lock when a thread is created.
-/
namespace Guk.ThreadId

open Runs Function List

structure MaxVirtCpus where
  num : Nat
  fits : num + 2 ≤ 2 ^ 15

inductive Kind where
  | ordinary
  | debug
  deriving DecidableEq, Repr

structure Thread where
  number : Nat
  kind : Kind
  id : Nat
  deriving DecidableEq, Repr

/-- `counter` has `thread_id` and `debug_thread_id`. A creation is in `reading` between the two
halves of `thread_id++`, then in `making` until the thread is in `thread_list`. `calls` is the
number of creations so far, those that failed too; `idle` has the ids of the idle threads. -/
structure State where
  counter : Kind → Nat
  reading : List Thread
  making : List Thread
  threadList : List Thread
  zombies : List Thread
  idle : List Nat
  calls : Nat

inductive Label where
  | read (kind : Kind)
  | write (t : Thread)
  | fail (t : Thread)
  | addThreadList (t : Thread)
  | createIdleThread (cpu : Nat)
  | exitThread (t : Thread)
  | reapDead (t : Thread)

def getThreadById (s : State) (id : Nat) : Option Thread := s.threadList.find? fun t => t.id = id

section

variable (cpus : MaxVirtCpus)

def base : Kind → Nat
  | .ordinary => cpus.num + 2
  | .debug => cpus.num

def step (s : State) : Label → Option State
  | .read kind =>
    some { s with reading := ⟨s.calls, kind, s.counter kind⟩ :: s.reading, calls := s.calls + 1 }
  | .write t =>
    if t ∈ s.reading then
      some { s with
        counter := Function.update s.counter t.kind ((t.id + 1) % 2 ^ 16)
        reading := s.reading.erase t
        making := t :: s.making }
    else none
  | .fail t => if t ∈ s.making then some { s with making := s.making.erase t } else none
  | .addThreadList t =>
    -- the `BUG_ON` stops the system
    if t ∈ s.making ∧ t.id ≠ 0 then
      some { s with making := s.making.erase t, threadList := s.threadList ++ [t] }
    else none
  | .createIdleThread cpu =>
    if cpu < cpus.num then some { s with idle := cpu :: s.idle } else none
  | .exitThread t =>
    if t ∈ s.threadList ∧ t ∉ s.zombies then some { s with zombies := s.zombies ++ [t] } else none
  | .reapDead t =>
    if t ∈ s.zombies then
      some { s with zombies := s.zombies.erase t, threadList := s.threadList.erase t }
    else none

structure Initial (s : State) : Prop where
  counter : s.counter = base cpus
  reading : s.reading = []
  making : s.making = []
  threadList : s.threadList = []
  zombies : s.zombies = []
  idle : s.idle = []
  calls : s.calls = 0

structure Unique (s : State) : Prop where
  distinct : (s.threadList.map Thread.id).Nodup
  designated : ∀ t ∈ s.threadList, getThreadById s t.id = some t

def uniqueStep (s : State) : Label → Prop
  | .read kind =>
    (∀ t ∈ s.reading, t.kind ≠ kind) ∧ (kind = .debug → s.counter .debug < cpus.num + 2) ∧
      s.calls + 1 < 2 ^ 15
  | _ => True

/-! ## The invariant -/

def threads (s : State) : List Thread := s.reading ++ (s.making ++ s.threadList)

structure Inv (s : State) : Prop where
  distinct : ((threads s).map Thread.id).Nodup
  low : ∀ t ∈ threads s, base cpus t.kind ≤ t.id
  debug : ∀ t ∈ threads s, t.kind = .debug → t.id < cpus.num + 2
  taken : ∀ t ∈ s.making ++ s.threadList, t.id < s.counter t.kind
  reading : ∀ t ∈ s.reading, t.id = s.counter t.kind
  few : ∀ t ∈ s.reading, t.id < cpus.num + 2 + s.calls
  counter : ∀ kind, base cpus kind ≤ s.counter kind
  ordinary : s.counter .ordinary ≤ cpus.num + 2 + s.calls
  debugCounter : s.counter .debug ≤ cpus.num + 2
  calls : s.calls < 2 ^ 15

end

variable {cpus : MaxVirtCpus} {s s' : State} {t u : Thread} {kind : Kind}

theorem inv_sub (h : Inv cpus s) (hcounter : s'.counter = s.counter) (hcalls : s'.calls = s.calls)
    (hreading : s'.reading = s.reading) (rest : List Thread)
    (hperm : (s.making ++ s.threadList).Perm (s'.making ++ s'.threadList ++ rest)) :
    Inv cpus s' := by
  have hin : ∀ t ∈ s'.making ++ s'.threadList, t ∈ s.making ++ s.threadList :=
    fun t ht => hperm.mem_iff.mpr (mem_append_left _ ht)
  have hall : ∀ t ∈ threads s', t ∈ threads s := by
    intro t ht
    unfold threads at ht ⊢
    rw [hreading] at ht
    rcases List.mem_append.mp ht with ht | ht
    · exact mem_append_left _ ht
    · exact mem_append_right _ (hin t ht)
  constructor
  · have hperm' : (threads s).Perm (threads s' ++ rest) := by
      unfold threads
      rw [hreading, append_assoc]
      exact hperm.append_left _
    have hnodup := (hperm'.map Thread.id).nodup_iff.mp h.distinct
    rw [map_append] at hnodup
    exact hnodup.of_append_left
  · exact fun t ht => h.low t (hall t ht)
  · exact fun t ht => h.debug t (hall t ht)
  · rw [hcounter]
    exact fun t ht => h.taken t (hin t ht)
  · rw [hreading, hcounter]
    exact h.reading
  · rw [hreading, hcalls]
    exact h.few
  · rw [hcounter]
    exact h.counter
  · rw [hcounter, hcalls]
    exact h.ordinary
  · rw [hcounter]
    exact h.debugCounter
  · rw [hcalls]
    exact h.calls

theorem fresh (h : Inv cpus s) (hok : uniqueStep cpus s (.read kind)) (ht : t ∈ threads s) :
    t.id ≠ s.counter kind := by
  obtain ⟨hreading, hdebug, _⟩ := hok
  have hlow := h.low t ht
  have hcounter := h.counter kind
  by_cases hkind : t.kind = kind
  · rcases List.mem_append.mp ht with ht | ht
    · exact absurd hkind (hreading t ht)
    · have hlt := h.taken t ht
      rw [hkind] at hlt
      exact ne_of_lt hlt
  · cases kind with
    | ordinary =>
      -- the other one is a debug thread
      have hdbg : t.kind = .debug := by
        cases hk : t.kind with
        | ordinary => exact absurd hk hkind
        | debug => rfl
      have hlt := h.debug t ht hdbg
      simp only [base] at hcounter
      omega
    | debug =>
      have hord : t.kind = .ordinary := by
        cases hk : t.kind with
        | ordinary => rfl
        | debug => exact absurd hk hkind
      have hlt := hdebug rfl
      rw [hord] at hlow
      simp only [base] at hlow
      omega

theorem inv_read (h : Inv cpus s) (hok : uniqueStep cpus s (.read kind))
    (hs : step cpus s (.read kind) = some s') : Inv cpus s' := by
  cases hs
  have hthreads : threads { s with
      reading := ⟨s.calls, kind, s.counter kind⟩ :: s.reading, calls := s.calls + 1 } =
      ⟨s.calls, kind, s.counter kind⟩ :: threads s := rfl
  constructor
  · rw [hthreads]
    apply List.nodup_cons.mpr
    refine ⟨?_, h.distinct⟩
    intro hmem
    obtain ⟨t, ht, heq⟩ := List.mem_map.mp hmem
    exact fresh h hok ht heq
  · rw [hthreads]
    intro t ht
    cases ht with
    | head => exact h.counter kind
    | tail _ ht => exact h.low t ht
  · rw [hthreads]
    intro t ht hdebug
    cases ht with
    | head =>
      cases hdebug
      exact hok.2.1 rfl
    | tail _ ht => exact h.debug t ht hdebug
  · exact h.taken
  · intro t ht
    cases ht with
    | head => rfl
    | tail _ ht => exact h.reading t ht
  · intro t ht
    cases ht with
    | head =>
      apply Nat.lt_succ_of_le
      cases kind with
      | ordinary => exact h.ordinary
      | debug => exact le_trans h.debugCounter (Nat.le_add_right _ _)
    | tail _ ht => exact Nat.lt_succ_of_lt (h.few t ht)
  · exact h.counter
  · exact Nat.le_succ_of_le h.ordinary
  · exact h.debugCounter
  · exact hok.2.2

theorem threads_write (ht : t ∈ s.reading) :
    (threads s).Perm (s.reading.erase t ++ (t :: s.making ++ s.threadList)) := by
  have hmove : (s.reading.erase t ++ (t :: s.making ++ s.threadList)).Perm
      (t :: (s.reading.erase t ++ (s.making ++ s.threadList))) := perm_middle
  exact ((perm_cons_erase ht).append_right _).trans hmove.symm

theorem counter_le_write (h : Inv cpus s) (ht : t ∈ s.reading) (kind : Kind) :
    s.counter kind ≤ update s.counter t.kind (t.id + 1) kind := by
  by_cases hkind : kind = t.kind
  · rw [hkind, update_self, h.reading t ht]
    exact Nat.le_succ _
  · exact le_of_eq (update_of_ne hkind _ _).symm

theorem kind_ne_of_reading (h : Inv cpus s) (ht : t ∈ s.reading) (hu : u ∈ s.reading.erase t) :
    u.kind ≠ t.kind := by
  intro hkind
  have hnodup := ((threads_write ht).map Thread.id).nodup_iff.mp h.distinct
  rw [map_append] at hnodup
  have hid : u.id = t.id := by
    rw [h.reading u (mem_of_mem_erase hu), h.reading t ht, hkind]
  apply disjoint_of_nodup_append hnodup (mem_map_of_mem hu)
  exact hid ▸ mem_map_of_mem mem_cons_self

theorem inv_write (h : Inv cpus s) (ht : t ∈ s.reading)
    (hs : step cpus s (.write t) = some s') : Inv cpus s' := by
  simp only [step, if_pos ht, Option.some.injEq] at hs
  subst hs
  have hall : t ∈ threads s := mem_append_left _ ht
  have hfits := cpus.fits
  have hperm := threads_write ht
  have hsmall := h.few t ht
  have hcalls := h.calls
  rw [Nat.mod_eq_of_lt (by omega)]
  have hmem : ∀ u ∈ s.reading.erase t ++ (t :: s.making ++ s.threadList), u ∈ threads s :=
    fun u hu => hperm.mem_iff.mpr hu
  constructor
  · exact (hperm.map Thread.id).nodup_iff.mp h.distinct
  · exact fun u hu => h.low u (hmem u hu)
  · exact fun u hu => h.debug u (hmem u hu)
  · intro u hu
    simp only
    rcases List.mem_cons.mp hu with heq | hu
    · rw [heq, update_self]
      exact Nat.lt_succ_self _
    · exact lt_of_lt_of_le (h.taken u hu) (counter_le_write h ht u.kind)
  · intro u hu
    simp only
    rw [update_of_ne (kind_ne_of_reading h ht hu)]
    exact h.reading u (mem_of_mem_erase hu)
  · exact fun u hu => h.few u (mem_of_mem_erase hu)
  · exact fun kind => le_trans (h.counter kind) (counter_le_write h ht kind)
  · simp only
    by_cases hkind : Kind.ordinary = t.kind
    · rw [hkind, update_self]
      exact hsmall
    · rw [update_of_ne hkind]
      exact h.ordinary
  · simp only
    by_cases hkind : Kind.debug = t.kind
    · rw [hkind, update_self]
      exact h.debug t hall hkind.symm
    · rw [update_of_ne hkind]
      exact h.debugCounter
  · exact hcalls

theorem find_of_distinct {l : List Thread} (h : (l.map Thread.id).Nodup) (ht : t ∈ l) :
    l.find? (fun u => u.id = t.id) = some t := by
  induction l with
  | nil => nomatch ht
  | cons u l ih =>
    rw [map_cons, nodup_cons] at h
    rcases List.mem_cons.mp ht with heq | ht
    · subst heq
      exact List.find?_cons_of_pos (by simp)
    · have hne : u.id ≠ t.id := fun heq => h.1 (heq ▸ mem_map_of_mem ht)
      rw [List.find?_cons_of_neg (by simpa using hne)]
      exact ih h.2 ht

theorem unique_of_inv (h : Inv cpus s) : Unique s := by
  have hdistinct : (s.threadList.map Thread.id).Nodup := by
    have hall := h.distinct
    rw [threads, map_append, map_append] at hall
    exact hall.of_append_right.of_append_right
  constructor
  · exact hdistinct
  · exact fun t ht => find_of_distinct hdistinct ht

theorem inv_initial (h : Initial cpus s) : Inv cpus s := by
  have hthreads : threads s = [] := by rw [threads, h.reading, h.making, h.threadList]; rfl
  constructor
  · rw [hthreads]
    exact nodup_nil
  · rw [hthreads]
    nofun
  · rw [hthreads]
    nofun
  · rw [h.making, h.threadList]
    nofun
  · rw [h.reading]
    nofun
  · rw [h.reading]
    nofun
  · intro kind
    apply le_of_eq
    rw [h.counter]
  · rw [h.counter]
    exact Nat.le_add_right _ _
  · rw [h.counter]
    exact Nat.le_add_right _ _
  · rw [h.calls]
    decide

theorem inv_step {a : Label} (h : Inv cpus s) (hok : uniqueStep cpus s a)
    (hs : step cpus s a = some s') : Inv cpus s' := by
  cases a with
  | read kind => exact inv_read h hok hs
  | write t =>
    by_cases ht : t ∈ s.reading
    · exact inv_write h ht hs
    · simp [step, ht] at hs
  | fail t =>
    by_cases ht : t ∈ s.making
    · simp only [step, if_pos ht, Option.some.injEq] at hs
      subst hs
      have hperm := (perm_cons_erase ht).append_right s.threadList
      exact inv_sub h rfl rfl rfl [t] (hperm.trans (perm_append_singleton _ _).symm)
    · simp [step, ht] at hs
  | addThreadList t =>
    by_cases ht : t ∈ s.making ∧ t.id ≠ 0
    · simp only [step, if_pos ht, Option.some.injEq] at hs
      subst hs
      have hperm := (perm_cons_erase ht.1).append_right s.threadList
      refine inv_sub h rfl rfl rfl [] ?_
      rw [append_nil, ← append_assoc]
      exact hperm.trans (perm_append_singleton _ _).symm
    · simp only [step, if_neg ht, reduceCtorEq] at hs
  | createIdleThread cpu =>
    by_cases hcpu : cpu < cpus.num
    · simp only [step, if_pos hcpu, Option.some.injEq] at hs
      subst hs
      refine inv_sub h rfl rfl rfl [] ?_
      rw [append_nil]
    · simp [step, hcpu] at hs
  | exitThread t =>
    by_cases ht : t ∈ s.threadList ∧ t ∉ s.zombies
    · simp only [step, if_pos ht, Option.some.injEq] at hs
      subst hs
      refine inv_sub h rfl rfl rfl [] ?_
      rw [append_nil]
    · simp only [step, if_neg ht, reduceCtorEq] at hs
  | reapDead t =>
    by_cases ht : t ∈ s.zombies
    · simp only [step, if_pos ht, Option.some.injEq] at hs
      subst hs
      by_cases hl : t ∈ s.threadList
      · have hperm := ((perm_cons_erase hl).append_left s.making).trans perm_middle
        exact inv_sub h rfl rfl rfl [t] (hperm.trans (perm_append_singleton _ _).symm)
      · refine inv_sub h rfl rfl rfl [] ?_
        rw [append_nil, erase_of_not_mem hl]
    · simp [step, ht] at hs

/-- A run in which the debug backend accepts one connection and the counters are not raced for has
one thread for each id. -/
theorem ids_unique (cpus : MaxVirtCpus) (s : State)
    (h : Reach (step cpus) (uniqueStep cpus) (Initial cpus) s) : Unique s :=
  unique_of_inv (h.invariant (fun _ => inv_initial) fun _ _ _ hinv hok hs => inv_step hinv hok hs)

/-! ## Two connections -/

def defaultCpus : MaxVirtCpus := ⟨64, by decide⟩

def boot (cpus : MaxVirtCpus) : State := ⟨base cpus, [], [], [], [], [], 0⟩

theorem initial_boot (cpus : MaxVirtCpus) : Initial cpus (boot cpus) :=
  ⟨rfl, rfl, rfl, rfl, rfl, rfl, rfl⟩

def create (t : Thread) : List Label := [.read t.kind, .write t, .addThreadList t]

def backend : Thread := ⟨0, .debug, 64⟩
def firstHandler : Thread := ⟨1, .debug, 65⟩
def application : Thread := ⟨2, .ordinary, 66⟩
def secondHandler : Thread := ⟨3, .debug, 66⟩

instance (s : State) (a : Label) : Decidable (uniqueStep defaultCpus s a) := by
  unfold uniqueStep
  split <;> infer_instance

theorem ids_unique_one_connection : ∃ s, Reach (step defaultCpus) (uniqueStep defaultCpus)
    (Initial defaultCpus) s ∧
    s.threadList = [backend, firstHandler, application] ∧ Unique s := by
  have hstart :
      Reach (step defaultCpus) (uniqueStep defaultCpus) (Initial defaultCpus) (boot defaultCpus) :=
    .start (initial_boot defaultCpus)
  obtain ⟨s, h, hlist⟩ := hstart.runGuardedTo
    (P := fun s => s.threadList = [backend, firstHandler, application])
    (create backend ++ create firstHandler ++ create application) (by decide +kernel)
  exact ⟨s, h, hlist, ids_unique defaultCpus s h⟩

/-- The handler of the second connection has the id of the first thread of the application. -/
theorem ids_not_unique : ∃ s, Reach (step defaultCpus) anyStep (Initial defaultCpus) s ∧
    s.calls + s.idle.length < 2 ^ 15 ∧ secondHandler ∈ s.threadList ∧
    getThreadById s secondHandler.id = some application ∧ ¬ Unique s := by
  have hstart : Reach (step defaultCpus) anyStep (Initial defaultCpus) (boot defaultCpus) :=
    .start (initial_boot defaultCpus)
  obtain ⟨s, h, hfew, hmem, hfind⟩ := hstart.runTo
    (P := fun s => s.calls + s.idle.length < 2 ^ 15 ∧ secondHandler ∈ s.threadList ∧
      getThreadById s secondHandler.id = some application)
    (create backend ++ create firstHandler ++ create application ++ create secondHandler)
    (by decide +kernel)
  refine ⟨s, h, hfew, hmem, hfind, fun hunique => ?_⟩
  have hmeant := hunique.designated secondHandler hmem
  rw [hfind] at hmeant
  exact absurd hmeant (by decide)

end Guk.ThreadId
