import Guk.Runs
import Guk.Ledger
import Guk.Sched

/-!
# The memory of threads: creation, exit and `reap_dead`

A thread owns its `struct thread` from the heap, a stack and a page for its
floating-point registers. The allocators are free to fail and to choose what they
hand out, as long as it is not in use.
-/
namespace Guk.ThreadMemory

open Runs Ledger Function
open Sched (noCpu)

/-! ## The allocators -/

structure Memory where
  page : Nat → Bool
  block : Nat → Bool

namespace Memory

def setPages (m : Memory) (p n : Nat) (b : Bool) : Memory :=
  { m with page := fun q => if p ≤ q ∧ q < p + n then b else m.page q }

def setBlock (m : Memory) (x : Nat) (b : Bool) : Memory :=
  { m with block := update m.block x b }

/-- An allocator fails, or hands out what it chooses, which is not in use. -/
def handOut (m : Memory) (fresh : Nat → Prop) [DecidablePred fresh] (take : Nat → Memory) :
    Option Nat → Option (Memory × Option Nat)
  | none => some (m, none)
  | some x => if fresh x then some (take x, some x) else none

def allocPages (m : Memory) (order : Nat) : Option Nat → Option (Memory × Option Nat) :=
  m.handOut (fun p => ∀ i < 2 ^ order, m.page (p + i) = false) fun p =>
    m.setPages p (2 ^ order) true

def freePages (m : Memory) (p order : Nat) : Memory := m.setPages p (2 ^ order) false

def xmalloc (m : Memory) : Option Nat → Option (Memory × Option Nat) :=
  m.handOut (m.block · = false) (m.setBlock · true)

def free (m : Memory) (x : Nat) : Memory := m.setBlock x false

end Memory

def stackSizePageOrder : Nat := 2

/-! ## Threads -/

structure Area where
  stack : Nat
  gukStackAllocated : Bool
  fpregs : Nat

structure Thread where
  area : Area
  dying : Bool
  running : Bool
  cpu : Nat

structure State where
  memory : Memory
  threads : Nat → Option Thread
  zombieQueue : List Nat
  before : Memory
  /-- how many creations have called `alloc_page` for the floating-point registers -/
  asked : Nat

structure Creation where
  stack : Option Nat
  thread : Option Nat
  stackPages : Option Nat
  fpregs : Option Nat

def Creation.asksForFpregs (c : Creation) : Bool :=
  c.thread.isSome && (c.stack.isSome || c.stackPages.isSome)

def Creation.fails (c : Creation) : Bool := !(c.asksForFpregs && c.fpregs.isSome)

inductive Label where
  | create (c : Creation)
  | switchIn (t cpu : Nat)
  | switchOut (t : Nat)
  | exit (t : Nat)
  | reapDead (cpu : Nat)

def archCreateThread (m : Memory) (c : Creation) : Option (Memory × Option (Nat × Nat × Bool)) := do
  let (m, thread) ← m.xmalloc c.thread
  match thread with
  | none => return (m, none)
  | some t =>
    match c.stack with
    | some stack => return (m, some (t, stack, false))
    | none =>
      let (m, pages) ← m.allocPages stackSizePageOrder c.stackPages
      match pages with
      | none => return (m.free t, none)
      | some stack => return (m, some (t, stack, true))

def createThread (s : State) (c : Creation) : Option State := do
  let (m, created) ← archCreateThread s.memory c
  match created with
  | none => return { s with memory := m }
  | some (t, stack, allocated) =>
    let (m, fpregs) ← m.allocPages 0 c.fpregs
    match fpregs with
    | none => return { s with memory := m }
    | some fpregs =>
      return { s with
        memory := m
        threads := update s.threads t (some ⟨⟨stack, allocated, fpregs⟩, false, false, noCpu⟩) }

def reap (s : State) (t : Nat) (th : Thread) : State :=
  let m := if th.area.gukStackAllocated then s.memory.freePages th.area.stack stackSizePageOrder
    else s.memory
  { s with
    memory := m.free t
    threads := update s.threads t none
    zombieQueue := s.zombieQueue.filter (· ≠ t) }

def reapOne (cpu : Nat) (s : State) (t : Nat) : State :=
  match s.threads t with
  | none => s
  | some th => if th.dying && !th.running && th.cpu == cpu then reap s t th else s

def reapDead (s : State) (cpu : Nat) : State := s.zombieQueue.foldl (reapOne cpu) s

def setThread (s : State) (t : Nat) (th : Thread) : State :=
  { s with threads := update s.threads t (some th) }

def step (s : State) : Label → Option State
  | .create c => (createThread s c).map fun u => { u with asked := s.asked + c.asksForFpregs.toNat }
  | .switchIn t cpu => do
    let th ← s.threads t
    if th.dying then none else some (setThread s t { th with running := true, cpu := cpu })
  | .switchOut t => do
    let th ← s.threads t
    some (setThread s t { th with running := false })
  | .exit t => do
    let th ← s.threads t
    if th.running && !th.dying then
      some { setThread s t { th with dying := true } with zombieQueue := s.zombieQueue ++ [t] }
    else none
  | .reapDead cpu => some (reapDead s cpu)

structure Initial (s : State) : Prop where
  threads : ∀ t, s.threads t = none
  memory : s.memory = s.before
  asked : s.asked = 0

/-! ## Who owns what -/

def Area.InStack (a : Area) (p : Nat) : Prop :=
  a.gukStackAllocated = true ∧ a.stack ≤ p ∧ p < a.stack + 2 ^ stackSizePageOrder

instance (a : Area) (p : Nat) : Decidable (a.InStack p) := inferInstanceAs (Decidable (_ ∧ _))

def Area.Holds (a : Area) (p : Nat) : Prop := a.InStack p ∨ p = a.fpregs

instance (a : Area) (p : Nat) : Decidable (a.Holds p) := inferInstanceAs (Decidable (_ ∨ _))

def State.areas (s : State) (t : Nat) : Option Area := (s.threads t).map (·.area)

structure Accounts (m before : Memory) (areas : Nat → Option Area) (asked : Nat)
    (pageOwner blockOwner : Nat → Owner Nat) : Prop where
  pages : Balanced m.page before.page (fun t p => ∃ a, areas t = some a ∧ a.Holds p) pageOwner
  blocks : Balanced m.block before.block (fun t x => x = t ∧ (areas t).isSome) blockOwner
  apart : ∀ t a, areas t = some a → ¬ a.InStack a.fpregs
  asked : asked = 0 ↔
    (∀ t, areas t = none) ∧ (∀ p, pageOwner p ≠ .lost) ∧ ∀ x, blockOwner x ≠ .lost

def Inv (s : State) : Prop :=
  ∃ pages blocks, Accounts s.memory s.before s.areas s.asked pages blocks

/-! ## What the allocators do -/

structure Grows (m m' : Memory) (P : Nat → Prop) (t : Nat) : Prop where
  freshPage : ∀ p, P p → m.page p = false
  freshBlock : m.block t = false
  page : ∀ p, m'.page p = true ↔ P p ∨ m.page p = true
  block : ∀ x, m'.block x = true ↔ x = t ∨ m.block x = true

theorem handOut_cases {m m' : Memory} {fresh : Nat → Prop} [DecidablePred fresh]
    {take : Nat → Memory}
    {answer result : Option Nat} (h : m.handOut fresh take answer = some (m', result)) :
    (answer = none ∧ result = none ∧ m' = m) ∨
      ∃ x, answer = some x ∧ result = some x ∧ fresh x ∧ m' = take x := by
  cases answer with
  | none =>
    cases h
    exact .inl ⟨rfl, rfl, rfl⟩
  | some x =>
    obtain ⟨hfree, h⟩ := Option.ite_none_right_eq_some.mp h
    cases h
    exact .inr ⟨x, rfl, rfl, hfree, rfl⟩

theorem setPages_page (m : Memory) (p n q : Nat) :
    (m.setPages p n true).page q = true ↔ (p ≤ q ∧ q < p + n) ∨ m.page q = true := by
  simp only [Memory.setPages]
  split
  · simp [*]
  · simp [*]

theorem setBlock_block (m : Memory) (t x : Nat) :
    (m.setBlock t true).block x = true ↔ x = t ∨ m.block x = true := by
  by_cases hx : x = t
  · simp [Memory.setBlock, hx]
  · simp [Memory.setBlock, hx]

theorem page_false_of_fresh {m : Memory} {p n : Nat} (h : ∀ i < n, m.page (p + i) = false) {q : Nat}
    (hq : p ≤ q ∧ q < p + n) : m.page q = false := by
  have hi := h (q - p) (by omega)
  rwa [Nat.add_sub_cancel' hq.1] at hi

theorem free_setBlock {m : Memory} {t : Nat} (h : m.block t = false) :
    (m.setBlock t true).free t = m := by
  simp [Memory.free, Memory.setBlock, ← h]

variable {c : Creation}

theorem archCreateThread_cases {m m' : Memory} {r : Option (Nat × Nat × Bool)}
    (h : archCreateThread m c = some (m', r)) :
    (c.asksForFpregs = false ∧ r = none ∧ m' = m) ∨
      ∃ t stack allocated, c.asksForFpregs = true ∧ r = some (t, stack, allocated) ∧
        ∀ fpregs, Grows m m' (Area.InStack ⟨stack, allocated, fpregs⟩) t := by
  simp only [archCreateThread, Option.bind_eq_bind, Option.bind_eq_some_iff, Prod.exists] at h
  obtain ⟨m₁, thread, hx, h⟩ := h
  rcases handOut_cases hx with hnull | hsome
  · obtain ⟨hthread, rfl, rfl⟩ := hnull
    cases h
    exact .inl ⟨by simp [Creation.asksForFpregs, hthread], rfl, rfl⟩
  · obtain ⟨t, hthread, rfl, hfree, rfl⟩ := hsome
    cases hstack : c.stack with
    | some stack =>
      simp only [hstack] at h
      cases h
      refine .inr ⟨t, stack, false, by simp [Creation.asksForFpregs, hthread, hstack], rfl,
        fun fpregs => ⟨?_, hfree, ?_, setBlock_block m t⟩⟩
      · simp [Area.InStack]
      · simp [Area.InStack, Memory.setBlock]
    | none =>
      simp only [hstack, Option.bind_eq_some_iff, Prod.exists] at h
      obtain ⟨m₂, pages, hp, h⟩ := h
      rcases handOut_cases hp with hnull | hsome
      · obtain ⟨hpages, rfl, rfl⟩ := hnull
        cases h
        exact .inl ⟨by simp [Creation.asksForFpregs, hstack, hpages], rfl, free_setBlock hfree⟩
      · obtain ⟨stack, hpages, rfl, hfresh, rfl⟩ := hsome
        cases h
        refine .inr ⟨t, stack, true, by simp [Creation.asksForFpregs, hthread, hpages], rfl,
          fun fpregs => ⟨?_, hfree, ?_, setBlock_block m t⟩⟩
        · intro p hp
          exact page_false_of_fresh hfresh hp.2
        · intro p
          rw [setPages_page]
          simp [Area.InStack, Memory.setBlock]

theorem createThread_cases {s u : State} (h : createThread s c = some u) :
    (c.asksForFpregs = false ∧ u = s) ∨
      (c.asksForFpregs = true ∧ ∃ m t a, Grows s.memory m (Area.InStack a) t ∧
        u = { s with memory := m }) ∨
      (c.asksForFpregs = true ∧ c.fails = false) ∧ ∃ m t a, ¬ a.InStack a.fpregs ∧
        Grows s.memory m a.Holds t ∧
        u = { s with
          memory := m, threads := update s.threads t (some ⟨a, false, false, noCpu⟩) } := by
  simp only [createThread, Option.bind_eq_bind, Option.bind_eq_some_iff, Prod.exists] at h
  obtain ⟨m₁, created, hc, h⟩ := h
  rcases archCreateThread_cases hc with hnull | hsome
  · obtain ⟨hasks, rfl, rfl⟩ := hnull
    cases h
    exact .inl ⟨hasks, rfl⟩
  · obtain ⟨t, stack, allocated, hasks, rfl, hg⟩ := hsome
    simp only [Option.bind_eq_some_iff, Prod.exists] at h
    obtain ⟨m₂, fp, hf, h⟩ := h
    rcases handOut_cases hf with hnull | hsome
    · obtain ⟨-, rfl, rfl⟩ := hnull
      cases h
      exact .inr (.inl ⟨hasks, m₂, t, ⟨stack, allocated, 0⟩, hg 0, rfl⟩)
    · obtain ⟨fpregs, hanswer, rfl, hfresh, rfl⟩ := hsome
      cases h
      have hg := hg fpregs
      have hnew : m₁.page fpregs = false := hfresh 0 (by decide)
      have hold : ∀ p, ¬ m₁.page p = true → ¬ Area.InStack ⟨stack, allocated, fpregs⟩ p ∧
          s.memory.page p = false := by
        intro p hp
        rw [hg.page, not_or] at hp
        exact ⟨hp.1, Bool.eq_false_iff.mpr hp.2⟩
      have hfp := hold fpregs (by simp [hnew])
      refine .inr
        (.inr ⟨⟨hasks, by simp [Creation.fails, hasks, hanswer]⟩, _, t, ⟨stack, allocated, fpregs⟩,
        hfp.1, ⟨?_, hg.freshBlock, ?_, ?_⟩, rfl⟩)
      · intro p hp
        rcases hp with hp | hp
        · exact hg.freshPage p hp
        · rw [hp]
          exact hfp.2
      · intro p
        rw [setPages_page, hg.page, Area.Holds, or_assoc]
        have : (fpregs ≤ p ∧ p < fpregs + 2 ^ 0) ↔ p = fpregs := by omega
        rw [this]
        tauto
      · exact hg.block

/-! ## How the accounts change -/

namespace Accounts

variable {m m' before : Memory} {areas : Nat → Option Area} {asked t : Nat} {a : Area}
  {pages blocks : Nat → Owner Nat}

section

variable (h : Accounts m before areas asked pages blocks)

include h

theorem no_area (ht : m.block t = false) : areas t = none := by
  by_contra hne
  exact h.blocks.not_holds ht ⟨rfl, Option.isSome_iff_ne_none.mpr hne⟩

theorem create (hap : ¬ a.InStack a.fpregs) (hg : Grows m m' a.Holds t) :
    Accounts m' before (update areas t (some a)) (asked + 1)
      (transfer pages a.Holds (.holder t)) (transfer blocks (· = t) (.holder t)) := by
  have hnone := h.no_area hg.freshBlock
  constructor
  · apply h.pages.take hg.freshPage hg.page
    intro u p
    by_cases hu : u = t
    · subst hu
      simp [hnone]
    · simp [hu]
  · apply h.blocks.take (fun x hx => by rw [hx]; exact hg.freshBlock) hg.block
    intro u x
    by_cases hu : u = t
    · subst hu
      simp [hnone]
    · simp [hu]
  · intro u b hb
    by_cases hu : u = t
    · subst hu
      rw [update_self, Option.some.injEq] at hb
      rwa [← hb]
    · rw [update_of_ne hu] at hb
      exact h.apart u b hb
  · apply iff_of_false (Nat.succ_ne_zero asked)
    intro hall
    have ht := hall.1 t
    rw [update_self] at ht
    cases ht

theorem lose (hg : Grows m m' a.InStack t) :
    Accounts m' before areas (asked + 1) (transfer pages a.InStack .lost)
      (transfer blocks (· = t) .lost) := by
  constructor
  · exact h.pages.lose hg.freshPage hg.page
  · exact h.blocks.lose (fun x hx => by rw [hx]; exact hg.freshBlock) hg.block
  · exact h.apart
  · apply iff_of_false (Nat.succ_ne_zero asked)
    intro hall
    exact hall.2.2 t (by simp [transfer])

theorem reap (ha : areas t = some a)
    (hpage : ∀ p, m'.page p = true ↔ m.page p = true ∧ ¬ a.InStack p)
    (hblock : ∀ x, m'.block x = true ↔ m.block x = true ∧ x ≠ t) :
    Accounts m' before (update areas t none) asked
      (giveUp pages t (· = a.fpregs)) (giveUp blocks t fun _ => False) := by
  have hap := h.apart t a ha
  constructor
  · apply h.pages.drop
    · intro p
      have hkeep : ((∃ b, areas t = some b ∧ b.Holds p) → p = a.fpregs) ↔ ¬ a.InStack p := by
        simp only [ha, Option.some.injEq, exists_eq_left', Area.Holds]
        constructor
        · rintro hor hin
          rw [hor (.inl hin)] at hin
          exact hap hin
        · rintro hin (hp | hp)
          · exact absurd hp hin
          · exact hp
      rw [hkeep]
      exact hpage p
    · intro u p
      by_cases hu : u = t
      · simp [hu]
      · simp [hu]
  · apply h.blocks.drop
    · intro x
      simpa [ha] using hblock x
    · intro u x
      by_cases hu : u = t
      · simp [hu]
      · simp [hu]
  · intro u b hb
    by_cases hu : u = t
    · subst hu
      rw [update_self] at hb
      cases hb
    · rw [update_of_ne hu] at hb
      exact h.apart u b hb
  · apply iff_of_false
    · intro h0
      rw [(h.asked.mp h0).1 t] at ha
      cases ha
    · intro hall
      have hown := (h.pages.holds t a.fpregs).mp ⟨a, ha, .inr rfl⟩
      exact hall.2.1 a.fpregs (by simp [giveUp, hown])

end

end Accounts

/-! ## Runs -/

variable {s u : State}

theorem inv_initial (h : Initial s) : Inv s := by
  have hareas : ∀ t, s.areas t = none := by
    intro t
    simp [State.areas, h.threads t]
  refine ⟨opening s.before.page, opening s.before.block, ?_, ?_, ?_, ?_⟩
  · rw [h.memory]
    exact .open_books (by simp [hareas])
  · rw [h.memory]
    exact .open_books (by simp [hareas])
  · simp [hareas]
  · refine iff_of_true h.asked ⟨hareas, fun p => ?_, fun x => ?_⟩
    · cases hp : s.before.page p <;> simp [opening, hp]
    · cases hx : s.before.block x <;> simp [opening, hx]

theorem areas_setThread {t : Nat} {th th' : Thread} (ht : s.threads t = some th)
    (ha : th'.area = th.area) : (setThread s t th').areas = s.areas := by
  funext u
  by_cases hut : u = t
  · simp [State.areas, setThread, hut, ht, ha]
  · simp [State.areas, setThread, hut]

theorem inv_setThread {t : Nat} {th th' : Thread} (h : Inv s) (ht : s.threads t = some th)
    (ha : th'.area = th.area) : Inv (setThread s t th') := by
  obtain ⟨pages, blocks, hacc⟩ := h
  refine ⟨pages, blocks, ?_⟩
  rw [areas_setThread ht ha]
  exact hacc

theorem areas_update (s : State) (t : Nat) (th : Option Thread) :
    (fun u => (update s.threads t th u).map (·.area)) =
      update s.areas t (th.map (·.area)) := by
  funext u
  by_cases hut : u = t
  · simp [hut]
  · simp [State.areas, hut]

theorem inv_createThread (h : Inv s) (hs : createThread s c = some u) :
    Inv { u with asked := s.asked + c.asksForFpregs.toNat } := by
  obtain ⟨pages, blocks, hacc⟩ := h
  rcases createThread_cases hs with ⟨hasks, rfl⟩ | ⟨hasks, m, t, a, hg, rfl⟩ |
    ⟨⟨hasks, -⟩, m, t, a, hap, hg, rfl⟩ <;>
    rw [hasks]
  · exact ⟨pages, blocks, hacc⟩
  · exact ⟨_, _, hacc.lose hg⟩
  · have hnew := hacc.create hap hg
    have hareas := areas_update s t (some ⟨a, false, false, noCpu⟩)
    rw [Option.map_some] at hareas
    rw [← hareas] at hnew
    exact ⟨_, _, hnew⟩

theorem reap_page (s : State) (t : Nat) (th : Thread) (p : Nat) :
    (reap s t th).memory.page p = true ↔ s.memory.page p = true ∧ ¬ th.area.InStack p := by
  simp only [reap, Memory.free, Memory.setBlock, Memory.freePages, Memory.setPages, Area.InStack]
  split
  · by_cases hp : th.area.stack ≤ p ∧ p < th.area.stack + 2 ^ stackSizePageOrder
    · simp [*]
    · simp [*]
  · simp [*]

theorem reap_block (s : State) (t : Nat) (th : Thread) (x : Nat) :
    (reap s t th).memory.block x = true ↔ s.memory.block x = true ∧ x ≠ t := by
  have hblock : (if th.area.gukStackAllocated = true then
      s.memory.freePages th.area.stack stackSizePageOrder else s.memory).block =
      s.memory.block := by
    split <;> rfl
  simp only [reap, Memory.free, Memory.setBlock, hblock]
  by_cases hx : x = t
  · simp [hx]
  · simp [hx]

theorem inv_reapOne (cpu t : Nat) (h : Inv s) : Inv (reapOne cpu s t) := by
  simp only [reapOne]
  split
  · exact h
  · rename_i th ht
    split
    · obtain ⟨pages, blocks, hacc⟩ := h
      have ha : s.areas t = some th.area := by simp [State.areas, ht]
      have hnew := hacc.reap ha (reap_page s t th) (reap_block s t th)
      have hareas := areas_update s t none
      rw [Option.map_none] at hareas
      rw [← hareas] at hnew
      exact ⟨_, _, hnew⟩
    · exact h

theorem inv_reapDead (cpu : Nat) (h : Inv s) : Inv (reapDead s cpu) := by
  simp only [reapDead]
  generalize s.zombieQueue = q
  induction q generalizing s with
  | nil => exact h
  | cons t q ih => exact ih (inv_reapOne cpu t h)

theorem inv_step {l : Label} (h : Inv s) (hs : step s l = some u) : Inv u := by
  cases l with
  | create c =>
    obtain ⟨v, hv, rfl⟩ := Option.map_eq_some_iff.mp hs
    exact inv_createThread h hv
  | switchIn t cpu =>
    simp only [step, Option.bind_eq_bind, Option.bind_eq_some_iff,
      Option.ite_none_left_eq_some] at hs
    obtain ⟨th, ht, -, hs⟩ := hs
    cases hs
    exact inv_setThread h ht rfl
  | switchOut t =>
    simp only [step, Option.bind_eq_bind, Option.bind_eq_some_iff] at hs
    obtain ⟨th, ht, hs⟩ := hs
    cases hs
    exact inv_setThread h ht rfl
  | exit t =>
    simp only [step, Option.bind_eq_bind, Option.bind_eq_some_iff,
      Option.ite_none_right_eq_some] at hs
    obtain ⟨th, ht, -, hs⟩ := hs
    cases hs
    exact inv_setThread h ht rfl
  | reapDead cpu =>
    cases hs
    exact inv_reapDead cpu h

theorem reach_inv (h : Reach step anyStep Initial s) : Inv s := by
  apply h.invariant
  · exact fun _ => inv_initial
  · exact fun _ _ _ hi _ hs => inv_step hi hs

theorem failed_creation_memory (hs : createThread s c = some u)
    (hf : c.fails = true) : u.memory = s.memory ↔ c.asksForFpregs = false := by
  rcases createThread_cases hs with ⟨hasks, rfl⟩ | ⟨hasks, m, t, a, hg, rfl⟩ | ⟨⟨-, hok⟩, -⟩
  · exact iff_of_true rfl hasks
  · apply iff_of_false
    · intro heq
      have hb := (hg.block t).mpr (.inl rfl)
      rw [show m = s.memory from heq, hg.freshBlock] at hb
      cases hb
    · simp [hasks]
  · rw [hf] at hok
    cases hok

theorem reaped_memory (h : Inv s) (hnone : ∀ t, s.threads t = none) :
    s.memory = s.before ↔ s.asked = 0 := by
  obtain ⟨pages, blocks, hacc⟩ := h
  have hareas : ∀ t, s.areas t = none := by
    intro t
    simp [State.areas, hnone t]
  have hpages := hacc.pages.settled (by simp [hareas])
  have hblocks := hacc.blocks.settled (by simp [hareas])
  rw [hacc.asked, ← hpages, ← hblocks]
  constructor
  · intro heq
    rw [heq]
    exact ⟨hareas, rfl, rfl⟩
  · rintro ⟨-, hpage, hblock⟩
    cases hm : s.memory
    cases hb : s.before
    simp_all

/-- In every state of every run: a creation that fails leaves the memory as it was
just when it fails before it asks for a floating-point page; and once all threads
are reaped, the memory is what it was at first just when no creation has ever
asked for one. -/
theorem thread_memory_conserved_iff (s : State) (h : Reach step anyStep Initial s) :
    (∀ c u, step s (.create c) = some u → c.fails = true →
      (u.memory = s.memory ↔ c.asksForFpregs = false)) ∧
    ((∀ t, s.threads t = none) → (s.memory = s.before ↔ s.asked = 0)) := by
  constructor
  · intro c u hs hf
    obtain ⟨v, hv, rfl⟩ := Option.map_eq_some_iff.mp hs
    exact failed_creation_memory (u := v) hv hf
  · exact reaped_memory (reach_inv h)

def nothing : State where
  memory := ⟨fun _ => false, fun _ => false⟩
  threads _ := none
  zombieQueue := []
  before := ⟨fun _ => false, fun _ => false⟩
  asked := 0

theorem nothing_initial : Initial nothing := ⟨fun _ => rfl, rfl, rfl⟩

theorem thread_memory_conserved_iff_no_stack :
    ∃ s, step nothing (.create ⟨none, some 0, none, none⟩) = some s ∧
      s.memory = nothing.memory ∧ s.memory = s.before := by
  have h₀ : Reach step anyStep Initial nothing := .start nothing_initial
  obtain ⟨s, hs, hthreads, hasked⟩ : ∃ s,
      step nothing (.create ⟨none, some 0, none, none⟩) = some s ∧ (∀ t, s.threads t = none) ∧
        s.asked = 0 := ⟨_, rfl, fun _ => rfl, rfl⟩
  have h₁ := Reach.next _ h₀ trivial hs
  refine ⟨s, hs, ?_, ?_⟩
  · exact ((thread_memory_conserved_iff nothing h₀).1 _ s hs rfl).mpr rfl
  · exact ((thread_memory_conserved_iff s h₁).2 hthreads).mpr hasked

/-- A thread that is created, runs, exits and is reaped leaves page 4 allocated; a
creation that gets no floating-point page leaves its block and its stack. -/
theorem thread_memory_leaks :
    (∃ s, Reach step anyStep Initial s ∧ (∀ t, s.threads t = none) ∧
      s.before.page 4 = false ∧ s.memory.page 4 = true) ∧
    ∃ u, step nothing (.create ⟨none, some 0, some 0, none⟩) = some u ∧
      (∀ t, u.threads t = none) ∧ u.memory.block 0 = true ∧ u.memory.page 0 = true := by
  constructor
  · let labels : List Label :=
      [.create ⟨none, some 0, some 0, some 4⟩, .switchIn 0 1, .exit 0, .switchOut 0, .reapDead 1]
    obtain ⟨s, hs, hthreads, hpages⟩ : ∃ s, run step nothing labels = some s ∧
        (∀ t, s.threads t = none) ∧ s.before.page 4 = false ∧ s.memory.page 4 = true := by
      refine ⟨_, rfl, fun t => ?_, rfl, rfl⟩
      cases t with
      | zero | succ t => rfl
    exact ⟨s, Reach.run (.start nothing_initial) labels hs, hthreads, hpages⟩
  · refine ⟨_, rfl, fun _ => rfl, rfl, rfl⟩

end Guk.ThreadMemory
