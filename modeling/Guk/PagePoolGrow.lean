import Guk.PagePoolBoot
import Guk.PagePoolCount

/-!
# Growing the pool, with the tables

The pool of `Guk.PagePool` together with `phys_to_machine_mapping` and the mapping of
its pages. `increase_reservation` writes the numbers of the pages it asks for into
the table before the hypercall, and Xen overwrites those that it populates.
-/
namespace Guk.PagePool

open Bitmap Runs List

/-! ## The functions -/

/-- The answer to a call of `increase_reservation`, with the frames that Xen gives in turn (frame 0
is Xen's own) and the number of pages that are mapped if the page tables cannot be finished. -/
structure Grant extends Answer where
  frame : Nat → Nat
  mapped : Nat
  pos : ∀ i, 0 < frame i

abbrev Grants := Nat → Grant

def Grants.rest (xen : Grants) : Grants := fun k => xen (k + 1)

def Grants.answers (xen : Grants) : Xen := fun k => (xen k).toAnswer

structure Memory where
  pool : Pool
  p2m : Nat → Nat
  mapping : Nat → Option Nat
  given : Nat → Option Nat

def fillPfns (p2m : Nat → Nat) (start nr rc : Nat) (frame : Nat → Nat) (p : Nat) : Nat :=
  if start ≤ p ∧ p < start + nr then if p < start + rc then frame (p - start) else p else p2m p

def mapPages (p2m : Nat → Nat) (start n : Nat) (mapping : Nat → Option Nat) (p : Nat) :
    Option Nat :=
  if start ≤ p ∧ p < start + n ∧ 0 < p2m p then some (p2m p) else mapping p

def Memory.increaseReservation (m : Memory) (nrPages start : Nat) (grant : Grant) : Memory × Nat :=
  let rc := min grant.populated nrPages
  let p2m := fillPfns m.p2m start nrPages rc grant.frame
  let m := { m with
    p2m := p2m
    given :=
      fun p => if start ≤ p ∧ p < start + rc then some (grant.frame (p - start)) else m.given p }
  if rc = 0 then (m, 0)
  else
    match allocateFrames m.pool grant.frames with
    | (t, true) => ({ m with pool := t, mapping := mapPages p2m start rc m.mapping }, rc)
    | (t, false) =>
        ({ m with pool := t, mapping := mapPages p2m start (min grant.mapped rc) m.mapping }, 0)

def Memory.increaseLoop : Nat → Memory → Nat → Nat → Grants → Memory × Nat
  | 0, m, _, result, _ => (m, result)
  | fuel + 1, m, n, result, xen =>
    if n = 0 then (m, result)
    else
      match m.pool.memoryHoleList with
      | [] => (m, result)
      | hole :: _ =>
        let (t, rc) := m.increaseReservation (min hole.size n) hole.startPfn (xen 0)
        if rc = 0 then (t, result)
        else Memory.increaseLoop fuel { t with pool := recordIncrease t.pool hole hole.size rc }
          (n - rc)
          (result + rc) xen.rest

def Memory.increaseMemory (m : Memory) (n : Nat) (xen : Grants) : Memory × Nat :=
  if m.pool.inIncreaseMemory then ({ m with pool := { m.pool with inIncreaseMemory := false } }, 0)
  else
    let m := { m with pool := { m.pool with inIncreaseMemory := true } }
    let (t, result) :=
      if canIncrease m.pool.memoryHoleList n ≠ 0 then Memory.increaseLoop n m n 0 xen else (m, 0)
    ({ t with pool := { t.pool with inIncreaseMemory := false } }, result)

/-- The memory before a call, when no page has been given. -/
abbrev Memory.before (s : Pool) (p2m : Nat → Nat) (mapping : Nat → Option Nat) : Memory :=
  ⟨s, p2m, mapping, fun _ => none⟩

variable {s t u : Pool} {m m' m₀ : Memory} {b f : Bool}
  {page n p rc k fuel result start pages : Nat} {hole : Hole}
  {rest : List Hole} {grant : Grant} {xen : Grants}

/-! ## The pool in it -/

theorem increaseReservation_pool (m : Memory) (n start : Nat) (grant : Grant) :
    (m.increaseReservation n start grant).1.pool = (increaseReservation m.pool n grant.toAnswer).1 ∧
      (m.increaseReservation n start grant).2 =
        (increaseReservation m.pool n grant.toAnswer).2 := by
  unfold Memory.increaseReservation increaseReservation
  simp only
  split
  · exact ⟨rfl, rfl⟩
  · rcases allocateFrames m.pool grant.frames with ⟨t, ok⟩
    cases ok <;> exact ⟨rfl, rfl⟩

theorem increaseLoop_pool (fuel : Nat) (m : Memory) (n result : Nat) (xen : Grants) :
    (Memory.increaseLoop fuel m n result xen).1.pool =
      (increaseLoop fuel m.pool n result xen.answers).1 ∧
      (Memory.increaseLoop fuel m n result xen).2 =
        (increaseLoop fuel m.pool n result xen.answers).2.1 := by
  induction fuel generalizing m n result xen with
  | zero => exact ⟨rfl, rfl⟩
  | succ fuel ih =>
    rw [Memory.increaseLoop]
    by_cases hn : n = 0
    · rw [if_pos hn, increaseLoop_stop (.inl hn)]
      exact ⟨rfl, rfl⟩
    · rw [if_neg hn]
      cases hl : m.pool.memoryHoleList with
      | nil =>
        rw [increaseLoop_stop (.inr hl)]
        exact ⟨rfl, rfl⟩
      | cons hole rest =>
        obtain ⟨hpool, hrc⟩ := increaseReservation_pool m (min hole.size n) hole.startPfn (xen 0)
        have hanswer : (xen 0).toAnswer = xen.answers 0 := rfl
        rw [hanswer] at hpool hrc
        rw [increaseLoop_cons hn hl]
        simp only [hrc]
        split
        · exact ⟨hpool, rfl⟩
        · rw [← hpool]
          exact ih _ _ _ _

theorem increaseMemory_pool (m : Memory) (n : Nat) (xen : Grants) :
    (m.increaseMemory n xen).1.pool = (increaseMemory m.pool n xen.answers).1 ∧
      (m.increaseMemory n xen).2 = (increaseMemory m.pool n xen.answers).2.1 := by
  unfold Memory.increaseMemory increaseMemory
  split
  · exact ⟨rfl, rfl⟩
  · simp only
    split
    · obtain ⟨hpool, hresult⟩ := increaseLoop_pool n
        { m with pool := { m.pool with inIncreaseMemory := true } } n 0 xen
      simp only at hpool hresult
      rw [hpool, hresult]
      exact ⟨rfl, rfl⟩
    · exact ⟨rfl, rfl⟩

/-! ## What it should do -/

instance (h : Hole) (p : Nat) : Decidable (h.Has p) := inferInstanceAs (Decidable (_ ∧ _))

instance (s : Pool) (p : Nat) : Decidable (InHole s p) :=
  inferInstanceAs (Decidable (∃ h ∈ s.memoryHoleList, h.Has p))

def Usable (t : Pool) (p : Nat) : Prop := allocated t p = false ∨ (p, 1) ∈ t.live

def Framed (s t : Pool) (r : Nat) : Prop := ∃ frames : List Nat,
  t.live = frames.map (fun p => (p, 1)) ++ s.live ∧
  (t.numFreePages + frames.length) % 2 ^ 64 = (s.numFreePages + r) % 2 ^ 64 ∧
  (t.numFreeBulkPages + frames.countP (s.firstBulkPage ≤ ·)) % 2 ^ 64 = (s.numFreeBulkPages + r) % 2
    ^ 64

def SameRecord (s : Pool) (h : Hole) (p : Nat) : Prop :=
  ∃ h₀ ∈ s.memoryHoleList, h₀.Has p ∧ h₀.id = h.id ∧ h₀.endPfn = h.endPfn

structure Grown (m m' : Memory) (r : Nat) : Prop where
  number :
    countIn (fun p => decide (InHole m.pool p ∧ ¬ InHole m'.pool p)) 0 m.pool.maxEndAllocPage = r
  moved : ∀ p, InHole m.pool p → ¬ InHole m'.pool p →
    Usable m'.pool p ∧ ∃ f, m'.given p = some f ∧ m'.p2m p = f ∧ m'.mapping p = some f
  counters : Framed m.pool m'.pool r
  stays : ∀ h ∈ m'.pool.memoryHoleList, ∀ p, h.Has p →
    SameRecord m.pool h p ∧ allocated m'.pool p = allocated m.pool p ∧ m'.p2m p = m.p2m p

/-- The pages that a request for one page can still find, in either region. -/
def available (s : Pool) : Nat :=
  clearBits s s.firstFreePage s.firstBulkPage + clearBits s s.firstFreeBulkPage s.endAllocPage

/-- The holes when `rc` pages of the first one have come back. -/
def holesLeft (hole : Hole) (rest : List Hole) (rc : Nat) : List Hole :=
  if hole.size = rc then rest else { hole with startPfn := hole.startPfn + rc } :: rest

/-- The requests of an increase by `n` pages, by the holes and Xen's answers alone: where the
request starts, its pages, the frames of page tables needed up to it, and the answer to it. -/
inductive Asked : List Hole → Nat → Grants → Nat → Nat → Nat → Grant → Prop where
  | first {hole : Hole} {rest : List Hole} {n : Nat} {xen : Grants} (hn : 0 < n) :
      Asked (hole :: rest) n xen hole.startPfn (min hole.size n) (xen 0).frames (xen 0)
  | later {hole : Hole} {rest : List Hole} {n rc start nr frames : Nat} {xen : Grants}
      {grant : Grant} (hrc : rc = min (xen 0).populated (min hole.size n)) (hpos : 0 < rc)
      (h : Asked (holesLeft hole rest rc) (n - rc) xen.rest start nr frames grant) :
      Asked (hole :: rest) n xen start nr ((xen 0).frames + frames) grant

/-- A request that Xen refuses, or for which `pages` pages are not enough for the page tables, finds
in the table what `increase_reservation` writes there. -/
def Untouched (p2m : Nat → Nat) (holes : List Hole) (n : Nat) (xen : Grants) (pages : Nat) : Prop :=
  ∀ start nr frames grant, Asked holes n xen start nr frames grant →
    grant.populated = 0 ∨ pages < frames → ∀ p, start ≤ p → p < start + nr →
      p2m p = if p < start + grant.populated then grant.frame (p - start) else p

/-- The page tables of every request can be built from `pages` pages. -/
def Buildable (holes : List Hole) (n : Nat) (xen : Grants) (pages : Nat) : Prop :=
  ∀ start nr frames grant, Asked holes n xen start nr frames grant → frames ≤ pages

/-- The call goes as far as its requests: it is not a nested one, and the holes have the pages. -/
def Serves (s : Pool) (n : Nat) : Prop :=
  s.inIncreaseMemory = false ∧ n ≤ holePages s.memoryHoleList

/-! ## The pool grows -/

structure Fit (s : Pool) : Prop where
  wf : Wf s
  fits : s.maxEndAllocPage < 2 ^ 31

theorem fit_take (h : Fit s) (hsmall : b = false → isBulk n = false)
    (hs : search s b n = some page) :
    Fit (take s b page n) := by
  refine ⟨wf_take h.wf h.fits hs hsmall, ?_⟩
  rw [take_maxEndAllocPage]
  exact h.fits

theorem fit_flag (h : Fit s) : Fit { s with inIncreaseMemory := f } := ⟨wf_flag h.wf, h.fits⟩

structure Grows (s t : Pool) (r : Nat) : Prop where
  fit : Fit t
  max : t.maxEndAllocPage = s.maxEndAllocPage
  bulk : t.firstBulkPage = s.firstBulkPage
  counters : Framed s t r
  stays : ∀ h ∈ t.memoryHoleList, ∀ p, h.Has p → SameRecord s h p ∧ allocated t p = allocated s p

theorem grows_flag (h : Grows s t k) : Grows s { t with inIncreaseMemory := f } k :=
  { h with fit := fit_flag h.fit }

theorem grows_take (h : Grows s t k) (hs : search t b 1 = some page) :
    Grows s (take t b page 1) k := by
  obtain ⟨-, hfree, -, hend, hreg, hbulk⟩ := h.fit.wf.found hs
  refine ⟨fit_take h.fit (fun _ => rfl) hs, ?_, ?_, ?_, ?_⟩
  · rw [take_maxEndAllocPage]
    exact h.max
  · rw [take_firstBulkPage]
    exact h.bulk
  · obtain ⟨frames, hlive, hpages, hcount⟩ := h.counters
    rw [h.bulk] at hreg hbulk
    refine ⟨page :: frames, ?_, ?_, ?_⟩
    · rw [take_live, hlive]
      rfl
    · rw [take_numFreePages, length_cons]
      simp only [sub64]
      omega
    · rw [take_numFreeBulkPages, countP_cons]
      cases b with
      | false =>
        have hlt := hreg rfl
        have hsmall : ¬ decide (s.firstBulkPage ≤ page) = true := by
          simp only [decide_eq_true_eq]
          omega
        rw [if_neg Bool.false_ne_true, if_neg hsmall]
        exact hcount
      | true =>
        have hge := hbulk rfl
        rw [if_pos rfl, if_pos (by simpa using hge)]
        simp only [sub64]
        omega
  · rw [take_memoryHoleList]
    intro a ha p hhas
    obtain ⟨hrec, hbit⟩ := h.stays a ha p hhas
    refine ⟨hrec, ?_⟩
    rw [allocated_take, hbit]
    by_cases hp : page ≤ p ∧ p < page + 1
    · have hset := h.fit.wf.holeSet a ha p hhas (by omega)
      rw [hfree p hp.1 hp.2] at hset
      cases hset
    · rw [decide_eq_false hp, Bool.or_false]

theorem grows_recordIncrease (h : Grows s t k) (hl : t.memoryHoleList = hole :: rest) (hrc : 0 < rc)
    (hle : rc ≤ hole.size) : Grows s (recordIncrease t hole hole.size rc) (k + rc) := by
  refine ⟨⟨wf_recordIncrease h.fit.wf hl hrc hle, h.fit.fits⟩, h.max, h.bulk, ?_, ?_⟩
  · obtain ⟨frames, hlive, hpages, hcount⟩ := h.counters
    refine ⟨frames, hlive, ?_, ?_⟩
    · change (add64 t.numFreePages rc + _) % _ = _
      simp only [add64]
      omega
    · change (add64 t.numFreeBulkPages rc + _) % _ = _
      simp only [add64]
      omega
  · intro a ha p hhas
    obtain ⟨-, -, -, hge⟩ := has_recordIncrease h.fit.wf hl hrc hle ha hhas
    have hbit : allocated (recordIncrease t hole hole.size rc) p = allocated t p := by
      rw [allocated_recordIncrease, decide_eq_false (by omega), Bool.not_false, Bool.and_true]
    rw [hbit]
    rcases mem_recordIncrease h.fit.wf hl hrc hle ha with ⟨rfl, -⟩ | hrest
    · exact h.stays hole (hl ▸ mem_cons_self) p
        ⟨by have := hhas.1; simp only at this; omega, hhas.2⟩
    · exact h.stays a (hl ▸ mem_cons_of_mem _ hrest) p hhas

theorem grows_allocateFrames (h : Grows s t k) (n : Nat) : Grows s (allocateFrames t n).1 k :=
  allocateFrames_rule (P := fun t => Grows s t k) (fun _ _ h => grows_flag h)
    (fun _ _ _ h hs => grows_take h hs) h

theorem usable_allocateFrames (h : Usable t p) (n : Nat) : Usable (allocateFrames t n).1 p := by
  apply allocateFrames_rule (P := fun t => Usable t p) (fun _ _ h => h) _ h
  intro t b page h _
  by_cases hp : page = p
  · apply Or.inr
    rw [take_live, hp]
    exact mem_cons_self
  · rcases h with hfree | hlive
    · apply Or.inl
      rw [allocated_take, hfree, decide_eq_false (by omega)]
      rfl
    · apply Or.inr
      rw [take_live]
      exact mem_cons_of_mem _ hlive

/-! ## Pages for the page tables -/

theorem clearBits_nextFree (hend : s.endAllocPage < 2 ^ 31) (hpage : page ≤ s.endAllocPage)
    (hi : Nat) :
    clearBits s (nextFree s page) hi = clearBits s page hi := by
  obtain ⟨hge, -, hskip⟩ := nextFree_spec hend hpage
  have hnone : ∀ hi, hi ≤ nextFree s page → clearBits s page hi = 0 :=
    fun hi hle => clearBits_eq_zero.mpr fun p h₁ h₂ => hskip p h₁ (by omega)
  by_cases hhi : nextFree s page ≤ hi
  · rw [clearBits_split hge hhi, hnone _ le_rfl, Nat.zero_add]
  · rw [hnone hi (by omega)]
    exact clearBits_eq_zero.mpr fun p h₁ h₂ => by omega

/-- The hint moves past pages in use only. -/
theorem clearBits_take_hint {lo hi : Nat} (h : Fit s) (hs : search s b 1 = some page)
    (hlo : lo ≤ page) (hhi : page < hi) :
    clearBits (take s b page 1) (if page = lo then nextFree s (page + 1) else lo) hi + 1 =
      clearBits s lo hi := by
  obtain ⟨-, hfree, -, hend, -⟩ := h.wf.found hs
  have hmax := h.wf.end_le
  have hfits := h.fits
  have htake := clearBits_take (b := b) hlo (show page + 1 ≤ hi by omega) hfree
  split
  case isTrue heq =>
    subst heq
    obtain ⟨hge, -⟩ := nextFree_spec (by omega) hend
    have htaken : clearBits (take s b page 1) page (page + 1) = 0 := by
      apply clearBits_eq_zero.mpr
      intro p h₁ h₂
      rw [allocated_take, decide_eq_true ⟨h₁, h₂⟩, Bool.or_true]
    rw [clearBits_take_of_below hge, clearBits_nextFree (by omega) hend]
    rw [clearBits_split (Nat.le_add_right page 1) hhi, htaken,
      clearBits_take_of_below le_rfl] at htake
    omega
  case isFalse => exact htake

theorem available_take (h : Fit s) (hs : search s b 1 = some page) :
    available (take s b page 1) + 1 = available s := by
  obtain ⟨hge, -, hlt, hfree⟩ := search_sound hs
  have hlow := h.wf.bulkHintLow
  rw [available, available, take_firstFreePage, take_firstBulkPage, take_firstFreeBulkPage,
    take_endAllocPage]
  cases b with
  | false =>
    simp only [hint, regionEnd, Bool.false_eq_true, if_false] at hge hlt
    have hsmall := clearBits_take_hint h hs hge hlt
    have hbulk : clearBits (take s false page 1) s.firstFreeBulkPage s.endAllocPage =
        clearBits s s.firstFreeBulkPage s.endAllocPage := clearBits_take_of_below (by omega)
    simp only [Bool.false_eq_true, false_and, true_and, if_false]
    omega
  | true =>
    simp only [hint, regionEnd, if_true] at hge hlt
    have hbulk := clearBits_take_hint h hs hge hlt
    have hsmall : clearBits (take s true page 1) s.firstFreePage s.firstBulkPage =
        clearBits s s.firstFreePage s.firstBulkPage := by
      apply countIn_congr
      intro p _ h₂
      rw [allocated_take, decide_eq_false (by omega), Bool.or_false]
    simp only [true_and, Bool.true_eq_false, false_and, if_false]
    omega

theorem available_eq_zero (hsmall : search s false 1 = none) (hbulk : search s true 1 = none) :
    available s = 0 := by
  have hnone : ∀ b, search s b 1 = none → clearBits s (hint s b) (regionEnd s b) = 0 := by
    intro b hs
    apply clearBits_eq_zero.mpr
    intro p hge hlt
    by_contra hclear
    obtain ⟨page, hfound, -⟩ := search_one hge hlt (Bool.eq_false_iff.mpr hclear)
    cases hs.symm.trans hfound
  have h₁ := hnone false hsmall
  have h₂ := hnone true hbulk
  simp only [hint, regionEnd, Bool.false_eq_true, if_false, if_true] at h₁ h₂
  rw [available, h₁, h₂]

theorem allocateFrame_available (h : Fit s) : Fit (allocateFrame s).1 ∧
    available s ≤ available (allocateFrame s).1 + 1 ∧
      (0 < available s → (allocateFrame s).2 = true) := by
  rw [allocateFrame]
  split
  case h_1 page hs =>
    exact ⟨fit_take h (fun _ => rfl) hs, le_of_eq (available_take h hs).symm, fun _ => rfl⟩
  case h_2 hsmall =>
    split
    case h_1 page hs =>
      exact ⟨fit_take h (fun _ => rfl) hs, le_of_eq (available_take h hs).symm, fun _ => rfl⟩
    case h_2 hbulk =>
      have hzero := available_eq_zero hsmall hbulk
      exact ⟨fit_flag h, by omega, by omega⟩

theorem allocateFrames_available (h : Fit s) (k : Nat) :
    available s ≤ available (allocateFrames s k).1 + k ∧
    (k ≤ available s → (allocateFrames s k).2 = true) := by
  induction k generalizing s with
  | zero => exact ⟨le_rfl, fun _ => rfl⟩
  | succ k ih =>
    obtain ⟨hfit, hone, hfound⟩ := allocateFrame_available h
    rw [allocateFrames]
    rcases hframe : allocateFrame s with ⟨t, ok⟩
    rw [hframe] at hfit hone hfound
    cases ok with
    | true =>
      simp only at hfit hone ⊢
      obtain ⟨hrest, hall⟩ := ih hfit
      exact ⟨by omega, fun hle => hall (by omega)⟩
    | false =>
      simp only at hone ⊢
      refine ⟨by omega, fun hle => ?_⟩
      exact hfound (by omega)

theorem clearBits_mono {lo hi hi' : Nat} (hhi : hi ≤ hi')
    (h : ∀ p, allocated t p = true → allocated s p = true) :
    clearBits s lo hi ≤ clearBits t lo hi' := by
  have hbits : clearBits s lo hi ≤ clearBits t lo hi := by
    apply countP_mono_left
    intro p _ hp
    simp only [Bool.not_eq_true'] at hp ⊢
    by_contra hset
    rw [h p (by simpa using hset)] at hp
    cases hp
  by_cases hlo : lo ≤ hi
  · have hsplit := clearBits_split (s := t) hlo hhi
    omega
  · have hnone : clearBits s lo hi = 0 := clearBits_eq_zero.mpr fun p h₁ h₂ => by omega
    omega

theorem available_recordIncrease : available s ≤ available (recordIncrease s hole k rc) := by
  have hbits : ∀ p, allocated (recordIncrease s hole k rc) p = true → allocated s p = true := by
    intro p hp
    rw [allocated_recordIncrease, Bool.and_eq_true] at hp
    exact hp.1
  have hend : s.endAllocPage ≤ (recordIncrease s hole k rc).endAllocPage := by
    simp only [recordIncrease, addPages]
    split <;> omega
  exact Nat.add_le_add (clearBits_mono le_rfl hbits) (clearBits_mono hend hbits)

/-! ## The loop -/

def Window (s : Pool) (n p : Nat) : Prop :=
  ∃ hole rest, s.memoryHoleList = hole :: rest ∧ hole.startPfn ≤ p ∧
    p < hole.startPfn + min hole.size n

structure Growing (m₀ m : Memory) (n r : Nat) : Prop where
  pool : Grows m₀.pool m.pool r
  holes : ∀ p, InHole m₀.pool p ↔ InHole m.pool p ∨ (m.given p).isSome = true
  apart : ∀ p, (m.given p).isSome = true → ¬ InHole m.pool p
  number : countIn (fun p => (m.given p).isSome) 0 m₀.pool.maxEndAllocPage = r
  moved : ∀ p f, m.given p = some f → Usable m.pool p ∧ m.p2m p = f ∧ m.mapping p = some f
  table : ∀ p, m.given p = none → ¬ Window m.pool n p → m.p2m p = m₀.p2m p

theorem window_inHole (h : Window s n p) : InHole s p := by
  obtain ⟨hole, rest, hl, hge, hlt⟩ := h
  refine ⟨hole, hl ▸ mem_cons_self, hge, ?_⟩
  unfold Hole.size at hlt
  omega

theorem window_cons (hl : s.memoryHoleList = hole :: rest) :
    Window s n p ↔ hole.startPfn ≤ p ∧ p < hole.startPfn + min hole.size n := by
  constructor
  · rintro ⟨hole', rest', hl', hp⟩
    rw [hl] at hl'
    cases hl'
    exact hp
  · exact fun hp => ⟨hole, rest, hl, hp⟩

theorem Growing.given_none (h : Growing m₀ m n k) (hp : InHole m.pool p) : m.given p = none := by
  cases hgiven : m.given p with
  | none => rfl
  | some f => exact absurd hp (h.apart p (by rw [hgiven]; rfl))

theorem Growing.grown (h : Growing m₀ m n k) (hpool : Grows m₀.pool m'.pool k)
    (hlist : m'.pool.memoryHoleList = m.pool.memoryHoleList)
    (hout : ∀ p, ¬ InHole m.pool p → m'.p2m p = m.p2m p ∧ m'.mapping p = m.mapping p ∧
    m'.given p = m.given p)
    (husable : ∀ p, Usable m.pool p → Usable m'.pool p)
    (htable : ∀ p, InHole m.pool p → m'.p2m p = m₀.p2m p) : Grown m₀ m' k := by
  have hsame : ∀ p, InHole m'.pool p ↔ InHole m.pool p := by
    intro p
    rw [InHole, hlist, InHole]
  have hsome : ∀ p, InHole m₀.pool p → ¬ InHole m.pool p → (m.given p).isSome = true :=
    fun p hp hnot => ((h.holes p).mp hp).resolve_left hnot
  constructor
  · rw [← h.number]
    apply countIn_congr
    intro p _ _
    rw [Bool.eq_iff_iff, decide_eq_true_eq, hsame]
    exact ⟨fun hp => hsome p hp.1 hp.2, fun hp => ⟨(h.holes p).mpr (.inr hp), h.apart p hp⟩⟩
  · intro p hp hnot
    rw [hsame] at hnot
    obtain ⟨hp2m, hmapping, hgiven⟩ := hout p hnot
    obtain ⟨f, hf⟩ := Option.isSome_iff_exists.mp (hsome p hp hnot)
    obtain ⟨hu, hp2m', hmapping'⟩ := h.moved p f hf
    exact ⟨husable p hu, f, hgiven.trans hf, hp2m.trans hp2m', hmapping.trans hmapping'⟩
  · exact hpool.counters
  · intro a ha p hhas
    obtain ⟨hrec, hbit⟩ := hpool.stays a ha p hhas
    exact ⟨hrec, hbit, htable p ((hsame p).mp ⟨a, ha, hhas⟩)⟩

theorem grown_of_growing (h : Growing m₀ m n k) (hwindow : ∀ p, ¬ Window m.pool n p) :
    Grown m₀ m k := by
  apply h.grown h.pool rfl (fun _ _ => ⟨rfl, rfl, rfl⟩) (fun _ h => h)
  intro p hp
  exact h.table p (h.given_none hp) (hwindow p)

/-- What a call of `increase_reservation` does, by whether it gains pages. -/
inductive Reserved (m : Memory) (n start : Nat) (grant : Grant) : Memory → Nat → Prop where
  | gained {rc : Nat} (hrc : rc = min grant.populated n) (hpos : 0 < rc) :
      Reserved m n start grant
        { pool := (allocateFrames m.pool grant.frames).1
          p2m := fillPfns m.p2m start n rc grant.frame
          mapping := mapPages (fillPfns m.p2m start n rc grant.frame) start rc m.mapping
          given :=
            fun p => if start ≤ p ∧ p < start + rc then some (grant.frame (p - start)) else m.given
            p } rc
  | lost {m' : Memory}
      (hwhy : min grant.populated n = 0 ∨ (allocateFrames m.pool grant.frames).2 = false)
      (hpool : m'.pool = m.pool ∨ m'.pool = (allocateFrames m.pool grant.frames).1)
      (hp2m : m'.p2m = fillPfns m.p2m start n (min grant.populated n) grant.frame)
      (hout : ∀ p, ¬ (start ≤ p ∧ p < start + n) → m'.mapping p = m.mapping p ∧
        m'.given p = m.given p) :
      Reserved m n start grant m' 0

theorem reserved_of_eq (hr : m.increaseReservation n start grant = (m', rc)) :
    Reserved m n start grant m' rc := by
  unfold Memory.increaseReservation at hr
  simp only at hr
  split at hr
  case isTrue hpop =>
    cases hr
    exact .lost (.inl hpop) (.inl rfl) rfl fun p hout => ⟨rfl, if_neg (by omega)⟩
  case isFalse hpop =>
    rcases hframes : allocateFrames m.pool grant.frames with ⟨t, ok⟩
    have ht : t = (allocateFrames m.pool grant.frames).1 := by rw [hframes]
    have hok : ok = (allocateFrames m.pool grant.frames).2 := by rw [hframes]
    rw [hframes] at hr
    cases ok with
    | true =>
      cases hr
      rw [ht]
      exact .gained rfl (Nat.pos_of_ne_zero hpop)
    | false =>
      cases hr
      refine .lost (.inr hok.symm) (.inr ht) rfl fun p hout => ⟨?_, if_neg (by omega)⟩
      simp only [mapPages]
      rw [if_neg (by omega)]

theorem inHole_ge (hwf : Wf s) (hl : s.memoryHoleList = hole :: rest) (hp : InHole s p) :
    hole.startPfn ≤ p := by
  obtain ⟨a, ha, hge, -⟩ := hp
  have hrange := hwf.range hole (hl ▸ mem_cons_self)
  have hsorted := hwf.sorted
  rw [hl] at ha hsorted
  cases ha with
  | head => exact hge
  | tail _ ha =>
    have := (List.pairwise_cons.mp hsorted).1 a ha
    omega

theorem inHole_recordIncrease (hwf : Wf s) (hl : s.memoryHoleList = hole :: rest) (hrc : 0 < rc)
    (hle : rc ≤ hole.size) :
    InHole (recordIncrease s hole hole.size rc) p ↔ InHole s p ∧ hole.startPfn + rc ≤ p := by
  constructor
  · rintro ⟨a, ha, hhas⟩
    obtain ⟨a', ha', hhas', hge⟩ := has_recordIncrease hwf hl hrc hle ha hhas
    exact ⟨⟨a', ha', hhas'⟩, hge⟩
  · rintro ⟨⟨a, ha, hhas⟩, hge⟩
    exact covers_recordIncrease hwf hl hrc hle ha hhas hge

theorem usable_recordIncrease (h : Usable s p) : Usable (recordIncrease s hole k rc) p := by
  rcases h with hfree | hlive
  · apply Or.inl
    rw [allocated_recordIncrease, hfree]
    rfl
  · exact .inr hlive

def Memory.gain (m : Memory) (hole : Hole) (n rc : Nat) (grant : Grant) : Memory where
  pool := recordIncrease (allocateFrames m.pool grant.frames).1 hole hole.size rc
  p2m := fillPfns m.p2m hole.startPfn (min hole.size n) rc grant.frame
  mapping :=
    mapPages (fillPfns m.p2m hole.startPfn (min hole.size n) rc grant.frame) hole.startPfn rc
    m.mapping
  given :=
    fun p => if hole.startPfn ≤ p ∧
    p < hole.startPfn + rc then some (grant.frame (p - hole.startPfn))
    else m.given p

section Gain

variable (h : Growing m₀ m n k) (hl : m.pool.memoryHoleList = hole :: rest) (hpos : 0 < rc)
  (hle : rc ≤ min hole.size n)
include h hl

omit h in
theorem asked_inHole (hge : hole.startPfn ≤ p) (hlt : p < hole.startPfn + min hole.size n) :
    InHole m.pool p :=
  window_inHole ((window_cons hl).mpr ⟨hge, hlt⟩)

omit h in
theorem frames_cons : (allocateFrames m.pool grant.frames).1.memoryHoleList = hole :: rest :=
  allocateFrames_memoryHoleList.trans hl

include hpos hle

theorem gain_inHole : InHole (m.gain hole n rc grant).pool p ↔
    InHole m.pool p ∧ hole.startPfn + rc ≤ p := by
  have hsize := le_trans hle (Nat.min_le_left _ _)
  have hin : InHole (allocateFrames m.pool grant.frames).1 p ↔ InHole m.pool p := by
    rw [InHole, allocateFrames_memoryHoleList, InHole]
  have hwf := (grows_allocateFrames h.pool grant.frames).fit.wf
  rw [Memory.gain, inHole_recordIncrease hwf (frames_cons hl) hpos hsize, hin]

theorem gain_holes : InHole m₀.pool p ↔ InHole (m.gain hole n rc grant).pool p ∨
    ((m.gain hole n rc grant).given p).isSome = true := by
  rw [h.holes, gain_inHole h hl hpos hle]
  simp only [Memory.gain]
  by_cases hp : hole.startPfn ≤ p ∧ p < hole.startPfn + rc
  · rw [if_pos hp]
    simp [asked_inHole (n := n) hl hp.1 (by omega)]
  · rw [if_neg hp]
    constructor
    · rintro (hhole | hgiven)
      · have := inHole_ge h.pool.fit.wf hl hhole
        exact .inl ⟨hhole, by omega⟩
      · exact .inr hgiven
    · rintro (hhole | hgiven)
      · exact .inl hhole.1
      · exact .inr hgiven

omit hpos in
theorem gain_number : countIn (fun p => ((m.gain hole n rc grant).given p).isSome) 0
    m₀.pool.maxEndAllocPage = k + rc := by
  have hsize := le_trans hle (Nat.min_le_left _ _)
  have hrange := h.pool.fit.wf.range hole (hl ▸ mem_cons_self)
  have hmax := h.pool.max
  rw [← h.number]
  apply (countIn_change (a := hole.startPfn) (n := rc) (Nat.zero_le _) _ _ _ _).symm
  · unfold Hole.size at hsize
    omega
  · intro p hge hlt
    simp only [Memory.gain]
    rw [if_pos ⟨hge, hlt⟩]
    rfl
  · intro p hge hlt
    rw [h.given_none (asked_inHole (n := n) hl hge (by omega))]
    rfl
  · intro p hp
    simp only [Memory.gain]
    rw [if_neg hp]

omit hpos in
theorem gain_moved {f : Nat} (hf : (m.gain hole n rc grant).given p = some f) :
    Usable (m.gain hole n rc grant).pool p ∧ (m.gain hole n rc grant).p2m p = f ∧
      (m.gain hole n rc grant).mapping p = some f := by
  simp only [Memory.gain] at hf ⊢
  split at hf
  case isTrue hp =>
    cases hf
    have hfill :
        fillPfns m.p2m hole.startPfn (min hole.size n) rc grant.frame p =
        grant.frame (p - hole.startPfn) := by
      rw [fillPfns, if_pos (by omega), if_pos hp.2]
    refine ⟨.inl ?_, hfill, ?_⟩
    · rw [allocated_recordIncrease, decide_eq_true hp, Bool.not_true, Bool.and_false]
    · rw [mapPages, hfill, if_pos ⟨hp.1, hp.2, grant.pos _⟩]
  case isFalse hp =>
    obtain ⟨hu, hp2m, hmapping⟩ := h.moved p f hf
    have hnot := h.apart p (by rw [hf]; rfl)
    have hout : ¬ (hole.startPfn ≤ p ∧ p < hole.startPfn + min hole.size n) :=
      fun hp => hnot (asked_inHole hl hp.1 hp.2)
    refine ⟨usable_recordIncrease (usable_allocateFrames hu _), ?_, ?_⟩
    · rw [fillPfns, if_neg hout]
      exact hp2m
    · rw [mapPages, if_neg (by omega)]
      exact hmapping

theorem gain_table (hnone : (m.gain hole n rc grant).given p = none)
    (hwindow : ¬ Window (m.gain hole n rc grant).pool (n - rc) p) :
    (m.gain hole n rc grant).p2m p = m₀.p2m p := by
  have hsize := le_trans hle (Nat.min_le_left _ _)
  simp only [Memory.gain] at hnone hwindow ⊢
  split at hnone
  · nomatch hnone
  case isFalse hp =>
    have hout : ¬ (hole.startPfn ≤ p ∧ p < hole.startPfn + min hole.size n) := by
      intro hin
      apply hwindow
      have hne : hole.size ≠ rc := by omega
      have hwf := (grows_allocateFrames h.pool grant.frames).fit.wf
      have hlist := recordIncrease_memoryHoleList hwf (frames_cons hl) hpos hsize
      rw [if_neg hne] at hlist
      apply (window_cons hlist).mpr
      simp only [Hole.size] at hsize hin ⊢
      omega
    rw [fillPfns, if_neg hout]
    exact h.table p hnone fun hw => hout ((window_cons hl).mp hw)

theorem growing_gain : Growing m₀ (m.gain hole n rc grant) (n - rc) (k + rc) := by
  have hsize := le_trans hle (Nat.min_le_left _ _)
  constructor
  · exact grows_recordIncrease (grows_allocateFrames h.pool grant.frames) (frames_cons hl) hpos
      hsize
  · exact fun p => gain_holes h hl hpos hle
  · intro p hgiven hin
    obtain ⟨hold, hge⟩ := (gain_inHole h hl hpos hle).mp hin
    simp only [Memory.gain] at hgiven
    rw [if_neg (by omega)] at hgiven
    exact h.apart p hgiven hold
  · exact gain_number h hl hle
  · exact fun p f => gain_moved h hl hle
  · exact fun p => gain_table h hl hpos hle

end Gain

theorem grown_cut_iff (h : Growing m₀ m n k) (hl : m.pool.memoryHoleList = hole :: rest)
    (hpool : m'.pool = m.pool ∨ m'.pool = (allocateFrames m.pool grant.frames).1)
    (hp2m : m'.p2m = fillPfns m.p2m hole.startPfn (min hole.size n)
      (min grant.populated (min hole.size n)) grant.frame)
    (hout : ∀ p, ¬ (hole.startPfn ≤ p ∧ p < hole.startPfn + min hole.size n) →
      m'.mapping p = m.mapping p ∧ m'.given p = m.given p) :
    Grown m₀ m' k ↔ ∀ p, hole.startPfn ≤ p → p < hole.startPfn + min hole.size n →
      m₀.p2m p = if p < hole.startPfn + grant.populated then grant.frame (p - hole.startPfn)
        else p := by
  have hcome : ∀ p, hole.startPfn ≤ p → p < hole.startPfn + min hole.size n → InHole m.pool p :=
    fun p => asked_inHole hl
  obtain ⟨hgrows, hlist, husable⟩ : Grows m₀.pool m'.pool k ∧
    m'.pool.memoryHoleList = m.pool.memoryHoleList ∧
      ∀ p, Usable m.pool p → Usable m'.pool p := by
    rcases hpool with hpool | hpool
    · rw [hpool]
      exact ⟨h.pool, rfl, fun _ h => h⟩
    · rw [hpool]
      exact ⟨grows_allocateFrames h.pool _, allocateFrames_memoryHoleList, fun _ h =>
        usable_allocateFrames h _⟩
  -- inside the request the entry does not depend on the one before
  have hfill : ∀ p, hole.startPfn ≤ p → p < hole.startPfn + min hole.size n → m'.p2m p =
      if p < hole.startPfn + grant.populated then grant.frame (p - hole.startPfn) else p := by
    intro p hge hlt
    rw [hp2m, fillPfns, if_pos ⟨hge, hlt⟩]
    by_cases hpop : p < hole.startPfn + grant.populated
    · rw [if_pos hpop, if_pos (by omega)]
    · rw [if_neg hpop, if_neg (by omega)]
  constructor
  · intro hgrown p hge hlt
    obtain ⟨a, ha, hhas⟩ := hcome p hge hlt
    rw [← hfill p hge hlt]
    exact (hgrown.stays a (hlist ▸ ha) p hhas).2.2.symm
  · intro hsame
    apply h.grown hgrows hlist _ husable
    · intro p hp
      by_cases hin : hole.startPfn ≤ p ∧ p < hole.startPfn + min hole.size n
      · rw [hfill p hin.1 hin.2]
        exact (hsame p hin.1 hin.2).symm
      · rw [hp2m, fillPfns, if_neg hin]
        exact h.table p (h.given_none hp) fun hw => hin ((window_cons hl).mp hw)
    · intro p hp
      have hnot : ¬ (hole.startPfn ≤ p ∧ p < hole.startPfn + min hole.size n) :=
        fun hin => hp (hcome p hin.1 hin.2)
      obtain ⟨hmapping, hgiven⟩ := hout p hnot
      refine ⟨?_, hmapping, hgiven⟩
      rw [hp2m, fillPfns, if_neg hnot]

section Requests

variable {p2m : Nat → Nat} {holes : List Hole}

theorem untouched_of_none (h : n = 0 ∨ holes = []) : Untouched p2m holes n xen pages := by
  rintro start nr frames grant (hn | ⟨rfl, hpos, -⟩)
  · rcases h with rfl | h
    · omega
    · nomatch h
  · rcases h with rfl | h
    · omega
    · nomatch h

variable (hrc : rc = min (xen 0).populated (min hole.size n)) (hpos : 0 < rc)
include hrc hpos

theorem untouched_tail (h : Untouched p2m (hole :: rest) n xen pages) :
    Untouched p2m (holesLeft hole rest rc) (n - rc) xen.rest (pages - (xen 0).frames) := by
  intro start nr frames grant hasked hwhy
  exact h _ _ _ _ (.later hrc hpos hasked) (by omega)

theorem buildable_tail (h : Buildable (hole :: rest) n xen pages) :
    Buildable (holesLeft hole rest rc) (n - rc) xen.rest (pages - (xen 0).frames) := by
  intro start nr frames grant hasked
  have := h _ _ _ _ (.later hrc hpos hasked)
  omega

theorem untouched_cons (hframes : (xen 0).frames ≤ pages)
    (h : Untouched p2m (holesLeft hole rest rc) (n - rc) xen.rest (pages - (xen 0).frames)) :
    Untouched p2m (hole :: rest) n xen pages := by
  intro start nr frames grant hasked hwhy
  cases hasked with
  | first => omega
  | later hrc' _ hasked =>
    rw [← hrc] at hrc'
    subst hrc'
    exact h _ _ _ _ hasked (by omega)

end Requests

/-- If it needs no more frames than the pages it can find, only Xen ends the call. -/
theorem increaseLoop_grown (h : Growing m₀ m n k) (hfuel : n ≤ fuel)
    (hpages : pages ≤ available m.pool) :
    (Untouched m₀.p2m m.pool.memoryHoleList n xen pages →
      Grown m₀ (Memory.increaseLoop fuel m n k xen).1 (Memory.increaseLoop fuel m n k xen).2) ∧
    (Buildable m.pool.memoryHoleList n xen pages →
      Grown m₀ (Memory.increaseLoop fuel m n k xen).1 (Memory.increaseLoop fuel m n k xen).2 →
        Untouched m₀.p2m m.pool.memoryHoleList n xen pages) := by
  induction fuel generalizing m n k xen pages with
  | zero =>
    have hn : n = 0 := by omega
    refine ⟨fun _ => grown_of_growing h ?_, fun _ _ => untouched_of_none (.inl hn)⟩
    rintro p ⟨hole, rest, -, hge, hlt⟩
    omega
  | succ fuel ih =>
    rw [Memory.increaseLoop]
    by_cases hn : n = 0
    · rw [if_pos hn]
      refine ⟨fun _ => grown_of_growing h ?_, fun _ _ => untouched_of_none (.inl hn)⟩
      rintro p ⟨hole, rest, -, hge, hlt⟩
      omega
    · rw [if_neg hn]
      cases hl : m.pool.memoryHoleList with
      | nil =>
        refine ⟨fun _ => grown_of_growing h ?_, fun _ _ => untouched_of_none (.inr rfl)⟩
        rintro p ⟨hole, rest, hl', -⟩
        rw [hl] at hl'
        cases hl'
      | cons hole rest =>
        rcases hr : m.increaseReservation (min hole.size n) hole.startPfn (xen 0) with ⟨m', rc⟩
        simp only [hr]
        have hfirst : Asked (hole :: rest) n xen _ _ _ (xen 0) := .first (Nat.pos_of_ne_zero hn)
        obtain ⟨hframes, hbuilt⟩ := allocateFrames_available h.pool.fit (xen 0).frames
        cases reserved_of_eq hr with
        | lost hwhy hpool hp2m hout =>
          have hlost : min (xen 0).populated (min hole.size n) = 0 ∨
              available m.pool < (xen 0).frames := by
            refine hwhy.imp_right fun hfalse => ?_
            by_contra hle
            rw [hbuilt (by omega)] at hfalse
            cases hfalse
          rw [if_pos rfl, grown_cut_iff h hl hpool hp2m hout]
          constructor
          · intro huntouched p hge hlt
            exact huntouched _ _ _ _ hfirst (by omega) p hge hlt
          · intro hbuild hcut start nr frames grant hasked hwhy
            have hfew := hbuild _ _ _ _ hfirst
            cases hasked with
            | first => exact hcut
            | later hrc hpos => omega
        | gained hmin hpos =>
          have hgain : Growing m₀ (m.gain hole n rc (xen 0)) (n - rc) (k + rc) :=
            growing_gain h hl hpos (by omega)
          have hlist :=
            recordIncrease_memoryHoleList (grows_allocateFrames h.pool (xen 0).frames).fit.wf
            (frames_cons hl) hpos (show rc ≤ hole.size by omega)
          have hleft : pages - (xen 0).frames ≤ available (m.gain hole n rc (xen 0)).pool := by
            refine le_trans ?_ available_recordIncrease
            omega
          obtain ⟨hthen, hback⟩ := ih hgain (by omega) hleft
          rw [Memory.gain, hlist] at hthen hback
          rw [if_neg (ne_of_gt hpos)]
          refine ⟨fun huntouched => hthen (untouched_tail hmin hpos huntouched),
            fun hbuild hgrown => ?_⟩
          exact untouched_cons hmin hpos (hbuild _ _ _ _ hfirst)
            (hback (buildable_tail hmin hpos hbuild) hgrown)

/-! ## A whole call -/

theorem grown_flag :
    Grown m₀ { m with pool := { m.pool with inIncreaseMemory := f } } k ↔ Grown m₀ m k :=
  ⟨fun h => { h with }, fun h => { h with }⟩

theorem framed_refl (s : Pool) : Framed s s 0 := ⟨[], rfl, rfl, rfl⟩

theorem growing_start (hfit : Fit m.pool) (hgiven : ∀ p, m.given p = none) (n : Nat) :
    Growing m { m with pool := { m.pool with inIncreaseMemory := f } } n 0 := by
  have hsome : ∀ p, ¬ (m.given p).isSome = true := fun p => by simp [hgiven p]
  constructor
  · refine grows_flag ⟨hfit, rfl, rfl, framed_refl _, ?_⟩
    intro a ha p hhas
    exact ⟨⟨a, ha, hhas, rfl, rfl⟩, rfl⟩
  · exact fun p => ⟨.inl, fun h => h.resolve_right (hsome p)⟩
  · exact fun p h => absurd h (hsome p)
  · apply countIn_none
    intro p _ _
    simp [hgiven p]
  · intro p f hf
    rw [hgiven p] at hf
    cases hf
  · exact fun _ _ _ => rfl

theorem increaseMemory_grown (hfit : Fit m.pool) (hgiven : ∀ p, m.given p = none) :
    ((Serves m.pool n → Untouched m.p2m m.pool.memoryHoleList n xen (available m.pool)) →
      Grown m (m.increaseMemory n xen).1 (m.increaseMemory n xen).2) ∧
    (Buildable m.pool.memoryHoleList n xen (available m.pool) →
      Grown m (m.increaseMemory n xen).1 (m.increaseMemory n xen).2 →
        Serves m.pool n → Untouched m.p2m m.pool.memoryHoleList n xen (available m.pool)) := by
  -- nothing is done
  have hidle : Grown m m 0 := by
    have h := growing_start (f := m.pool.inIncreaseMemory) hfit hgiven 0
    apply grown_of_growing h
    rintro p ⟨hole, rest, -, hge, hlt⟩
    omega
  unfold Memory.increaseMemory
  by_cases hin : m.pool.inIncreaseMemory = true
  · rw [if_pos hin]
    refine ⟨fun _ => grown_flag.mpr hidle, fun _ _ hserves => ?_⟩
    rw [hserves.1] at hin
    cases hin
  · rw [if_neg hin]
    simp only
    by_cases hcan : canIncrease m.pool.memoryHoleList n = 0
    · rw [if_neg (not_not.mpr hcan)]
      refine ⟨fun _ => grown_flag.mpr (grown_flag.mpr hidle), fun _ _ hserves =>
        untouched_of_none (.inl ?_)⟩
      have hpages := hserves.2
      rw [canIncrease_eq_zero_iff] at hcan
      omega
    · rw [if_pos hcan, grown_flag]
      have hgrowing := growing_start (f := true) hfit hgiven n
      have hserves : Serves m.pool n := by
        rw [canIncrease_eq_zero_iff] at hcan
        exact ⟨Bool.eq_false_iff.mpr hin, by omega⟩
      constructor
      · intro huntouched
        exact (increaseLoop_grown hgrowing (le_refl n) le_rfl).1 (huntouched hserves)
      · intro hbuild hgrown _
        exact (increaseLoop_grown hgrowing (le_refl n) le_rfl).2 hbuild hgrown

/-! ## Runs -/

theorem kept_fit (xen : Xen) : Kept Fit xen := by
  refine ⟨fun s f h => fit_flag h, ?_, ?_⟩
  · intro k s h
    exact allocateFrames_rule (fun s f h => fit_flag h)
      (fun s b page h hs => fit_take h (fun _ => rfl) hs) h
  · intro s hole rest rc h hl hrc hle
    exact ⟨wf_recordIncrease h.wf hl hrc hle, h.fits⟩

theorem closed_fit : Closed Fit where
  wf _ h := h.wf
  flag _ _ h := fit_flag h
  nextId _ _ h := ⟨wf_nextId h.wf, h.fits⟩
  take _ _ _ _ h hb hs := fit_take h hb hs
  shrink _ _ h hf := ⟨wf_recordDecrease h.wf hf, h.fits⟩
  free s page h hmem _ := by
    refine ⟨wf_deallocate h.wf hmem, ?_⟩
    rw [deallocate_maxEndAllocPage]
    exact h.fits
  hole _ _ h hl := ⟨wf_initial_hole h.wf hl, h.fits⟩

theorem fit_step {s t : Sys} {l : Label} (h : Holds Fit s) (hok : recordStep s l)
    (hstep : step s l = some t) : Holds Fit t := by
  apply closed_fit.step h hstep
  · intro n xen u r _ hr
    exact allocatePages_rule (kept_fit xen) (fun _ _ _ h hb hs => fit_take h hb hs) (fun _ h => h)
      h.pool hr
  · rintro page n rfl hmem
    refine ⟨wf_deallocate h.pool.wf hmem, ?_⟩
    rw [deallocate_maxEndAllocPage]
    exact h.pool.fits
  · intro n xen _
    exact ((kept_fit xen).increaseMemory h.pool).1
  · rintro newPage xen rfl
    exact hok

theorem fit_initMm {b : Boot} (h : initMm b = some s) : Fit s := by
  obtain ⟨t, -, hp2m, hboot, -⟩ := initMm_resized h
  have hs :=
    archInitP2m_rule (P := Booting b.config) (fun i s t hs ht => allocPage_rule (kept_booting _)
    (fun s b page h hs => booting_take h (fun _ => rfl) hs) hs ht) (fun s k h => booting_p2m h)
      hboot hp2m
  exact ⟨hs.1.wf, hs.1.fits⟩

def grantAll (k : Nat) : Grants := fun _ =>
  { populated := k, frames := 0, frame := fun i => 5000 + i, mapped := 0, pos := fun i => by omega }

def blank (s : Pool) : Memory := .before s (fun _ => 2 ^ 64 - 1) fun _ => none

theorem asked_grantAll {holes : List Hole} {nr frames : Nat}
    (h : Asked holes n (grantAll k) start nr frames grant) :
    grant.populated = k ∧ frames = 0 := by
  generalize hxen : grantAll k = xen at h
  induction h with
  | first => exact hxen ▸ ⟨rfl, rfl⟩
  | later _ _ _ ih =>
    obtain ⟨hpop, hzero⟩ := ih (hxen ▸ rfl)
    exact ⟨hpop, by rw [hzero, ← hxen]; rfl⟩

end Guk.PagePool
