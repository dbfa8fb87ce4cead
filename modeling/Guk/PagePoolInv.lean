import Guk.PagePoolSearch
import Guk.Runs

/-!
# Runs of the page pool, one operation after the other

The operations of the pool run to completion one after the other; the rounds of
`guk_decrease_page_pool` are steps of their own. `Wf` is the invariant about regions,
holes and allocations that everything else about the pool rests on.
-/
namespace Guk.PagePool

open Bitmap Runs List

structure Sys where
  pool : Pool
  decreasing : Option Decrease

inductive Label where
  | allocate (n : Nat) (xen : Xen)
  | deallocate (page n : Nat)
  | increase (n : Nat) (xen : Xen)
  | decrease (n : Nat)
  | round (newPage : Bool) (xen : Xen)
  | resize (newPage : Bool) (xen : Xen)

def step (s : Sys) : Label → Option Sys
  | .allocate n xen =>
    if s.decreasing = none ∧ n < 2 ^ 31 then
      (allocatePages s.pool n xen).map fun r => { s with pool := r.1 }
    else none
  | .deallocate page n =>
    if s.decreasing = none ∧ (page, n) ∈ s.pool.live then
      some { s with pool := giveBack s.pool page n }
    else none
  | .increase n xen =>
    if s.decreasing = none then some { s with pool := (gukIncreasePagePool s.pool n xen).1 }
      else none
  | .decrease n =>
    if s.decreasing = none then
      some { s with decreasing := some ⟨s.pool.endAllocPage - 1, n, 0⟩ }
    else none
  | .round newPage xen =>
    match s.decreasing with
    | none => none
    | some d =>
      if d.more s.pool then
        (decreaseRound s.pool d newPage xen).map fun r => ⟨r.1, some r.2⟩
      else some { s with decreasing := none }
  | .resize newPage xen =>
    if s.decreasing = none ∧ s.pool.memoryHoleList = [] ∧ s.pool.live = [] then
      (resizePhysToMachineMappingTable s.pool newPage xen).map fun t => { s with pool := t }
    else none

def Initial (s : Sys) : Prop := ∃ c : Config, s = ⟨initPageAllocator c, none⟩

/-! ## The invariant -/

def Hole.Has (h : Hole) (p : Nat) : Prop := h.startPfn ≤ p ∧ p < h.endPfn

def Apart (a b : Nat × Nat) : Prop := a.1 + a.2 ≤ b.1 ∨ b.1 + b.2 ≤ a.1

structure Wf (s : Pool) : Prop where
  low : 2 ≤ s.firstAllocPage
  alloc_le : s.firstAllocPage ≤ s.firstBulkPage
  bulk_le : s.firstBulkPage ≤ s.endAllocPage
  end_le : s.endAllocPage ≤ s.maxEndAllocPage
  hintLow : s.firstAllocPage ≤ s.firstFreePage
  bulkHintLow : s.firstBulkPage ≤ s.firstFreeBulkPage
  sorted : s.memoryHoleList.Pairwise fun a b => a.endPfn ≤ b.startPfn
  range : ∀ h ∈ s.memoryHoleList,
    s.firstBulkPage ≤ h.startPfn ∧ h.startPfn ≤ h.endPfn ∧ h.endPfn ≤ s.maxEndAllocPage ∧
      (h.startPfn < h.endPfn ∨ h.startPfn = s.maxEndAllocPage)
  holeSet : ∀ h ∈ s.memoryHoleList, ∀ p, h.Has p → p < s.endAllocPage → allocated s p = true
  holeSide : ∀ h ∈ s.memoryHoleList, h.startPfn < s.endAllocPage → h.endPfn ≤ s.endAllocPage
  holeTop : ∀ h ∈ s.memoryHoleList, ∀ p, s.endAllocPage ≤ p → p < h.endPfn →
    ∃ h' ∈ s.memoryHoleList, h'.Has p
  block : ∀ a ∈ s.live, 1 ≤ a.2 ∧
    (s.firstAllocPage ≤ a.1 ∧ a.1 + a.2 ≤ s.firstBulkPage ∧ isBulk a.2 = false ∨
      s.firstBulkPage ≤ a.1 ∧ a.1 + a.2 ≤ s.endAllocPage)
  blockSet : ∀ a ∈ s.live, ∀ p, a.1 ≤ p → p < a.1 + a.2 → allocated s p = true
  blockApart : s.live.Pairwise Apart
  blockHole : ∀ a ∈ s.live, ∀ h ∈ s.memoryHoleList, ∀ p, a.1 ≤ p → p < a.1 + a.2 → ¬ h.Has p

variable {s t : Pool} {b : Bool} {page n p rc k : Nat} {hole : Hole} {rest : List Hole}
  {a : Nat × Nat}

theorem sub64_eq {a c : Nat} (h : c ≤ a) (ha : a < 2 ^ 64) : sub64 a c = a - c := by
  unfold sub64
  rw [Nat.mod_eq_of_lt (by omega : c < 2 ^ 64)]
  omega

theorem add64_eq {a c : Nat} (h : a + c < 2 ^ 64) : add64 a c = a + c := Nat.mod_eq_of_lt h

theorem Apart.symm {b : Nat × Nat} (h : Apart a b) : Apart b a := Or.symm h

theorem Wf.pos (h : Wf s) : 1 ≤ s.firstBulkPage := le_trans (Nat.le_of_succ_le h.low) h.alloc_le

theorem Wf.block_end (h : Wf s) (ha : a ∈ s.live) : a.1 + a.2 ≤ s.endAllocPage := by
  have hbulk := h.bulk_le
  have := (h.block a ha).2
  omega

theorem Wf.apart_free (h : Wf s) (ha : a ∈ s.live) (hn : 1 ≤ n)
    (hfree : FreePages s page n) : Apart (page, n) a := by
  by_contra hover
  simp only [Apart, not_or, Nat.not_le] at hover
  obtain ⟨h₁, h₂⟩ := hover
  have hpos := (h.block a ha).1
  have hset := h.blockSet a ha (max page a.1) (by omega) (by omega)
  rw [hfree (max page a.1) (by omega) (by omega)] at hset
  cases hset

theorem Wf.head_le (h : Wf s) (hl : s.memoryHoleList = hole :: rest) :
    hole.startPfn ≤ s.endAllocPage := by
  by_contra hlt
  have hmem := hl ▸ mem_cons_self
  have hrange := (h.range hole hmem).2.1
  obtain ⟨h', hh', hhas⟩ := h.holeTop hole hmem s.endAllocPage le_rfl (by omega)
  have hsorted := h.sorted
  rw [hl] at hh' hsorted
  obtain ⟨h₁, h₂⟩ := hhas
  rcases List.mem_cons.mp hh' with rfl | hrest
  · omega
  · have := (List.pairwise_cons.mp hsorted).1 h' hrest
    omega

/-! ## Taking pages -/

theorem allocated_take : allocated (take s b page n) p =
    (allocated s p || decide (page ≤ p ∧ p < page + n)) := by
  cases b <;> exact allocated_mapAlloc

@[simp] theorem take_firstAllocPage : (take s b page n).firstAllocPage = s.firstAllocPage := by
  cases b <;> rfl
@[simp] theorem take_endAllocPage : (take s b page n).endAllocPage = s.endAllocPage := by
  cases b <;> rfl
@[simp] theorem take_maxEndAllocPage : (take s b page n).maxEndAllocPage = s.maxEndAllocPage := by
  cases b <;> rfl
@[simp] theorem take_firstBulkPage : (take s b page n).firstBulkPage = s.firstBulkPage := by
  cases b <;> rfl
@[simp] theorem take_memoryHoleList : (take s b page n).memoryHoleList = s.memoryHoleList := by
  cases b <;> rfl
@[simp] theorem take_live : (take s b page n).live = (page, n) :: s.live := by
  cases b <;> rfl
@[simp] theorem take_numFreePages : (take s b page n).numFreePages = sub64 s.numFreePages n := by
  cases b <;> rfl

theorem take_firstFreePage : (take s b page n).firstFreePage =
    if b = false ∧ page = s.firstFreePage then nextFree s (page + n) else s.firstFreePage := by
  cases b
  · simp only [true_and]
    rfl
  · rfl

theorem take_firstFreeBulkPage : (take s b page n).firstFreeBulkPage =
    if b = true ∧
      page = s.firstFreeBulkPage then nextFree s (page + n) else s.firstFreeBulkPage := by
  cases b
  · rfl
  · simp only [true_and]
    rfl

theorem take_numFreeBulkPages : (take s b page n).numFreeBulkPages =
    if b then sub64 s.numFreeBulkPages n else s.numFreeBulkPages := by
  cases b <;> rfl

theorem Wf.found (h : Wf s) (hs : search s b n = some page) :
    1 ≤ n ∧ FreePages s page n ∧ s.firstAllocPage ≤ page ∧ page + n ≤ s.endAllocPage ∧
      (b = false → page + n ≤ s.firstBulkPage) ∧ (b = true → s.firstBulkPage ≤ page) := by
  obtain ⟨hle, hn, hend, hfree⟩ := search_sound hs
  have h₁ := h.hintLow
  have h₂ := h.bulkHintLow
  have h₃ := h.alloc_le
  have h₄ := h.bulk_le
  cases b with
  | false =>
    simp only [hint, regionEnd, Bool.false_eq_true, if_false] at hle hend
    exact ⟨hn, hfree, by omega, by omega, fun _ => hend, nofun⟩
  | true =>
    simp only [hint, regionEnd, if_true] at hle hend
    exact ⟨hn, hfree, by omega, hend, nofun, fun _ => by omega⟩

theorem wf_take (h : Wf s) (hmax : s.maxEndAllocPage < 2 ^ 31) (hs : search s b n = some page)
    (hsmall : b = false → isBulk n = false) : Wf (take s b page n) := by
  obtain ⟨hn, hfree, hlow, hend, hreg, hbulk⟩ := h.found hs
  have h₁ := h.end_le
  obtain ⟨hnext, -⟩ := nextFree_spec (by omega) hend
  constructor
  · rw [take_firstAllocPage]
    exact h.low
  · rw [take_firstAllocPage, take_firstBulkPage]
    exact h.alloc_le
  · rw [take_firstBulkPage, take_endAllocPage]
    exact h.bulk_le
  · rw [take_endAllocPage, take_maxEndAllocPage]
    exact h.end_le
  · rw [take_firstAllocPage, take_firstFreePage]
    split
    · omega
    · exact h.hintLow
  · rw [take_firstBulkPage, take_firstFreeBulkPage]
    split
    case isTrue hb =>
      have := hbulk hb.1
      omega
    case isFalse => exact h.bulkHintLow
  · rw [take_memoryHoleList]
    exact h.sorted
  · simp only [take_memoryHoleList, take_firstBulkPage, take_maxEndAllocPage]
    exact h.range
  · simp only [take_memoryHoleList, take_endAllocPage, allocated_take]
    intro hole hmem p hhas hp
    rw [h.holeSet hole hmem p hhas hp, Bool.true_or]
  · simp only [take_memoryHoleList, take_endAllocPage]
    exact h.holeSide
  · simp only [take_memoryHoleList, take_endAllocPage]
    exact h.holeTop
  · simp only [take_live, take_firstAllocPage, take_firstBulkPage, take_endAllocPage]
    intro a ha
    cases ha with
    | head =>
      refine ⟨hn, ?_⟩
      cases b with
      | false => exact .inl ⟨hlow, hreg rfl, hsmall rfl⟩
      | true => exact .inr ⟨hbulk rfl, hend⟩
    | tail _ ha => exact h.block a ha
  · simp only [take_live, allocated_take]
    intro a ha p hle hlt
    cases ha with
    | head => rw [decide_eq_true ⟨hle, hlt⟩, Bool.or_true]
    | tail _ ha => rw [h.blockSet a ha p hle hlt, Bool.true_or]
  · rw [take_live]
    apply List.pairwise_cons.mpr
    exact ⟨fun a ha => h.apart_free ha hn hfree, h.blockApart⟩
  · simp only [take_live, take_memoryHoleList]
    intro a ha hole hmem p hle hlt hhas
    cases ha with
    | head =>
      have hset := h.holeSet hole hmem p hhas (by omega)
      rw [hfree p hle hlt] at hset
      cases hset
    | tail _ ha => exact h.blockHole a ha hole hmem p hle hlt hhas

/-! ## Giving pages back -/

theorem giveBack_eq : giveBack s page n = { s with
    firstFreePage := if isBulk n then s.firstFreePage else min page s.firstFreePage
    firstFreeBulkPage := if isBulk n then min page s.firstFreeBulkPage else s.firstFreeBulkPage
    numFreeBulkPages := if isBulk n then add64 s.numFreeBulkPages n else s.numFreeBulkPages
    numFreePages := add64 s.numFreePages n
    allocBitmap := mapFree s.allocBitmap page n
    live := s.live.erase (page, n) } := by
  have hmin : ∀ hint, (if page < hint then page else hint) = min page hint := by
    intro hint
    split <;> omega
  simp only [giveBack, gukDeallocatePages, deallocateLocked, hmin]
  cases isBulk n <;> rfl

theorem allocated_deallocate : allocated (giveBack s page n) p =
    (allocated s p && !decide (page ≤ p ∧ p < page + n)) := by
  rw [giveBack_eq]
  exact allocated_mapFree

@[simp] theorem deallocate_firstAllocPage :
    (giveBack s page n).firstAllocPage = s.firstAllocPage := by
  rw [giveBack_eq]
@[simp] theorem deallocate_endAllocPage :
    (giveBack s page n).endAllocPage = s.endAllocPage := by
  rw [giveBack_eq]
@[simp] theorem deallocate_maxEndAllocPage :
    (giveBack s page n).maxEndAllocPage = s.maxEndAllocPage := by
  rw [giveBack_eq]
@[simp] theorem deallocate_firstBulkPage :
    (giveBack s page n).firstBulkPage = s.firstBulkPage := by
  rw [giveBack_eq]
@[simp] theorem deallocate_memoryHoleList :
    (giveBack s page n).memoryHoleList = s.memoryHoleList := by
  rw [giveBack_eq]
@[simp] theorem deallocate_live : (giveBack s page n).live = s.live.erase (page, n) := by
  rw [giveBack_eq]
@[simp] theorem deallocate_numFreePages :
    (giveBack s page n).numFreePages = add64 s.numFreePages n := by
  rw [giveBack_eq]

theorem deallocate_numFreeBulkPages : (giveBack s page n).numFreeBulkPages =
    if isBulk n then add64 s.numFreeBulkPages n else s.numFreeBulkPages := by
  rw [giveBack_eq]

theorem deallocate_firstFreePage : (giveBack s page n).firstFreePage =
    if isBulk n then s.firstFreePage else min page s.firstFreePage := by
  rw [giveBack_eq]

theorem deallocate_firstFreeBulkPage : (giveBack s page n).firstFreeBulkPage =
    if isBulk n then min page s.firstFreeBulkPage else s.firstFreeBulkPage := by
  rw [giveBack_eq]

theorem Wf.erase_apart (h : Wf s) (hmem : (page, n) ∈ s.live)
    (ha : a ∈ s.live.erase (page, n)) : Apart (page, n) a := by
  have hperm := perm_cons_erase hmem
  have hpair := (hperm.pairwise_iff fun {_ _} => Apart.symm).mp h.blockApart
  exact (List.pairwise_cons.mp hpair).1 a ha

theorem wf_deallocate (h : Wf s) (hmem : (page, n) ∈ s.live) : Wf (giveBack s page n) := by
  obtain ⟨hn, hreg⟩ := h.block (page, n) hmem
  have halloc := h.alloc_le
  have h₁ := h.hintLow
  have h₂ := h.bulkHintLow
  have hstays : ∀ {p}, allocated s p = true → ¬ (page ≤ p ∧ p < page + n) →
      allocated (giveBack s page n) p = true := by
    intro p hset hout
    rw [allocated_deallocate, hset, decide_eq_false hout]
    rfl
  constructor
  · rw [deallocate_firstAllocPage]
    exact h.low
  · rw [deallocate_firstAllocPage, deallocate_firstBulkPage]
    exact h.alloc_le
  · rw [deallocate_firstBulkPage, deallocate_endAllocPage]
    exact h.bulk_le
  · rw [deallocate_endAllocPage, deallocate_maxEndAllocPage]
    exact h.end_le
  · rw [deallocate_firstAllocPage, deallocate_firstFreePage]
    split <;> omega
  · rw [deallocate_firstBulkPage, deallocate_firstFreeBulkPage]
    split
    case isTrue hbulk =>
      rcases hreg with hreg | hreg
      · rw [hreg.2.2] at hbulk
        cases hbulk
      · omega
    case isFalse => exact h.bulkHintLow
  · rw [deallocate_memoryHoleList]
    exact h.sorted
  · simp only [deallocate_memoryHoleList, deallocate_firstBulkPage, deallocate_maxEndAllocPage]
    exact h.range
  · simp only [deallocate_memoryHoleList, deallocate_endAllocPage]
    intro hole hh p hhas hp
    apply hstays (h.holeSet hole hh p hhas hp)
    intro ⟨hle, hlt⟩
    exact h.blockHole (page, n) hmem hole hh p hle hlt hhas
  · simp only [deallocate_memoryHoleList, deallocate_endAllocPage]
    exact h.holeSide
  · simp only [deallocate_memoryHoleList, deallocate_endAllocPage]
    exact h.holeTop
  · simp only [deallocate_live, deallocate_firstAllocPage, deallocate_firstBulkPage,
      deallocate_endAllocPage]
    exact fun a ha => h.block a (mem_of_mem_erase ha)
  · simp only [deallocate_live]
    intro a ha p hle hlt
    apply hstays (h.blockSet a (mem_of_mem_erase ha) p hle hlt)
    have hapart := h.erase_apart hmem ha
    simp only [Apart] at hapart
    omega
  · rw [deallocate_live]
    exact h.blockApart.sublist erase_sublist
  · simp only [deallocate_live, deallocate_memoryHoleList]
    exact fun a ha => h.blockHole a (mem_of_mem_erase ha)

theorem wf_flag {f : Bool} (h : Wf s) : Wf { s with inIncreaseMemory := f } := by
  cases h
  constructor <;> assumption

theorem wf_nextId (h : Wf s) : Wf { s with nextId := k } := by
  cases h
  constructor <;> assumption

/-! ## Initialisation -/

theorem initPageAllocator_bulk (c : Config) :
    (initPageAllocator c).firstAllocPage ≤ (initPageAllocator c).firstBulkPage ∧
      (initPageAllocator c).firstBulkPage ≤ c.max := by
  have hfits := c.fits
  simp only [initPageAllocator]
  generalize c.maximumReservation / BITS_PER_PAGE = bitmapPages at hfits ⊢
  generalize c.maximumReservation * c.smallPct % 2 ^ 64 / 100 = small
  split <;> omega

theorem wf_initPageAllocator (c : Config) : Wf (initPageAllocator c) := by
  have hpos := c.pos
  have hbulk := initPageAllocator_bulk c
  refine ⟨?_, hbulk.1, hbulk.2, c.le, le_rfl, le_rfl, List.Pairwise.nil, ?_, ?_, ?_, ?_,
    ?_, ?_, List.Pairwise.nil, ?_⟩
  · exact le_trans hpos (Nat.le_add_right _ _)
  all_goals
    intro a ha
    cases ha

theorem wf_initial_hole {id : Nat} (h : Wf s) (hl : s.memoryHoleList = []) :
    Wf { s with
      memoryHoleList := ⟨id, s.endAllocPage, s.maxEndAllocPage⟩ :: s.memoryHoleList } := by
  have hend := h.end_le
  have hbulk := h.bulk_le
  rw [hl]
  refine { h with
    sorted := pairwise_singleton _ _
    range := ?_, holeSet := ?_, holeSide := ?_, holeTop := ?_, blockHole := ?_ }
  · intro hole hmem
    rw [List.mem_singleton.mp hmem]
    change s.firstBulkPage ≤ s.endAllocPage ∧ s.endAllocPage ≤ s.maxEndAllocPage ∧
      s.maxEndAllocPage ≤ s.maxEndAllocPage ∧
        (s.endAllocPage < s.maxEndAllocPage ∨ s.endAllocPage = s.maxEndAllocPage)
    omega
  · intro hole hmem p hhas hp
    rw [List.mem_singleton.mp hmem] at hhas
    exact absurd hhas.1 (not_le.mpr hp)
  · intro hole hmem hlt
    rw [List.mem_singleton.mp hmem] at hlt
    exact absurd hlt (lt_irrefl _)
  · intro hole hmem p hge hlt
    refine ⟨hole, hmem, ?_, hlt⟩
    rw [List.mem_singleton.mp hmem]
    exact hge
  · intro a ha hole hmem p _ hlt hhas
    rw [List.mem_singleton.mp hmem] at hhas
    have hle := h.block_end ha
    exact absurd hhas.1 (not_le.mpr (lt_of_lt_of_le hlt hle))

end Guk.PagePool
