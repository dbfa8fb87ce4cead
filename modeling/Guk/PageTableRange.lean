import Guk.PageTable
import Mathlib.Data.List.Perm.Basic

/-!
# Operations on ranges of mappings (`arch/x86/mm.c`)

`demolish_pagetable_vs` and `write_protect_vs` go through a range page by page and
collect one `update_va_mapping` for each page in an array, which they hand to Xen when
it is full and at the end of the range.

A mapping is the entry that translates a page, by the address of the page.
-/
namespace Guk.PageTable

open Function List

inductive PageSize where
  | small
  | large
  deriving DecidableEq, Repr

def PageSize.bytes : PageSize → Nat
  | .small => 4096
  | .large => 4096 * 512

structure Call where
  va : Nat
  val : Nat
  flags : Nat
  deriving DecidableEq, Repr

abbrev Mapping := Nat → Nat

def updateVaMapping (m : Mapping) (c : Call) : Mapping := update m c.va c.val

def lastCall : Nat := 1023

structure Range where
  m : Mapping
  call : Nat → Call
  i : Nat
  startAddress : Nat
  submitted : List Call

def multicall (r : Range) (nr : Nat) : Range :=
  let calls := (List.range nr).map r.call
  { r with m := calls.foldl updateVaMapping r.m, submitted := r.submitted ++ calls }

section

variable (fill : Mapping → Nat → Call) (pageSize endAddress : Nat)

def rangeStep (r : Range) : Range :=
  let r := { r with
    call := update r.call r.i (fill r.m r.startAddress)
    startAddress := r.startAddress + pageSize }
  let r :=
    if r.i = lastCall ∨ r.startAddress = endAddress then { multicall r r.i with i := 0 } else r
  { r with i := r.i + 1 }

def rangeLoop : Nat → Range → Range
  | 0, r => r
  | fuel + 1, r =>
    if r.startAddress < endAddress then rangeLoop fuel (rangeStep fill pageSize endAddress r) else r

end

def uvmfAllInvlpg : Nat := 4 ||| 2

def demolishCall (_ : Mapping) (va : Nat) : Call := ⟨va, 0, uvmfAllInvlpg⟩

def writeProtectCall (m : Mapping) (va : Nat) : Call := ⟨va, m va &&& (2 ^ 64 - 1 - pageRw), 0⟩

def onRange (fill : Mapping → Nat → Call) (call : Nat → Call) (m : Mapping)
    (startAddress endAddress : Nat) (pageSize : PageSize) : Range :=
  rangeLoop fill pageSize.bytes endAddress (endAddress - startAddress)
    ⟨m, call, 0, startAddress, []⟩

def demolishPagetableVs := onRange demolishCall

def writeProtectVs := onRange writeProtectCall

def pagesFrom (startAddress n pageSize : Nat) : List Nat :=
  (List.range n).map fun k => startAddress + k * pageSize

structure OnlyRange (val : Nat → Nat) (m : Mapping) (pages : List Nat) (r : Range) : Prop where
  once : (r.submitted.map Call.va).Perm pages
  entry : ∀ va, r.m va = if va ∈ pages then val (m va) else m va

/-! ## The loop -/

def Handed (bound p : Nat) : Prop := p < bound ∧ (p = 0 ∨ p % lastCall ≠ 0)

structure Submitted (val : Nat → Nat) (m : Mapping) (start size bound : Nat) (r : Range) :
    Prop where
  submitted : ∀ va, va ∈ r.submitted.map Call.va ↔ ∃ p, Handed bound p ∧ va = start + p * size
  mapping : ∀ va, r.m va = if va ∈ r.submitted.map Call.va then val (m va) else m va

structure Collecting (val : Nat → Nat) (m : Mapping) (start size k full : Nat) (r : Range) :
    Prop where
  done : Submitted val m start size (lastCall * full) r
  address : r.startAddress = start + k * size
  count : k = lastCall * full + r.i
  first : r.i = 0 → full = 0
  i_le : r.i ≤ lastCall
  call : ∀ j, j < r.i → (r.call j).va = start + (if j = 0 then 0 else lastCall * full + j) * size ∧
    (r.call j).val = val (m (r.call j).va)

variable {val : Nat → Nat} {m : Mapping} {start size bound k full n fuel nr p : Nat} {r : Range}
  {fill : Mapping → Nat → Call}

theorem page_inj {q : Nat} (hsize : 0 < size) (h : start + p * size = start + q * size) : p = q :=
  Nat.eq_of_mul_eq_mul_right hsize (by omega)

theorem foldl_updateVaMapping {f : Nat → Nat} {calls : List Call} (m : Mapping)
    (h : ∀ c ∈ calls, c.val = f c.va) (va : Nat) :
    calls.foldl updateVaMapping m va = if va ∈ calls.map Call.va then f va else m va := by
  induction calls generalizing m with
  | nil => simp
  | cons c calls ih =>
    rw [foldl_cons, ih _ fun c hc => h c (mem_cons_of_mem _ hc), map_cons]
    by_cases hmem : va ∈ calls.map Call.va
    · rw [if_pos hmem, if_pos (mem_cons_of_mem _ hmem)]
    · rw [if_neg hmem, updateVaMapping]
      by_cases hva : va = c.va
      · rw [hva, update_self, h c mem_cons_self, if_pos mem_cons_self]
      · rw [update_of_ne hva, if_neg]
        rw [mem_cons]
        exact not_or.mpr ⟨hva, hmem⟩

theorem mem_multicall (r : Range) (nr va : Nat) : va ∈ (multicall r nr).submitted.map Call.va ↔
    va ∈ r.submitted.map Call.va ∨ ∃ j < nr, (r.call j).va = va := by
  simp [multicall]

theorem handed_add (hle : nr ≤ lastCall) :
    Handed (lastCall * full + nr) p ↔
      Handed (lastCall * full) p ∨ ∃ j < nr, p = if j = 0 then 0 else lastCall * full + j := by
  unfold Handed lastCall at *
  constructor
  · rintro ⟨hlt, hp⟩
    by_cases hold : p < 1023 * full
    · exact .inl ⟨hold, hp⟩
    · refine .inr ⟨p - 1023 * full, by omega, ?_⟩
      split
      case isTrue hj => omega
      case isFalse hj => omega
  · rintro (⟨hlt, hp⟩ | ⟨j, hj, rfl⟩)
    · exact ⟨by omega, hp⟩
    · split
      case isTrue => exact ⟨by omega, .inl rfl⟩
      case isFalse hne => exact ⟨by omega, .inr (by omega)⟩

theorem done_multicall (h : Submitted val m start size (lastCall * full) r) (hle : nr ≤ lastCall)
    (hcall : ∀ j, j < nr →
    (r.call j).va = start + (if j = 0 then 0 else lastCall * full + j) * size ∧
      (r.call j).val = val (m (r.call j).va)) :
    Submitted val m start size (lastCall * full + nr) (multicall r nr) := by
  constructor
  · intro va
    rw [mem_multicall, h.submitted]
    simp only [handed_add hle, or_and_right, exists_or]
    refine or_congr Iff.rfl ?_
    constructor
    · rintro ⟨j, hj, rfl⟩
      exact ⟨_, ⟨j, hj, rfl⟩, (hcall j hj).1⟩
    · rintro ⟨p, ⟨j, hj, rfl⟩, rfl⟩
      exact ⟨j, hj, (hcall j hj).1⟩
  · intro va
    have hval : ∀ c ∈ (List.range nr).map r.call, c.val = val (m c.va) := by
      intro c hc
      obtain ⟨j, hj, rfl⟩ := List.mem_map.mp hc
      exact (hcall j (List.mem_range.mp hj)).2
    change ((List.range nr).map r.call).foldl updateVaMapping r.m va = _
    rw [foldl_updateVaMapping (f := fun va => val (m va)) r.m hval, h.mapping]
    simp only [multicall, map_append, mem_append]
    by_cases hnew : va ∈ ((List.range nr).map r.call).map Call.va
    · rw [if_pos hnew, if_pos (.inr hnew)]
    · simp only [hnew, or_false, if_false]

theorem rangeStep_startAddress {endAddress : Nat} :
    (rangeStep fill size endAddress r).startAddress = r.startAddress + size := by
  unfold rangeStep
  simp only
  split <;> rfl

theorem rangeLoop_end {endAddress : Nat} (h : endAddress ≤ r.startAddress) :
    rangeLoop fill size endAddress fuel r = r := by
  cases fuel with
  | zero => rfl
  | succ fuel => rw [rangeLoop, if_neg (not_lt.mpr h)]

section Step

variable (hsize : 0 < size) (hfill : ∀ m va, (fill m va).va = va ∧ (fill m va).val = val (m va))
include hsize hfill

section

variable (h : Collecting val m start size k full r)

include h

theorem call_fill : ∀ j, j ≤ r.i → (update r.call r.i (fill r.m r.startAddress) j).va =
        start + (if j = 0 then 0 else lastCall * full + j) * size ∧
      (update r.call r.i (fill r.m r.startAddress) j).val =
        val (m (update r.call r.i (fill r.m r.startAddress) j).va) := by
  intro j hj
  by_cases hji : j = r.i
  · -- the page has not been handed over, so its entry is that of the start
    have hnot : r.startAddress ∉ r.submitted.map Call.va := by
      intro hmem
      obtain ⟨p, ⟨hlt, -⟩, hp⟩ := (h.done.submitted _).mp hmem
      have hpk := page_inj hsize (h.address.symm.trans hp)
      have hcount := h.count
      omega
    have hentry : r.m r.startAddress = m r.startAddress := by
      rw [h.done.mapping, if_neg hnot]
    have hnumber : k = if r.i = 0 then 0 else lastCall * full + r.i := by
      have hcount := h.count
      split
      case isTrue hi =>
        rw [hi, h.first hi] at hcount
        simpa using hcount
      case isFalse => exact hcount
    rw [hji, update_self, (hfill _ _).1, (hfill _ _).2, hentry, h.address, ← hnumber]
    exact ⟨rfl, rfl⟩
  · rw [update_of_ne hji]
    exact h.call j (by omega)

theorem done_filled : Submitted val m start size (lastCall * full + r.i) (multicall { r with
    call := update r.call r.i (fill r.m r.startAddress)
    startAddress := r.startAddress + size } r.i) :=
  done_multicall ⟨h.done.submitted, h.done.mapping⟩ h.i_le
    fun j hj => call_fill hsize hfill h j (le_of_lt hj)

theorem collecting_step (hk : k + 1 < n) : ∃ full', Collecting val m start size (k + 1) full'
      (rangeStep fill size (start + n * size) r) := by
  have hcall := call_fill hsize hfill h
  have hcount := h.count
  have hi := h.i_le
  have haddress : r.startAddress + size = start + (k + 1) * size := by
    rw [h.address, Nat.add_mul, Nat.one_mul, Nat.add_assoc]
  have hend : r.startAddress + size ≠ start + n * size := by
    intro he
    have := page_inj hsize (haddress.symm.trans he)
    omega
  simp only [rangeStep, hend, or_false]
  by_cases hlast : r.i = lastCall
  · rw [if_pos hlast]
    have hdone := done_filled hsize hfill h
    refine ⟨full + 1, ?_, haddress, ?_, nofun, ?_, ?_⟩
    · have hbound : lastCall * (full + 1) = lastCall * full + r.i := by rw [hlast, Nat.mul_succ]
      rw [hbound]
      exact ⟨hdone.submitted, hdone.mapping⟩
    · rw [hcount, hlast, Nat.mul_succ]
    · change 0 + 1 ≤ lastCall
      decide
    · intro j hj
      obtain rfl : j = 0 := Nat.lt_one_iff.mp hj
      exact hcall 0 (Nat.zero_le _)
  · rw [if_neg hlast]
    refine ⟨full, ⟨h.done.submitted, h.done.mapping⟩, haddress, ?_, nofun, ?_, ?_⟩
    · simp only
      omega
    · simp only
      omega
    · intro j hj
      exact hcall j (Nat.le_of_lt_succ hj)

theorem done_step (hk : k + 1 = n) :
    Submitted val m start size k (rangeStep fill size (start + n * size) r) := by
  have hend : r.startAddress + size = start + n * size := by
    rw [h.address, ← hk, Nat.add_mul, Nat.one_mul, Nat.add_assoc]
  have hdone := done_filled hsize hfill h
  rw [← h.count] at hdone
  simp only [rangeStep, hend, or_true, if_true]
  rw [hend] at hdone
  exact ⟨hdone.submitted, hdone.mapping⟩

theorem done_loop (hk : k < n) (hfuel : n ≤ k + fuel) :
    Submitted val m start size (n - 1) (rangeLoop fill size (start + n * size) fuel r) := by
  induction fuel generalizing k full r with
  | zero => omega
  | succ fuel ih =>
    have hlt : r.startAddress < start + n * size := by
      rw [h.address]
      exact Nat.add_lt_add_left (Nat.mul_lt_mul_of_pos_right hk hsize) start
    rw [rangeLoop, if_pos hlt]
    by_cases hlast : k + 1 = n
    · have hend : start + n * size ≤ (rangeStep fill size (start + n * size) r).startAddress := by
        apply le_of_eq
        rw [rangeStep_startAddress, h.address, ← hlast, Nat.add_mul, Nat.one_mul, Nat.add_assoc]
      rw [rangeLoop_end hend]
      have hcount : n - 1 = k := by omega
      rw [hcount]
      exact done_step hsize hfill h hlast
    · obtain ⟨full', hnext⟩ := collecting_step hsize hfill h (by omega : k + 1 < n)
      exact ih hnext (by omega) (by omega)

end

end Step

/-! ## The two operations -/

theorem PageSize.bytes_pos (size : PageSize) : 0 < size.bytes := by
  cases size <;> decide

theorem onRange_done (start : Nat)
    (hfill : ∀ m va, (fill m va).va = va ∧ (fill m va).val = val (m va))
    (call : Nat → Call) (m : Mapping) (size : PageSize) (hn : 0 < n) :
    Submitted val m start size.bytes (n - 1)
      (onRange fill call m start (start + n * size.bytes) size) := by
  have hsize := size.bytes_pos
  have hbegin : Collecting val m start size.bytes 0 0 ⟨m, call, 0, start, []⟩ := by
    refine ⟨⟨?_, ?_⟩, ?_, rfl, fun _ => rfl, Nat.zero_le _, nofun⟩
    · simp [Handed]
    · simp
    · simp
  apply done_loop hsize hfill hbegin hn
  rw [Nat.add_sub_cancel_left, Nat.zero_add]
  exact Nat.le_mul_of_pos_right n hsize

theorem onlyRange_iff (hfill : ∀ m va, (fill m va).va = va ∧ (fill m va).val = val (m va))
    (call : Nat → Call) (m : Mapping) (size : PageSize) :
    OnlyRange val m (pagesFrom start n size.bytes)
      (onRange fill call m start (start + n * size.bytes) size) ↔ n = 0 := by
  constructor
  · intro h
    by_contra hn
    have hlast : start + (n - 1) * size.bytes ∈ pagesFrom start n size.bytes :=
      List.mem_map.mpr ⟨n - 1, List.mem_range.mpr (by omega), rfl⟩
    have hdone := onRange_done start hfill call m size (Nat.pos_of_ne_zero hn)
    -- the last page is in no array that was handed over
    obtain ⟨p, ⟨hlt, -⟩, hp⟩ := (hdone.submitted _).mp (h.once.mem_iff.mpr hlast)
    have := page_inj size.bytes_pos hp
    omega
  · rintro rfl
    rw [Nat.zero_mul, Nat.add_zero, onRange, rangeLoop_end (le_refl start)]
    exact ⟨List.Perm.refl [], fun va => by simp [pagesFrom]⟩

def unmapped (_ : Nat) : Nat := 0

def readOnly (pte : Nat) : Nat := pte &&& (2 ^ 64 - 1 - pageRw)

/-- Neither of the two does what it should with a range that has a page. -/
theorem range_operations_iff (call : Nat → Call) (m : Mapping) (start n : Nat) (size : PageSize) :
    (OnlyRange unmapped m (pagesFrom start n size.bytes)
        (demolishPagetableVs call m start (start + n * size.bytes) size) ↔ n = 0) ∧
      (OnlyRange readOnly m (pagesFrom start n size.bytes)
        (writeProtectVs call m start (start + n * size.bytes) size) ↔ n = 0) :=
  ⟨onlyRange_iff (fun _ _ => ⟨rfl, rfl⟩) call m size,
    onlyRange_iff (fun _ _ => ⟨rfl, rfl⟩) call m size⟩

def onePageMapped : Mapping := fun va => if va = 0x5000 then mkEntry 7 l1Prot else 0

theorem range_operations_one_page :
    ¬ OnlyRange unmapped onePageMapped (pagesFrom 0x5000 1 4096)
        (demolishPagetableVs (fun _ => ⟨0, 0, 0⟩) onePageMapped 0x5000 0x6000 .small) ∧
      ¬ OnlyRange readOnly onePageMapped (pagesFrom 0x5000 1 4096)
        (writeProtectVs (fun _ => ⟨0, 0, 0⟩) onePageMapped 0x5000 0x6000 .small) := by
  constructor
  · intro h
    exact absurd (h.entry 0x5000) (by decide)
  · intro h
    exact absurd (h.entry 0x5000) (by decide)

end Guk.PageTable
