import Guk.PagePoolSound

/-!
# `_allocate_pages` returns

A round of `_allocate_pages` that comes back to the search has gained pages of a hole,
so there are at most as many of them as there are pages in holes. The fuel of the loops
inside a round is a bound and nothing else: with more of it they do the same.
-/
namespace Guk.PagePool

open Bitmap Runs

variable {s t u : Pool} {b : Bool} {n nn page endPage f g fuel k rc result : Nat} {hole : Hole}
  {rest holes : List Hole} {xen x : Xen}

/-! ## The loops inside a round -/

theorem freeRun_fuel (hf : nn ≤ f + 1) (hg : nn ≤ g + 1) :
    freeRun s endPage f nn page = freeRun s endPage g nn page := by
  induction f generalizing g nn page with
  | zero =>
    cases g with
    | zero => rfl
    | succ g =>
      rw [freeRun, freeRun, if_neg (by omega)]
  | succ f ih =>
    cases g with
    | zero =>
      rw [freeRun, freeRun, if_neg (by omega)]
    | succ g =>
      rw [freeRun, freeRun]
      split
      · rw [ih (g := g) (by omega) (by omega)]
      · rfl

theorem searchLoop_fuel (hf : endPage - page ≤ f) (hg : endPage - page ≤ g) :
    searchLoop s endPage n f page = searchLoop s endPage n g page := by
  induction f generalizing g page with
  | zero =>
    cases g with
    | zero => rfl
    | succ g =>
      rw [searchLoop, searchLoop, if_neg (by omega)]
  | succ f ih =>
    cases g with
    | zero =>
      rw [searchLoop, searchLoop, if_neg (by omega)]
    | succ g =>
      rw [searchLoop, searchLoop]
      rcases hrun : freeRun s endPage n n (page + 1) with ⟨nn, stop⟩
      have hstop : page ≤ stop.getD page := by
        cases stop with
        | none => exact le_rfl
        | some q =>
          have := (freeRun_some hrun).1
          simp only [Option.getD_some]
          omega
      simp only
      rw [ih (g := g) (by omega : endPage - (stop.getD page + 1) ≤ f) (by omega),
        ih (g := g) (by omega : endPage - (page + 1) ≤ f) (by omega)]

def stepsToEnd (s : Pool) (page : Nat) : Nat :=
  if s.endAllocPage ≤ 2 ^ 64 - 2 ^ 31 then s.endAllocPage - page else 2 ^ 32 - 1 - page % 2 ^ 32

theorem stepsToEnd_le : stepsToEnd s page ≤ s.endAllocPage := by
  unfold stepsToEnd
  split <;> omega

theorem asInt_asInt : asInt (asInt page) = asInt page := by
  unfold asInt
  split <;> split <;> omega

theorem stepsToEnd_succ (hend : s.endAllocPage < 2 ^ 64) (hint : asInt page = page)
    (hlt : page < s.endAllocPage) : stepsToEnd s (asInt (page + 1)) + 1 ≤ stepsToEnd s page := by
  unfold stepsToEnd
  unfold asInt at *
  split at hint <;> split <;> split <;> omega

theorem nextFreeLoop_fuel (hend : s.endAllocPage < 2 ^ 64) (hint : asInt page = page)
    (hf : stepsToEnd s page ≤ f) (hg : stepsToEnd s page ≤ g) :
    nextFreeLoop s f page = nextFreeLoop s g page := by
  induction f generalizing g page with
  | zero =>
    cases g with
    | zero => rfl
    | succ g =>
      rw [nextFreeLoop, nextFreeLoop, if_neg]
      intro hlt
      have := stepsToEnd_succ hend hint hlt
      omega
  | succ f ih =>
    by_cases hlt : page < s.endAllocPage
    · have hstep := stepsToEnd_succ hend hint hlt
      cases g with
      | zero => omega
      | succ g =>
        rw [nextFreeLoop, nextFreeLoop, ih (g := g) asInt_asInt (by omega) (by omega)]
    · cases g with
      | zero => rw [nextFreeLoop, nextFreeLoop, if_neg hlt]
      | succ g => rw [nextFreeLoop, nextFreeLoop, if_neg hlt, if_neg hlt]

/-! ## Increasing the memory -/

theorem increaseLoop_fuel (hf : n ≤ f) (hg : n ≤ g) :
    increaseLoop f s n result xen = increaseLoop g s n result xen := by
  induction f generalizing g s n result xen with
  | zero =>
    have hn : n = 0 := by omega
    rw [increaseLoop_stop (.inl hn), increaseLoop_stop (.inl hn)]
  | succ f ih =>
    by_cases hn : n = 0
    · rw [increaseLoop_stop (.inl hn), increaseLoop_stop (.inl hn)]
    · cases hl : s.memoryHoleList with
      | nil => rw [increaseLoop_stop (.inr hl), increaseLoop_stop (.inr hl)]
      | cons hole rest =>
        cases g with
        | zero => omega
        | succ g =>
          rw [increaseLoop_cons hn hl, increaseLoop_cons hn hl]
          split
          · rfl
          case isFalse hrc => exact ih (by omega) (by omega)

theorem holePages_shorten (hole : Hole) (rc : Nat) (holes : List Hole) :
    holePages (holes.map fun h =>
    if h = hole then { h with startPfn := hole.startPfn + rc } else h) ≤ holePages holes := by
  induction holes with
  | nil => exact le_rfl
  | cons h holes ih =>
    rw [List.map_cons, holePages, holePages]
    have hsize : Hole.size (if h = hole then { h with startPfn := hole.startPfn + rc } else h) ≤
        h.size := by
      split
      case isTrue heq =>
        rw [heq]
        simp only [Hole.size]
        omega
      case isFalse => exact le_rfl
    omega

theorem holePages_recordIncrease (hl : s.memoryHoleList = hole :: rest) (hle : rc ≤ hole.size) :
    holePages (recordIncrease s hole hole.size rc).memoryHoleList + rc ≤
      holePages s.memoryHoleList := by
  have hrest := holePages_shorten hole rc rest
  change holePages
    (if hole.size = rc then s.memoryHoleList.erase hole else s.memoryHoleList.map _) + rc ≤ _
  rw [hl]
  split
  · rw [List.erase_cons_head, holePages]
    omega
  · rw [List.map_cons, if_pos rfl, holePages, holePages]
    simp only [Hole.size] at hle ⊢
    omega

theorem holePages_increaseLoop :
    holePages (increaseLoop fuel s n result xen).1.memoryHoleList +
      (increaseLoop fuel s n result xen).2.1 ≤ holePages s.memoryHoleList + result := by
  induction fuel generalizing s n result xen with
  | zero => exact le_rfl
  | succ fuel ih =>
    by_cases hn : n = 0
    · apply le_of_eq
      rw [increaseLoop_stop (.inl hn)]
    · cases hl : s.memoryHoleList with
      | nil =>
        apply le_of_eq
        rw [increaseLoop_stop (.inr hl), hl]
      | cons hole rest =>
        have hle := increaseReservation_le s (min hole.size n) (xen 0)
        have hholes := increaseReservation_memoryHoleList s (min hole.size n) (xen 0)
        rw [increaseLoop_cons hn hl]
        split
        · apply le_of_eq
          rw [hholes, hl]
        · have hgain :=
            holePages_recordIncrease (hholes.trans hl) (le_trans hle (Nat.min_le_left _ _))
          rw [hholes, hl] at hgain
          refine le_trans ih ?_
          omega

theorem holePages_increaseMemory (s : Pool) (n : Nat) (xen : Xen) :
    holePages (increaseMemory s n xen).1.memoryHoleList + (increaseMemory s n xen).2.1 ≤
      holePages s.memoryHoleList := by
  unfold increaseMemory
  split
  · exact le_rfl
  · simp only
    split
    · exact holePages_increaseLoop
    · exact le_rfl

/-! ## The rounds -/

def roundsLeft (s : Pool) (isBulkAlloc : Bool) : Nat :=
  holePages s.memoryHoleList + if isBulkAlloc then 1 else 2

theorem allocateLoop_returns (n : Nat) (xen : Xen) (hfuel : roundsLeft s b ≤ fuel) :
    ∃ result, allocateLoop n fuel s b xen = some result := by
  induction fuel generalizing s b xen with
  | zero =>
    unfold roundsLeft at hfuel
    split at hfuel <;> omega
  | succ fuel ih =>
    rw [allocateLoop]
    cases hs : search s b n with
    | some page => exact ⟨_, rfl⟩
    | none =>
      cases b with
      | false =>
        apply ih
        simp only [roundsLeft, Bool.false_eq_true, if_false, if_true] at hfuel ⊢
        omega
      | true =>
        have hholes := holePages_increaseMemory s n xen
        rcases hinc : increaseMemory s n xen with ⟨t, gained, xen'⟩
        simp only [hinc] at hholes
        simp only [Bool.not_true, Bool.false_eq_true, if_false]
        split
        · exact ⟨_, rfl⟩
        case isFalse hgain =>
          apply ih
          simp only [roundsLeft, if_true] at hfuel ⊢
          omega

theorem allocateLoop_mono {r : Pool × Option Nat} (h : allocateLoop n f s b xen = some r)
    (hle : f ≤ g) :
    allocateLoop n g s b xen = some r := by
  induction f generalizing g s b xen with
  | zero => cases h
  | succ f ih =>
    cases g with
    | zero => omega
    | succ g =>
      rw [allocateLoop] at h ⊢
      split
      case h_1 page hs =>
        rw [hs] at h
        exact h
      case h_2 hs =>
        rw [hs] at h
        split
        case isTrue hb =>
          rw [if_pos hb] at h
          exact ih h (by omega)
        case isFalse hb =>
          rw [if_neg hb] at h
          simp only at h ⊢
          split
          case isTrue hzero =>
            rw [if_pos hzero] at h
            exact h
          case isFalse hzero =>
            rw [if_neg hzero] at h
            exact ih h (by omega)

/-! ## `memory_hole_head` -/

inductive IncreaseHead (s : Pool) (n : Nat) (xen : Xen) : Pool → Nat → Xen → Prop where
  | first (h : canIncrease s.memoryHoleList n ≠ 0) :
      IncreaseHead s n xen { s with inIncreaseMemory := true } n xen
  | again {t : Pool} {k : Nat} {x : Xen} {hole : Hole} {rest : List Hole}
      (h : IncreaseHead s n xen t k x) (hk : k ≠ 0) (hl : t.memoryHoleList = hole :: rest)
      (hrc : (increaseReservation t (min hole.size k) (x 0)).2 ≠ 0) :
      IncreaseHead s n xen
        (recordIncrease (increaseReservation t (min hole.size k) (x 0)).1 hole hole.size
          (increaseReservation t (min hole.size k) (x 0)).2)
        (k - (increaseReservation t (min hole.size k) (x 0)).2) x.rest

theorem sound_increaseReservation (h : Sound k s) (n : Nat) (answer : Answer) :
    Sound k (increaseReservation s n answer).1 :=
  (((steady_sound k).kept fun _ => answer).increaseReservation h).1

theorem increaseHead_pages {m : Nat} (h : Sound k s) (hh : IncreaseHead s n xen u m x) :
    Sound k u ∧ m ≤ holePages u.memoryHoleList := by
  induction hh with
  | first hcan =>
    rw [ne_eq, canIncrease_eq_zero_iff, not_or] at hcan
    exact ⟨sound_flag h, Nat.le_of_not_lt hcan.2⟩
  | @again t m x hole rest _ _ hl _ ih =>
    obtain ⟨hsound, hle⟩ := ih
    have hgain := increaseReservation_le t (min hole.size m) (x 0)
    have hlist := increaseReservation_memoryHoleList t (min hole.size m) (x 0)
    rw [hl] at hle hlist
    have hafter := sound_increaseReservation hsound (min hole.size m) (x 0)
    refine ⟨sound_recordIncrease hafter hlist (le_trans hgain (Nat.min_le_left _ _)), ?_⟩
    rw [recordIncrease_records hafter hlist]
    rw [holePages] at hle
    split
    · omega
    · rw [holePages]
      simp only [Hole.size] at hle ⊢
      omega

inductive AllocateHead (s : Pool) (n : Nat) (xen : Xen) : Pool → Xen → Prop where
  | first : AllocateHead s n xen s xen
  | again {t : Pool} {x : Xen} (h : AllocateHead s n xen t x) (hs : search t true n = none)
      (hgain : (increaseMemory t n x).2.1 ≠ 0) :
      AllocateHead s n xen (increaseMemory t n x).1 (increaseMemory t n x).2.2

theorem sound_allocateHead (h : Sound k s) (hh : AllocateHead s n xen u x) :
    Sound k u := by
  induction hh with
  | first => exact h
  | again _ _ _ ih => exact (((steady_sound k).kept _).increaseMemory ih).1

/-! ## The function returns -/

structure Returns (s : Pool) (n : Nat) (xen : Xen) : Prop where
  rounds : ∃ result, allocatePages s n xen = some result ∧
    ∀ fuel, roundsLeft s (isBulk n) ≤ fuel → allocateLoop n fuel s (isBulk n) xen = some result
  searches : ∀ t isBulkAlloc fuel, regionEnd t isBulkAlloc - hint t isBulkAlloc ≤ fuel →
    searchLoop t (regionEnd t isBulkAlloc) n fuel (hint t isBulkAlloc) = search t isBulkAlloc n
  runs : ∀ t endPage page fuel, n ≤ fuel →
    freeRun t endPage fuel n page = freeRun t endPage n n page
  nexts : ∀ t page fuel, t.endAllocPage < 2 ^ 64 → t.endAllocPage ≤ fuel →
    nextFreeLoop t fuel (asInt page) = nextFree t page
  increases : ∀ t result x fuel, n ≤ fuel →
    increaseLoop fuel t n result x = increaseLoop n t n result x
  heads : ∀ t x, AllocateHead s n xen t x → ∀ u k y, IncreaseHead t n x u k y → k ≠ 0 →
    u.memoryHoleList ≠ []

theorem allocate_returns (s : Sys) (h : Reach step anyStep Initial s) (n : Nat) (xen : Xen) :
    Returns s.pool n xen := by
  constructor
  · obtain ⟨result, hresult⟩ := allocateLoop_returns n xen (le_refl (roundsLeft s.pool (isBulk n)))
    have hmore : ∀ fuel, roundsLeft s.pool (isBulk n) ≤ fuel →
        allocateLoop n fuel s.pool (isBulk n) xen = some result :=
          fun fuel => allocateLoop_mono hresult
    refine ⟨result, hmore _ ?_, hmore⟩
    unfold roundsLeft
    split <;> omega
  · intro t isBulkAlloc fuel hfuel
    rw [search_eq]
    exact searchLoop_fuel hfuel le_rfl
  · intro t endPage page fuel hfuel
    exact freeRun_fuel (by omega) (by omega)
  · intro t page fuel hend hfuel
    have hsteps : stepsToEnd t (asInt page) ≤ t.endAllocPage := stepsToEnd_le
    exact nextFreeLoop_fuel hend asInt_asInt (le_trans hsteps hfuel) hsteps
  · intro t result x fuel hfuel
    exact increaseLoop_fuel hfuel (le_refl n)
  · intro t x ht u k y hu hk hnil
    have hsound := sound_allocateHead (sound_of_reach h) ht
    have hle := (increaseHead_pages hsound hu).2
    rw [hnil, holePages] at hle
    omega

theorem allocate_returns_in_use : ∃ s, Reach step anyStep Initial s ∧
    (increaseMemory s.pool 6 allMemory).2.1 = 6 ∧ Returns s.pool 6 allMemory := by
  have hstart : Reach step anyStep Initial ⟨initPageAllocator smallDomain, none⟩ :=
    .start ⟨smallDomain, rfl⟩
  obtain ⟨s, hreach, hgain⟩ := hstart.runTo
    (P := fun s => (increaseMemory s.pool 6 allMemory).2.1 = 6) inUse (by decide +kernel)
  exact ⟨s, hreach, hgain, allocate_returns s hreach 6 allMemory⟩

end Guk.PagePool
