import Guk.PagePool

/-!
# What the loops of the page pool find

The search returns the first page of a run of free pages and misses none, `next_free`
skips allocated pages only, and `guk_decrease_page_pool` walks down a run of free pages.
-/
namespace Guk.PagePool

open Bitmap

def FreePages (s : Pool) (page n : Nat) : Prop :=
  ∀ p, page ≤ p → p < page + n → allocated s p = false

variable {s : Pool} {endPage fuel n nn nn' page stop q p : Nat}

/-! ## The search -/

theorem freeRun_some (h : freeRun s endPage fuel nn page = (nn', some q)) :
    page ≤ q ∧ q < endPage ∧ allocated s q = true ∧ nn' + (q - page) = nn ∧ 1 < nn' := by
  induction fuel generalizing nn page with
  | zero => cases h
  | succ fuel ih =>
    rw [freeRun] at h
    split at h
    case isTrue hloop =>
      cases hpage : allocated s page with
      | false =>
        rw [hpage] at h
        obtain ⟨hle, hlt, hset, hsum, hmore⟩ := ih h
        exact ⟨by omega, hlt, hset, by omega, hmore⟩
      | true =>
        rw [hpage] at h
        cases h
        exact ⟨le_rfl, hloop.2, hpage, by omega, hloop.1⟩
    case isFalse => cases h

theorem freeRun_none (h : freeRun s endPage fuel nn page = (nn', none)) (hfuel : nn ≤ fuel) :
    ∃ k, nn' + k = nn ∧ FreePages s page k ∧ (nn' ≤ 1 ∨ endPage ≤ page + k) ∧
      (k = 0 ∨ page + k ≤ endPage ∧ 1 ≤ nn') := by
  have hdone : ∀ page, FreePages s page 0 := by
    intro page p hle hlt
    omega
  induction fuel generalizing nn page with
  | zero =>
    cases h
    exact ⟨0, rfl, hdone page, .inl (by omega), .inl rfl⟩
  | succ fuel ih =>
    rw [freeRun] at h
    split at h
    case isTrue hloop =>
      cases hpage : allocated s page with
      | false =>
        rw [hpage] at h
        obtain ⟨k, hk, hfree, hend, hle⟩ := ih h (by omega)
        refine ⟨k + 1, by omega, ?_, by omega, by omega⟩
        intro p hp hlt
        by_cases hpp : p = page
        · rw [hpp]
          exact hpage
        · exact hfree p (by omega) (by omega)
      | true =>
        rw [hpage] at h
        cases h
    case isFalse hloop =>
      cases h
      exact ⟨0, rfl, hdone page, by omega, .inl rfl⟩

theorem searchLoop_sound (h : searchLoop s endPage n fuel page = some q) :
    page ≤ q ∧ 1 ≤ n ∧ q + n ≤ endPage ∧ FreePages s q n := by
  induction fuel generalizing page with
  | zero => cases h
  | succ fuel ih =>
    rw [searchLoop] at h
    split at h
    case isFalse => cases h
    case isTrue hlt =>
      cases hpage : allocated s page with
      | true =>
        rw [hpage] at h
        obtain ⟨hle, hrest⟩ := ih h
        exact ⟨by omega, hrest⟩
      | false =>
        rw [hpage] at h
        rcases hrun : freeRun s endPage n n (page + 1) with ⟨nn, stop⟩
        simp only [Bool.not_false, if_true, hrun] at h
        split at h
        case isTrue hnn =>
          have hq : page = q := Option.some.inj h
          subst hq
          cases stop with
          | some q =>
            have := freeRun_some hrun
            omega
          | none =>
            obtain ⟨k, hk, hfree, -, hend⟩ := freeRun_none hrun (le_refl n)
            refine ⟨le_rfl, by omega, by omega, ?_⟩
            intro p hp hlt
            by_cases hpp : p = page
            · rw [hpp]
              exact hpage
            · exact hfree p (by omega) (by omega)
        case isFalse =>
          obtain ⟨hle, hrest⟩ := ih h
          refine ⟨?_, hrest⟩
          cases stop with
          | some q =>
            have := freeRun_some hrun
            simp only [Option.getD_some] at hle
            omega
          | none =>
            simp only [Option.getD_none] at hle
            omega

theorem freeRun_skips (h : freeRun s endPage n n (page + 1) = (nn, some stop)) (hle : page ≤ q)
    (hstop : q ≤ stop) : ¬ FreePages s q n := by
  intro hfree
  obtain ⟨-, -, hset, hmissing, hmore⟩ := freeRun_some h
  have hclear := hfree stop hstop (by omega)
  rw [hset] at hclear
  cases hclear

theorem searchLoop_finds (hfuel : endPage - page ≤ fuel) (hn : 1 ≤ n) (hle : page ≤ q)
    (hend : q + n ≤ endPage) (hfree : FreePages s q n) :
    ∃ p, searchLoop s endPage n fuel page = some p ∧ p ≤ q := by
  induction fuel generalizing page with
  | zero => omega
  | succ fuel ih =>
    rw [searchLoop, if_pos (by omega)]
    cases hpage : allocated s page with
    | true =>
      have hne : q ≠ page := by
        rintro rfl
        have hclear := hfree q le_rfl (by omega)
        rw [hpage] at hclear
        cases hclear
      exact ih (by omega) (by omega)
    | false =>
      rcases hrun : freeRun s endPage n n (page + 1) with ⟨nn, stop⟩
      simp only [Bool.not_false, if_true]
      split
      case isTrue => exact ⟨page, rfl, hle⟩
      case isFalse =>
        cases stop with
        | some stop =>
          -- a run that starts at or before the allocated page would contain it
          have hlater : stop < q := by
            by_contra hstop
            exact freeRun_skips hrun hle (by omega) hfree
          have := (freeRun_some hrun).1
          exact ih (by rw [Option.getD_some]; omega) (by rw [Option.getD_some]; omega)
        | none =>
          -- the end of the region came before the end of the run
          obtain ⟨k, hk, -, hstop, hmore⟩ := freeRun_none hrun (le_refl n)
          exact ih (by rw [Option.getD_none]; omega) (by rw [Option.getD_none]; omega)

def hint (s : Pool) (isBulkAlloc : Bool) : Nat :=
  if isBulkAlloc then s.firstFreeBulkPage else s.firstFreePage

def regionEnd (s : Pool) (isBulkAlloc : Bool) : Nat :=
  if isBulkAlloc then s.endAllocPage else s.firstBulkPage

variable {isBulkAlloc : Bool}

theorem search_eq : search s isBulkAlloc n = searchLoop s (regionEnd s isBulkAlloc) n
    (regionEnd s isBulkAlloc - hint s isBulkAlloc) (hint s isBulkAlloc) := rfl

theorem search_sound (h : search s isBulkAlloc n = some page) :
    hint s isBulkAlloc ≤ page ∧ 1 ≤ n ∧ page + n ≤ regionEnd s isBulkAlloc ∧ FreePages s page n :=
  searchLoop_sound (search_eq ▸ h)

theorem search_complete (h : search s isBulkAlloc n = none) (hn : 1 ≤ n)
    (hle : hint s isBulkAlloc ≤ page) (hend : page + n ≤ regionEnd s isBulkAlloc) :
    ¬ FreePages s page n := by
  intro hfree
  obtain ⟨p, hp, -⟩ := searchLoop_finds le_rfl hn hle hend hfree
  exact nomatch hp.symm.trans h

/-- The search for one page finds the first free one. -/
theorem search_one {b : Bool} (hle : hint s b ≤ q) (hlt : q < regionEnd s b)
    (hfree : allocated s q = false) :
    ∃ page, search s b 1 = some page ∧ page ≤ q := by
  refine searchLoop_finds le_rfl le_rfl hle hlt fun p hp hlt => ?_
  rw [show p = q by omega]
  exact hfree

/-! ## `next_free` -/

theorem asInt_eq (h : page < 2 ^ 31) : asInt page = page := by
  unfold asInt
  rw [if_pos (by omega)]
  omega

theorem nextFreeLoop_spec (hend : s.endAllocPage < 2 ^ 31) (hpage : page ≤ s.endAllocPage) :
    page ≤ nextFreeLoop s fuel page ∧ nextFreeLoop s fuel page ≤ s.endAllocPage ∧
      ∀ p, page ≤ p → p < nextFreeLoop s fuel page → allocated s p = true := by
  induction fuel generalizing page with
  | zero =>
    refine ⟨le_rfl, hpage, ?_⟩
    intro p hle hlt
    exact absurd hlt (by rw [nextFreeLoop]; omega)
  | succ fuel ih =>
    rw [nextFreeLoop]
    by_cases hlt : page < s.endAllocPage
    · rw [if_pos hlt]
      cases hset : allocated s page with
      | false =>
        simp only [Bool.not_false, if_true]
        exact ⟨le_rfl, hpage, fun p hle hlt => by omega⟩
      | true =>
        simp only [Bool.not_true, Bool.false_eq_true, if_false]
        rw [asInt_eq (by omega)]
        obtain ⟨h₁, h₂, h₃⟩ := ih (show page + 1 ≤ s.endAllocPage by omega)
        refine ⟨by omega, h₂, ?_⟩
        intro p hle hp
        by_cases hpp : p = page
        · rw [hpp]
          exact hset
        · exact h₃ p (by omega) hp
    · rw [if_neg hlt]
      exact ⟨le_rfl, hpage, fun p hle hlt => by omega⟩

theorem nextFree_spec (hend : s.endAllocPage < 2 ^ 31) (hpage : page ≤ s.endAllocPage) :
    page ≤ nextFree s page ∧ nextFree s page ≤ s.endAllocPage ∧
      ∀ p, page ≤ p → p < nextFree s page → allocated s p = true := by
  rw [nextFree, asInt_eq (by omega)]
  exact nextFreeLoop_spec hend hpage

/-! ## The run of `guk_decrease_page_pool` -/

theorem freeRunDown_spec (h : freeRunDown s n fuel page nn = (q, nn')) (hpos : 1 ≤ s.firstBulkPage)
    (hpage : s.firstBulkPage ≤ page + 1) :
    q + (nn' - nn) = page ∧ nn ≤ nn' ∧ s.firstBulkPage ≤ q + 1 ∧
      ∀ p, q < p → p ≤ page → allocated s p = false := by
  induction fuel generalizing page nn with
  | zero =>
    cases h
    exact ⟨by omega, le_rfl, hpage, fun p h₁ h₂ => by omega⟩
  | succ fuel ih =>
    rw [freeRunDown] at h
    split at h
    case isTrue hloop =>
      obtain ⟨hfree, hbulk, -⟩ := hloop
      obtain ⟨h₁, h₂, h₃, h₄⟩ := ih h (by omega)
      refine ⟨by omega, by omega, h₃, ?_⟩
      intro p hq hp
      by_cases hpp : p = page
      · rw [hpp]
        simpa using hfree
      · exact h₄ p hq (by omega)
    case isFalse =>
      cases h
      exact ⟨by omega, le_rfl, hpage, fun p h₁ h₂ => by omega⟩

theorem freeRunDown_pos (h : freeRunDown s n fuel page 0 = (q, nn'))
    (hfree : allocated s page = false)
    (hbulk : s.firstBulkPage ≤ page) (hpos : 1 ≤ s.firstBulkPage) (hn : 0 < n) (hfuel : 0 < fuel) :
    0 < nn' := by
  cases fuel with
  | zero => omega
  | succ fuel =>
    rw [freeRunDown, if_pos ⟨by simp [hfree], hbulk, hn⟩] at h
    have := freeRunDown_spec h hpos (by omega)
    omega

end Guk.PagePool
