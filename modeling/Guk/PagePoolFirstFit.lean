import Guk.PagePoolSearch

/-!
# First fit

The search of `_allocate_pages`, with the pages whose bits it tests.
-/
namespace Guk.PagePool

variable (s : Pool)

/-! ## The tested pages -/

def freeRunTested (endPage : Nat) : Nat → Nat → Nat → (Nat × Option Nat) × List Nat
  | 0, nn, _ => ((nn, none), [])
  | fuel + 1, nn, npage =>
    if 1 < nn ∧ npage < endPage then
      if !allocated s npage then
        let (r, tested) := freeRunTested endPage fuel (nn - 1) (npage + 1)
        (r, npage :: tested)
      else ((nn, some npage), [npage])
    else ((nn, none), [])

def searchTested (endPage n : Nat) : Nat → Nat → Option Nat × List Nat
  | 0, _ => (none, [])
  | fuel + 1, page =>
    if page < endPage then
      if !allocated s page then
        let ((nn, stop), run) := freeRunTested s endPage n n (page + 1)
        if nn = 1 then (some page, page :: run)
        else
          let (r, tested) := searchTested endPage n fuel (stop.getD page + 1)
          (r, page :: run ++ tested)
      else
        let (r, tested) := searchTested endPage n fuel (page + 1)
        (r, page :: tested)
    else (none, [])

variable {s} {endPage fuel n nn nn' page stop q p : Nat}

theorem freeRunTested_fst :
    (freeRunTested s endPage fuel nn page).1 = freeRun s endPage fuel nn page := by
  induction fuel generalizing nn page with
  | zero => rfl
  | succ fuel ih =>
    rw [freeRunTested, freeRun]
    split
    · split
      · exact ih
      · rfl
    · rfl

theorem searchTested_fst :
    (searchTested s endPage n fuel page).1 = searchLoop s endPage n fuel page := by
  induction fuel generalizing page with
  | zero => rfl
  | succ fuel ih =>
    rw [searchTested, searchLoop, ← freeRunTested_fst]
    split
    · split
      · simp only
        split
        · rfl
        · exact ih
      · exact ih
    · rfl

theorem freeRunTested_inside (hp : p ∈ (freeRunTested s endPage fuel nn page).2) :
    page ≤ p ∧ p < endPage := by
  induction fuel generalizing nn page with
  | zero => cases hp
  | succ fuel ih =>
    rw [freeRunTested] at hp
    split at hp
    case isFalse => cases hp
    case isTrue hloop =>
      split at hp
      · cases hp with
        | head => exact ⟨le_rfl, hloop.2⟩
        | tail _ hp =>
          have hrest := ih hp
          exact ⟨by omega, hrest.2⟩
      · rw [List.mem_singleton.mp hp]
        exact ⟨le_rfl, hloop.2⟩

theorem le_freeRun_stop (h : freeRun s endPage fuel nn (page + 1) = (nn', some stop)) :
    page ≤ stop := by
  have := (freeRun_some h).1
  omega

theorem searchTested_inside (hp : p ∈ (searchTested s endPage n fuel page).2) :
    page ≤ p ∧ p < endPage := by
  induction fuel generalizing page with
  | zero => cases hp
  | succ fuel ih =>
    rw [searchTested] at hp
    split at hp
    case isFalse => cases hp
    case isTrue hlt =>
      have hrun : (freeRunTested s endPage n n (page + 1)).1 = _ := freeRunTested_fst
      have hinside : ∀ p, p ∈ (freeRunTested s endPage n n (page + 1)).2 → page + 1 ≤ p ∧
          p < endPage :=
        fun p hp => freeRunTested_inside hp
      rcases htrace : freeRunTested s endPage n n (page + 1) with ⟨⟨nn, stop⟩, run⟩
      rw [htrace] at hrun hinside
      simp only [htrace] at hp
      have hfirst : page ≤ page ∧ page < endPage := ⟨le_rfl, hlt⟩
      have hmiddle : ∀ p, p ∈ run → page ≤ p ∧ p < endPage := by
        intro p hp
        have := hinside p hp
        omega
      split at hp
      · split at hp
        · cases hp with
          | head => exact hfirst
          | tail _ hp => exact hmiddle p hp
        · rcases List.mem_append.mp hp with hp | hp
          · cases hp with
            | head => exact hfirst
            | tail _ hp => exact hmiddle p hp
          · have hrest := ih hp
            refine ⟨?_, hrest.2⟩
            cases stop with
            | none => exact Nat.le_of_succ_le hrest.1
            | some stop =>
              have hstop := le_freeRun_stop hrun.symm
              simp only [Option.getD_some] at hrest
              omega
      · cases hp with
        | head => exact hfirst
        | tail _ hp =>
          have hrest := ih hp
          omega

/-! ## The first run -/

def Fits (s : Pool) (endPage n page p : Nat) : Prop := page ≤ p ∧ p + n ≤ endPage ∧ FreePages s p n

structure FirstFit (s : Pool) (endPage n page : Nat) (found : Option Nat) (tested : List Nat) :
    Prop where
  finds : found.isSome = true ↔ ∃ p, Fits s endPage n page p
  least : ∀ p, found = some p → Fits s endPage n page p ∧ ∀ q, Fits s endPage n page q → p ≤ q
  /-- an allocated page `stop` ends the run from `start` on: the scan goes on behind it -/
  skips : ∀ start nn stop, allocated s start = false →
    freeRun s endPage n n (start + 1) = (nn, some stop) →
    ∀ q, start ≤ q → q ≤ stop → ¬ FreePages s q n
  inside : ∀ p ∈ tested, page ≤ p ∧ p < endPage

/-- The search of `_allocate_pages` is first fit, for every bitmap, hint and region. -/
theorem search_first_fit (s : Pool) (endPage n page : Nat) (hn : 1 ≤ n) :
    (searchTested s endPage n (endPage - page) page).1 = searchLoop s endPage n (endPage - page)
      page ∧
      FirstFit s endPage n page (searchLoop s endPage n (endPage - page) page)
        (searchTested s endPage n (endPage - page) page).2 := by
  refine ⟨searchTested_fst, ?_⟩
  constructor
  · constructor
    · intro hsome
      obtain ⟨p, hp⟩ := Option.isSome_iff_exists.mp hsome
      obtain ⟨hle, -, hend, hfree⟩ := searchLoop_sound hp
      exact ⟨p, hle, hend, hfree⟩
    · rintro ⟨p, hle, hend, hfree⟩
      obtain ⟨q, hq, -⟩ := searchLoop_finds le_rfl hn hle hend hfree
      rw [hq]
      rfl
  · intro p hp
    obtain ⟨hle, -, hend, hfree⟩ := searchLoop_sound hp
    refine ⟨⟨hle, hend, hfree⟩, ?_⟩
    rintro q ⟨hq, hqend, hqfree⟩
    obtain ⟨p', hp', hle'⟩ := searchLoop_finds le_rfl hn hq hqend hqfree
    rw [hp] at hp'
    cases hp'
    exact hle'
  · intro start nn stop _ hrun q hle hstop
    exact freeRun_skips hrun hle hstop
  · intro p hp
    exact searchTested_inside hp

theorem search_first_fit_two_pages :
    ∃ s : Pool, searchLoop s 9 2 7 2 = some 5 ∧ (searchTested s 9 2 7 2).2 = [2, 3, 4, 5, 6] ∧
      FirstFit s 9 2 2 (searchLoop s 9 2 (9 - 2) 2) (searchTested s 9 2 (9 - 2) 2).2 := by
  refine ⟨{ initPageAllocator smallDomain with
    allocBitmap := fun _ => ~~~0#64 ^^^ 0b101101000#64 }, by decide +kernel, by decide +kernel, ?_⟩
  exact (search_first_fit _ 9 2 2 (by decide)).2

end Guk.PagePool
