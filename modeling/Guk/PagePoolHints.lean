import Guk.PagePoolCount

/-!
# The search hints of the page pool

`first_free_page` and `first_free_bulk_page` are never above a free page of their
region, so an allocation that finds nothing has looked at every run of free pages.
-/
namespace Guk.PagePool

open Bitmap Runs List

structure Hints (s : Pool) : Prop where
  small : ∀ p, s.firstAllocPage ≤ p → p < s.firstBulkPage → allocated s p = false →
    s.firstFreePage ≤ p
  bulk : ∀ p, s.firstBulkPage ≤ p → p < s.endAllocPage → allocated s p = false →
    s.firstFreeBulkPage ≤ p
  high : s.firstFreeBulkPage ≤ s.endAllocPage

structure NoRun (s : Pool) (n : Nat) : Prop where
  bulk : ∀ page, s.firstBulkPage ≤ page → page + n ≤ s.endAllocPage → ¬ FreePages s page n
  small : isBulk n = false → ∀ page, s.firstAllocPage ≤ page → page + n ≤ s.firstBulkPage →
    ¬ FreePages s page n

variable {s t u : Pool} {b : Bool} {page n p rc k fuel result : Nat} {hole new : Hole}
  {rest : List Hole} {xen : Xen} {P : Pool → Prop} {r : Option Nat}

/-! ## Changes -/

structure Hinted (s : Pool) : Prop where
  wf : Wf s
  fits : s.maxEndAllocPage < 2 ^ 31
  hints : Hints s

section

variable (h : Hinted s)

include h

theorem hinted_flag {f : Bool} : Hinted { s with inIncreaseMemory := f } :=
  ⟨wf_flag h.wf, h.fits, { h.hints with }⟩

theorem hinted_nextId : Hinted { s with nextId := k } :=
  ⟨wf_nextId h.wf, h.fits, { h.hints with }⟩

theorem hinted_take (hb : b = false → isBulk n = false)
    (hs : search s b n = some page) : Hinted (take s b page n) := by
  obtain ⟨hn, hfree, hlow, hend, hsmall, hbulk⟩ := h.wf.found hs
  have hmax := h.wf.end_le
  have hfits := h.fits
  have hle := h.wf.bulk_le
  obtain ⟨-, hhigh, hskip⟩ := nextFree_spec (by omega) hend
  have hstill : ∀ {p}, allocated (take s b page n) p = false →
      allocated s p = false ∧ ¬ (page ≤ p ∧ p < page + n) := by
    intro p hp
    rw [allocated_take, Bool.or_eq_false_iff, decide_eq_false_iff_not] at hp
    exact hp
  -- a free page behind the taken ones is not skipped
  have hnext : ∀ {p}, page + n ≤ p → allocated s p = false → nextFree s (page + n) ≤ p := by
    intro p hp hpf
    by_contra hlt
    rw [hskip p hp (by omega)] at hpf
    cases hpf
  refine ⟨wf_take h.wf h.fits hs hb, ?_, ⟨?_, ?_, ?_⟩⟩
  · rw [take_maxEndAllocPage]
    exact h.fits
  · rw [take_firstAllocPage, take_firstBulkPage, take_firstFreePage]
    intro p h₁ h₂ hp
    obtain ⟨hpf, hout⟩ := hstill hp
    have hhint := h.hints.small p h₁ h₂ hpf
    split
    case isTrue heq => exact hnext (by omega) hpf
    case isFalse => exact hhint
  · rw [take_firstBulkPage, take_endAllocPage, take_firstFreeBulkPage]
    intro p h₁ h₂ hp
    obtain ⟨hpf, hout⟩ := hstill hp
    have hhint := h.hints.bulk p h₁ h₂ hpf
    split
    case isTrue heq => exact hnext (by omega) hpf
    case isFalse => exact hhint
  · rw [take_endAllocPage, take_firstFreeBulkPage]
    split
    · exact hhigh
    · exact h.hints.high

theorem hinted_deallocate (hmem : (page, n) ∈ s.live)
    (habove : isBulk n = false → s.firstBulkPage ≤ page → s.firstFreeBulkPage ≤ page) :
    Hinted (giveBack s page n) := by
  obtain ⟨hn, hreg⟩ := h.wf.block (page, n) hmem
  simp only at hn hreg
  have hnew : ∀ {p}, allocated (giveBack s page n) p = false →
      allocated s p = false ∨ page ≤ p ∧ p < page + n := by
    intro p hp
    rw [allocated_deallocate, Bool.and_eq_false_iff, Bool.not_eq_false', decide_eq_true_iff] at hp
    exact hp
  refine ⟨wf_deallocate h.wf hmem, ?_, ⟨?_, ?_, ?_⟩⟩
  · rw [deallocate_maxEndAllocPage]
    exact h.fits
  · rw [deallocate_firstAllocPage, deallocate_firstBulkPage, deallocate_firstFreePage]
    intro p h₁ h₂ hp
    rcases hnew hp with hpf | hin
    · have hhint := h.hints.small p h₁ h₂ hpf
      split <;> omega
    · rcases hreg with hreg | hreg
      · rw [hreg.2.2]
        simp only [Bool.false_eq_true, if_false]
        omega
      · omega
  · rw [deallocate_firstBulkPage, deallocate_endAllocPage, deallocate_firstFreeBulkPage]
    intro p h₁ h₂ hp
    rcases hnew hp with hpf | hin
    · have hhint := h.hints.bulk p h₁ h₂ hpf
      split <;> omega
    · split
      case isTrue => omega
      case isFalse hb =>
        have := habove (Bool.eq_false_iff.mpr hb) (by omega)
        omega
  · rw [deallocate_endAllocPage, deallocate_firstFreeBulkPage]
    have := h.hints.high
    split <;> omega

theorem hinted_recordIncrease (hl : s.memoryHoleList = hole :: rest) (hrc : 0 < rc)
    (hle : rc ≤ hole.size) (habove : s.firstFreeBulkPage ≤ hole.startPfn) :
    Hinted (recordIncrease s hole hole.size rc) := by
  have hmem := hl ▸ mem_cons_self
  have hsz : rc ≤ hole.endPfn - hole.startPfn := hle
  have hlow := (h.wf.range hole hmem).1
  have hstart := h.wf.head_le hl
  have hhigh := h.hints.high
  have hnew : ∀ {p}, allocated (recordIncrease s hole hole.size rc) p = false →
      allocated s p = false ∨ hole.startPfn ≤ p ∧ p < hole.startPfn + rc := by
    intro p hp
    rw [allocated_recordIncrease, Bool.and_eq_false_iff, Bool.not_eq_false',
      decide_eq_true_iff] at hp
    exact hp
  refine ⟨wf_recordIncrease h.wf hl hrc hle, h.fits, ⟨?_, ?_, ?_⟩⟩
  · intro p h₁ h₂ hp
    rcases hnew hp with hpf | hin
    · exact h.hints.small p h₁ h₂ hpf
    · have : p < s.firstBulkPage := h₂
      omega
  · rw [recordIncrease_endAllocPage]
    intro p h₁ h₂ hp
    change s.firstFreeBulkPage ≤ p
    rcases hnew hp with hpf | hin
    · by_cases hlt : p < s.endAllocPage
      · exact h.hints.bulk p h₁ hlt hpf
      · omega
    · omega
  · rw [recordIncrease_endAllocPage]
    change s.firstFreeBulkPage ≤ _
    omega

theorem hinted_recordDecrease (hf : FreeHole s new) : Hinted (recordDecrease s new) := by
  have hpos := hf.pos
  have hhigh := hf.high
  have hend := hf.end_eq
  have hstill : ∀ {p}, allocated (recordDecrease s new) p = false → allocated s p = false := by
    intro p hp
    rw [allocated_recordDecrease, Bool.or_eq_false_iff] at hp
    exact hp.1
  have hle : (recordDecrease s new).endAllocPage ≤ s.endAllocPage := by
    rw [hf.endAllocPage]
    split <;> omega
  refine ⟨wf_recordDecrease h.wf hf, h.fits, ⟨?_, ?_, ?_⟩⟩
  · exact fun p h₁ h₂ hp => h.hints.small p h₁ h₂ (hstill hp)
  · exact fun p h₁ h₂ hp => h.hints.bulk p h₁ (lt_of_lt_of_le h₂ hle) (hstill hp)
  · have h₁ := h.hints.bulk new.startPfn hf.low (by omega)
      (hf.free new.startPfn le_rfl (by omega))
    have h₂ := h.hints.high
    rw [hf.endAllocPage]
    change s.firstFreeBulkPage ≤ _
    split <;> omega

end

/-! ## Increasing the memory -/

def TopHoles (s : Pool) : Prop :=
  ∀ h ∈ s.memoryHoleList, h.startPfn < h.endPfn → s.endAllocPage ≤ h.startPfn

def HolesAboveHint (s : Pool) : Prop :=
  ∀ h ∈ s.memoryHoleList, h.startPfn < h.endPfn → s.firstFreeBulkPage ≤ h.startPfn

def Refill (s : Pool) (xen : Xen) : Prop :=
  TopHoles s ∨ HolesAboveHint s ∧ ∀ k, (xen k).frames = 0

theorem kept_topHoles : Kept (fun s => Hinted s ∧ TopHoles s) xen := by
  refine ⟨fun s f h => ⟨hinted_flag h.1, h.2⟩, ?_, ?_⟩
  · intro k s h
    apply allocateFrames_rule (P := fun s => Hinted s ∧ TopHoles s)
      (fun s f h => ⟨hinted_flag h.1, h.2⟩) _ h
    intro s b page h hs
    refine ⟨hinted_take h.1 (fun _ => rfl) hs, ?_⟩
    simp only [TopHoles, take_memoryHoleList, take_endAllocPage]
    exact h.2
  · intro s hole rest rc ⟨h, htop⟩ hl hrc hle
    have hmem := hl ▸ mem_cons_self
    have hsz : rc ≤ hole.endPfn - hole.startPfn := hle
    have hstart := htop hole hmem (by omega)
    have hhead := h.wf.head_le hl
    have hhigh := h.hints.high
    have hsorted := h.wf.sorted
    rw [hl] at hsorted
    refine ⟨hinted_recordIncrease h hl hrc hle (by omega), ?_⟩
    intro h' hh' hne
    rw [recordIncrease_endAllocPage]
    rcases mem_recordIncrease h.wf hl hrc hle hh' with ⟨rfl, -⟩ | hrest
    · change _ ≤ hole.startPfn + rc
      omega
    · have := (List.pairwise_cons.mp hsorted).1 h' hrest
      omega

theorem kept_holesAboveHint (hxen : ∀ k, (xen k).frames = 0) :
    Kept (fun s => Hinted s ∧ HolesAboveHint s) xen := by
  refine ⟨fun s f h => ⟨hinted_flag h.1, h.2⟩, ?_, ?_⟩
  · intro k s h
    rw [hxen k]
    exact h
  · intro s hole rest rc ⟨h, habove⟩ hl hrc hle
    have hmem := hl ▸ mem_cons_self
    have hsz : rc ≤ hole.endPfn - hole.startPfn := hle
    have hstart := habove hole hmem (by omega)
    refine ⟨hinted_recordIncrease h hl hrc hle hstart, ?_⟩
    intro h' hh' hne
    change s.firstFreeBulkPage ≤ h'.startPfn
    rcases mem_recordIncrease h.wf hl hrc hle hh' with ⟨rfl, -⟩ | hrest
    · change _ ≤ hole.startPfn + rc
      omega
    · exact habove h' (hl ▸ mem_cons_of_mem _ hrest) hne

theorem Refill.kept (h : Hinted s) (hr : Refill s xen) :
    ∃ P : Pool → Prop, P s ∧ Kept P xen ∧ ∀ s, P s → Hinted s := by
  rcases hr with htop | ⟨habove, hxen⟩
  · exact ⟨_, ⟨h, htop⟩, kept_topHoles, fun _ h => h.1⟩
  · exact ⟨_, ⟨h, habove⟩, kept_holesAboveHint hxen, fun _ h => h.1⟩

/-! ## An allocation that fails -/

theorem increaseLoop_result : result ≤ (increaseLoop fuel s n result xen).2.1 := by
  induction fuel generalizing s n result xen with
  | zero => exact le_rfl
  | succ fuel ih =>
    by_cases hn : n = 0
    · apply le_of_eq
      rw [increaseLoop_stop (.inl hn)]
    · cases hl : s.memoryHoleList with
      | nil =>
        apply le_of_eq
        rw [increaseLoop_stop (.inr hl)]
      | cons hole rest =>
        rw [increaseLoop_cons hn hl]
        split
        · exact le_rfl
        · exact le_trans (Nat.le_add_right result _) ih

theorem increaseLoop_zero (hframes : ∀ k s, P s → P (allocateFrames s k).1) (h : P s)
    (hzero : (increaseLoop fuel s n 0 xen).2.1 = 0) : P (increaseLoop fuel s n 0 xen).1 := by
  cases fuel with
  | zero => exact h
  | succ fuel =>
    by_cases hn : n = 0
    · rw [increaseLoop_stop (.inl hn)]
      exact h
    · cases hl : s.memoryHoleList with
      | nil =>
        rw [increaseLoop_stop (.inr hl)]
        exact h
      | cons hole rest =>
        rw [increaseLoop_cons hn hl] at hzero ⊢
        split
        case isTrue => exact increaseReservation_frames (hframes _ s h) h
        case isFalse hrc =>
          rw [if_neg hrc] at hzero
          have hge := le_trans increaseLoop_result (le_of_eq hzero)
          omega

theorem increaseMemory_zero (hflag : ∀ s f, P s → P { s with inIncreaseMemory := f })
    (hframes : ∀ k s, P s → P (allocateFrames s k).1) (h : P s)
    (hzero : (increaseMemory s n xen).2.1 = 0) : P (increaseMemory s n xen).1 := by
  unfold increaseMemory at hzero ⊢
  by_cases hin : s.inIncreaseMemory = true
  · rw [if_pos hin]
    exact hflag s false h
  · rw [if_neg hin] at hzero ⊢
    apply hflag
    by_cases hcan : canIncrease s.memoryHoleList n ≠ 0
    · simp only [if_pos hcan] at hzero ⊢
      exact increaseLoop_zero hframes (hflag s true h) hzero
    · simp only [if_neg hcan]
      exact hflag s true h

theorem allocateLoop_none (hk : Kept P xen) (h : P s)
    (hr : allocateLoop n fuel s true xen = some (t, none)) :
    ∃ u xen', P u ∧ search u true n = none ∧ (increaseMemory u n xen').1 = t ∧
      (increaseMemory u n xen').2.1 = 0 := by
  induction fuel generalizing s xen with
  | zero => cases hr
  | succ fuel ih =>
    obtain ⟨hP, hk'⟩ := hk.increaseMemory (n := n) h
    cases allocateLoop_round hr with
    | found _ _ _ hsome => cases hsome
    | bulk _ hfalse => cases hfalse
    | refused hs _ xen' hinc =>
      refine ⟨s, xen, h, hs, ?_, ?_⟩
      · rw [hinc]
      · rw [hinc]
    | gained _ _ u result xen' hinc _ hrest =>
      rw [hinc] at hP hk'
      exact ih hk' hP hrest

structure Fuller (s t : Pool) : Prop where
  set : ∀ p, allocated s p = true → allocated t p = true
  ends : t.endAllocPage = s.endAllocPage
  alloc : t.firstAllocPage = s.firstAllocPage
  bulk : t.firstBulkPage = s.firstBulkPage

theorem fuller_take (h : Fuller s t) : Fuller s (take t b page n) := by
  have hset : ∀ p, allocated s p = true → allocated (take t b page n) p = true := by
    intro p hp
    rw [allocated_take, h.set p hp, Bool.true_or]
  cases b <;> exact { h with set := hset }

theorem fuller_increaseMemory (hzero : (increaseMemory s n xen).2.1 = 0) :
    Fuller s (increaseMemory s n xen).1 := by
  apply increaseMemory_zero _ _ ⟨fun _ h => h, rfl, rfl, rfl⟩ hzero
  · exact fun _ _ h => { h with }
  · intro k t h
    exact allocateFrames_rule (fun _ _ h => { h with }) (fun _ _ _ h _ => fuller_take h) h

structure SmallFuller (s t : Pool) : Prop where
  set : ∀ p, p < s.firstBulkPage → allocated s p = true → allocated t p = true
  alloc : t.firstAllocPage = s.firstAllocPage
  bulk : t.firstBulkPage = s.firstBulkPage

theorem smallFuller_take (h : SmallFuller s t) : SmallFuller s (take t b page n) := by
  constructor
  · intro p hlt hp
    rw [allocated_take, h.set p hlt hp, Bool.true_or]
  · rw [take_firstAllocPage]
    exact h.alloc
  · rw [take_firstBulkPage]
    exact h.bulk

theorem Kept.smallFuller (hk : Kept P xen) (hP : ∀ s, P s → Hinted s) :
    Kept (fun t => P t ∧ SmallFuller s t) xen := by
  have hflag : ∀ (t : Pool) (f : Bool), SmallFuller s t →
      SmallFuller s { t with inIncreaseMemory := f } :=
    fun _ _ h => { h with }
  refine ⟨fun t f h => ⟨hk.flag t f h.1, hflag t f h.2⟩, ?_, ?_⟩
  · intro k t h
    exact ⟨hk.frames k t h.1, allocateFrames_rule hflag (fun _ _ _ h _ => smallFuller_take h) h.2⟩
  · intro t hole rest rc ⟨hPt, h⟩ hl hrc hle
    have hlow := ((hP t hPt).wf.range hole (hl ▸ mem_cons_self)).1
    refine ⟨hk.grow t hole rest rc hPt hl hrc hle, ?_, h.alloc, h.bulk⟩
    intro p hlt hp
    have hbulk := h.bulk
    rw [allocated_recordIncrease, h.set p hlt hp, decide_eq_false (by omega)]
    rfl

theorem noRun_of_fail (h : Hinted s) (hrefill : Refill s xen) (hn : 1 ≤ n)
    (hr : allocatePages s n xen = some (t, none)) : NoRun t n := by
  obtain ⟨P, hPs, hk, hP⟩ := hrefill.kept h
  have hself : SmallFuller s s := ⟨fun _ _ h => h, rfl, rfl⟩
  -- the search of the small region, if there is one, comes first
  obtain ⟨fuel, hsmall, hr⟩ : ∃ fuel, (isBulk n = false → search s false n = none) ∧
      allocateLoop n fuel s true xen = some (t, none) := by
    unfold allocatePages at hr
    cases hbulk : isBulk n with
    | true =>
      rw [hbulk] at hr
      exact ⟨_, nofun, hr⟩
    | false =>
      rw [hbulk] at hr
      cases allocateLoop_round hr with
      | found _ _ _ hsome => cases hsome
      | bulk hs _ hrest => exact ⟨_, fun _ => hs, hrest⟩
      | refused _ htrue | gained _ htrue => cases htrue
  obtain ⟨u, xen', ⟨hPu, hfull⟩, hsearch, rfl, hzero⟩ :=
    allocateLoop_none (hk.smallFuller hP) ⟨hPs, hself⟩ hr
  have hu := hP u hPu
  have hlast := fuller_increaseMemory hzero
  constructor
  · intro page hle hend hfree
    rw [hlast.bulk] at hle
    rw [hlast.ends] at hend
    have hfreeu : FreePages u page n := by
      intro p h₁ h₂
      by_contra hset
      have := hlast.set p (Bool.ne_false_iff.mp hset)
      rw [hfree p h₁ h₂] at this
      cases this
    have hhint := hu.hints.bulk page hle (by omega) (hfreeu page le_rfl (by omega))
    exact search_complete hsearch hn hhint hend hfreeu
  · intro hb page hle hend hfree
    rw [hlast.bulk, hfull.bulk] at hend
    have halloc : (increaseMemory u n xen').1.firstAllocPage = s.firstAllocPage := by
      rw [hlast.alloc, hfull.alloc]
    rw [halloc] at hle
    have hfrees : FreePages s page n := by
      intro p h₁ h₂
      by_contra hset
      have := hlast.set p (hfull.set p (by omega) (Bool.ne_false_iff.mp hset))
      rw [hfree p h₁ h₂] at this
      cases this
    have hhint := h.hints.small page hle (by omega) (hfrees page le_rfl (by omega))
    exact search_complete (hsmall hb) hn hhint hend hfrees

/-! ## Runs -/

def Found (s : Pool) (n : Nat) : Prop :=
  isBulk n = false ∧ (∃ page, search s false n = some page) ∨ ∃ page, search s true n = some page

theorem allocatePages_found (xen : Xen) (hf : Found s n) :
    ∃ b page, (b = false → isBulk n = false) ∧ search s b n = some page ∧
      allocatePages s n xen = some (take s b page n, some page) := by
  unfold allocatePages
  cases hbulk : isBulk n with
  | true =>
    obtain ⟨page, hs⟩ := hf.resolve_left fun h => by
      rw [hbulk] at h
      cases h.1
    refine ⟨true, page, nofun, hs, ?_⟩
    rw [allocateLoop]
    simp only [hs]
  | false =>
    cases hsmall : search s false n with
    | some page =>
      refine ⟨false, page, fun _ => rfl, hsmall, ?_⟩
      rw [allocateLoop]
      simp only [hsmall]
    | none =>
      obtain ⟨page, hs⟩ := hf.resolve_left fun h => by
        obtain ⟨page, hs⟩ := h.2
        rw [hsmall] at hs
        cases hs
      refine ⟨true, page, nofun, hs, ?_⟩
      rw [allocateLoop]
      simp only [hsmall, Bool.not_false, if_true]
      rw [allocateLoop]
      simp only [hs]

def hintedStep (s : Sys) (l : Label) : Prop :=
  (s.pool.maxEndAllocPage < 2 ^ 31 ∧ BITS_PER_PAGE ∣ s.pool.maxEndAllocPage) ∧
    match l with
    | .allocate n xen => Found s.pool n ∨ Refill s.pool xen
    | .increase _ xen => Refill s.pool xen
    | .deallocate page n =>
      isBulk n = false → s.pool.firstBulkPage ≤ page → s.pool.firstFreeBulkPage ≤ page
    | .round newPage _ => RoomForRecord s.pool newPage
    | _ => True

theorem hints_initPageAllocator (c : Config) : Hints (initPageAllocator c) :=
  ⟨fun _ h _ _ => h, fun _ h _ _ => h, (initPageAllocator_bulk c).2⟩

theorem closed_hinted : Closed Hinted where
  wf _ h := h.wf
  flag _ _ h := hinted_flag h
  nextId _ _ h := hinted_nextId h
  take _ _ _ _ h hb hs := hinted_take h hb hs
  shrink _ _ h hf := hinted_recordDecrease h hf
  free _ _ h hmem hlt := hinted_deallocate h hmem fun _ hle => by omega
  hole _ _ h hl := ⟨wf_initial_hole h.wf hl, h.fits, { h.hints with }⟩

theorem hinted_step {s t : Sys} {l : Label} (h : Holds (fun s => Wf s ∧ Hints s) s)
    (hok : hintedStep s l) (hstep : step s l = some t) : Holds (fun s => Wf s ∧ Hints s) t := by
  have hh : Holds Hinted s := ⟨⟨h.pool.1, hok.1.1, h.pool.2⟩, h.page⟩
  have hnext : Holds Hinted t := by
    apply closed_hinted.step hh hstep
    · rintro n xen u r rfl hr
      rcases hok.2 with hfound | hrefill
      · obtain ⟨b, page, hb, hs, heq⟩ := allocatePages_found xen hfound
        rw [heq] at hr
        cases hr
        exact hinted_take hh.pool hb hs
      · obtain ⟨P, hPs, hk, hP⟩ := hrefill.kept hh.pool
        exact allocatePages_rule hk (fun s _ _ h hb hs => hinted_take (hP s h) hb hs) hP hPs hr
    · rintro page n rfl hmem
      exact hinted_deallocate hh.pool hmem hok.2
    · rintro n xen rfl
      obtain ⟨P, hPs, hk, hP⟩ := hok.2.kept hh.pool
      exact hP _ (hk.increaseMemory hPs).1
    · rintro newPage xen rfl
      exact hok.2
  exact ⟨⟨hnext.pool.wf, hnext.pool.hints⟩, hnext.page⟩

/-- In every run whose steps meet the condition the hints are right, and an allocation that meets
it fails only if there is no run of free pages. -/
theorem no_page_lost (s : Sys) (h : Reach step hintedStep Initial s) :
    Hints s.pool ∧ ∀ n xen t, 1 ≤ n → hintedStep s (.allocate n xen) →
      allocatePages s.pool n xen = some (t, none) → NoRun t n := by
  have hinv : Holds (fun s => Wf s ∧ Hints s) s := by
    apply h.invariant
    · rintro s ⟨c, rfl⟩
      exact holds_idle ⟨wf_initPageAllocator c, hints_initPageAllocator c⟩ rfl
    · intro s l t hinv hok hstep
      exact hinted_step hinv hok hstep
  refine ⟨hinv.pool.2, ?_⟩
  intro n xen t hn hok hr
  rcases hok.2 with hfound | hrefill
  · obtain ⟨b, page, -, -, heq⟩ := allocatePages_found xen hfound
    rw [heq] at hr
    cases hr
  · exact noRun_of_fail ⟨hinv.pool.1, hok.1.1, hinv.pool.2⟩ hrefill hn hr

theorem no_page_lost_too_large :
    ∃ s t, step ⟨initPageAllocator smallDomain, none⟩ (.allocate 1 noMemory) = some s ∧
      allocatePages s.pool 700 noMemory = some (t, none) ∧ NoRun t 700 := by
  have heval : (step ⟨initPageAllocator smallDomain, none⟩ (.allocate 1 noMemory)).map (fun s =>
      (s.pool.memoryHoleList, s.pool.maxEndAllocPage,
        (allocatePages s.pool 700 noMemory).map Prod.snd)) = some ([], 32768, some none) := by
    decide +kernel
  obtain ⟨s, hs, hfacts⟩ := Option.map_eq_some_iff.mp heval
  simp only [Prod.mk.injEq] at hfacts
  obtain ⟨hholes, hmax, hfail⟩ := hfacts
  obtain ⟨⟨t, r⟩, hr, rfl⟩ := Option.map_eq_some_iff.mp hfail
  have hstart : Reach step hintedStep Initial ⟨initPageAllocator smallDomain, none⟩ :=
    .start ⟨smallDomain, rfl⟩
  have hreach : Reach step hintedStep Initial s :=
    .next (.allocate 1 noMemory) hstart
      ⟨by decide, .inr (.inl fun h hmem => absurd hmem not_mem_nil)⟩ hs
  have hok : hintedStep s (.allocate 700 noMemory) := by
    refine ⟨by rw [hmax]; decide, .inr (.inl ?_)⟩
    intro h hmem
    rw [hholes] at hmem
    cases hmem
  exact ⟨s, t, hs, hr, (no_page_lost s hreach).2 700 noMemory t (by decide) hok hr⟩

/-- After the five pages are given back there are eleven free pages in the bulk region, and a
request for eleven pages fails. -/
theorem page_lost :
    ¬ ∀ s, Reach step anyStep Initial s → s.decreasing = none → ∀ n xen t, 1 ≤ n →
      allocatePages s.pool n xen = some (t, none) → NoRun t n := by
  intro hall
  have heval : (run step ⟨initPageAllocator smallDomain, none⟩ spill).map (fun s => (s.decreasing,
      (allocatePages s.pool 11 noMemory).map fun r => (r.2, r.1.firstBulkPage, r.1.endAllocPage,
        clearBits r.1 659 670))) = some (none, some (none, 659, 670, 11)) := by decide +kernel
  obtain ⟨s, hrun, hs⟩ := Option.map_eq_some_iff.mp heval
  simp only [Prod.mk.injEq] at hs
  obtain ⟨⟨t, r⟩, hr, hfacts⟩ := Option.map_eq_some_iff.mp hs.2
  simp only [Prod.mk.injEq] at hfacts
  obtain ⟨rfl, hbulk, hend, hclear⟩ := hfacts
  have hreach : Reach step anyStep Initial s := Reach.run (.start ⟨smallDomain, rfl⟩) spill hrun
  have hno := (hall s hreach hs.1 11 noMemory t (by decide) hr).bulk 659 (by omega) (by omega)
  apply hno
  intro p h₁ h₂
  have hall' := List.countP_eq_length.mp (hclear.trans length_range'.symm)
  simpa using hall' p (mem_range'_1.mpr ⟨h₁, h₂⟩)

end Guk.PagePool
