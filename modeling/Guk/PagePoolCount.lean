import Guk.PagePoolRules

/-!
# The counters of the page pool

`num_free_pages` and `num_free_bulk_pages` count clear bits of the bitmap, as long as
pages are given back in the class of the region they lie in.
-/
namespace Guk.PagePool

open Bitmap Runs List

/-! ## Counting -/

def countIn (f : Nat → Bool) (lo hi : Nat) : Nat := (List.range' lo (hi - lo)).countP f

section Counting

variable {f g : Nat → Bool} {lo mid hi a n : Nat}

theorem countIn_le : countIn f lo hi ≤ hi - lo := by
  have := countP_le_length (p := f) (l := List.range' lo (hi - lo))
  rwa [length_range'] at this

theorem countIn_split (h₁ : lo ≤ mid) (h₂ : mid ≤ hi) :
    countIn f lo hi = countIn f lo mid + countIn f mid hi := by
  have hmid : mid = lo + (mid - lo) := by omega
  have hsum : hi - lo = mid - lo + (hi - mid) := by omega
  rw [countIn, countIn, countIn, hsum, ← range'_append_1, countP_append, ← hmid]

theorem countIn_congr (h : ∀ p, lo ≤ p → p < hi → g p = f p) :
    countIn g lo hi = countIn f lo hi := by
  apply countP_congr
  intro p hp
  rw [mem_range'_1] at hp
  rw [h p hp.1 (by omega)]

theorem countIn_all (h : ∀ p, lo ≤ p → p < hi → f p = true) : countIn f lo hi = hi - lo := by
  rw [countIn, List.countP_eq_length.mpr, length_range']
  intro p hp
  rw [mem_range'_1] at hp
  exact h p hp.1 (by omega)

theorem countIn_none (h : ∀ p, lo ≤ p → p < hi → f p = false) : countIn f lo hi = 0 := by
  rw [countIn, countP_eq_zero]
  intro p hp
  rw [mem_range'_1] at hp
  rw [h p hp.1 (by omega)]
  exact Bool.false_ne_true

theorem countIn_change (hlo : lo ≤ a) (hhi : a + n ≤ hi) (hf : ∀ p, a ≤ p → p < a + n → f p = true)
    (hg : ∀ p, a ≤ p → p < a + n → g p = false)
    (hsame : ∀ p, ¬ (a ≤ p ∧ p < a + n) → g p = f p) : countIn g lo hi + n = countIn f lo hi := by
  have hbelow : countIn g lo a = countIn f lo a := countIn_congr fun p _ _ => hsame p (by omega)
  have habove : countIn g (a + n) hi = countIn f (a + n) hi :=
    countIn_congr fun p _ _ => hsame p (by omega)
  rw [countIn_split hlo (by omega : a ≤ hi), countIn_split (by omega : a ≤ a + n) hhi,
    countIn_split (f := f) hlo (by omega : a ≤ hi),
      countIn_split (f := f) (by omega : a ≤ a + n) hhi,
    countIn_none hg, countIn_all hf, hbelow, habove]
  omega

end Counting

def clearBits (s : Pool) (lo hi : Nat) : Nat := countIn (fun p => !allocated s p) lo hi

structure Counted (s : Pool) : Prop where
  pages : s.numFreePages = clearBits s s.firstAllocPage s.endAllocPage
  bulk : s.numFreeBulkPages = clearBits s s.firstBulkPage s.endAllocPage

variable {s t : Pool} {b : Bool} {page n p rc lo hi : Nat} {hole new : Hole} {rest : List Hole}

theorem clearBits_split {mid : Nat} (h₁ : lo ≤ mid) (h₂ : mid ≤ hi) :
    clearBits s lo hi = clearBits s lo mid + clearBits s mid hi :=
  countIn_split h₁ h₂

theorem clearBits_of_free (h : ∀ p, lo ≤ p → p < hi → allocated s p = false) :
    clearBits s lo hi = hi - lo := by
  apply countIn_all
  intro p h₁ h₂
  rw [h p h₁ h₂]
  rfl

theorem clearBits_eq_zero : clearBits s lo hi = 0 ↔ ∀ p, lo ≤ p → p < hi →
    allocated s p = true := by
  constructor
  · intro h p h₁ h₂
    simpa using List.countP_eq_zero.mp h p (mem_range'_1.mpr ⟨h₁, by omega⟩)
  · intro h
    apply countIn_none
    intro p h₁ h₂
    rw [h p h₁ h₂]
    rfl

/-! ## Changes -/

theorem clearBits_take (hlo : lo ≤ page) (hhi : page + n ≤ hi) (hfree : FreePages s page n) :
    clearBits (take s b page n) lo hi + n = clearBits s lo hi := by
  apply countIn_change hlo hhi
  · intro p h₁ h₂
    rw [hfree p h₁ h₂]
    rfl
  · intro p h₁ h₂
    rw [allocated_take, decide_eq_true ⟨h₁, h₂⟩, Bool.or_true]
    rfl
  · intro p hp
    rw [allocated_take, decide_eq_false hp, Bool.or_false]

theorem clearBits_take_of_below (h : page + n ≤ lo) :
    clearBits (take s b page n) lo hi = clearBits s lo hi := by
  apply countIn_congr
  intro p h₁ _
  rw [allocated_take, decide_eq_false (by omega), Bool.or_false]

theorem clearBits_deallocate (hlo : lo ≤ page) (hhi : page + n ≤ hi)
    (hset : ∀ p, page ≤ p → p < page + n → allocated s p = true) :
    clearBits (giveBack s page n) lo hi = clearBits s lo hi + n := by
  symm
  apply countIn_change hlo hhi
  · intro p h₁ h₂
    rw [allocated_deallocate, decide_eq_true ⟨h₁, h₂⟩, Bool.not_true, Bool.and_false]
    rfl
  · intro p h₁ h₂
    rw [hset p h₁ h₂]
    rfl
  · intro p hp
    rw [allocated_deallocate, decide_eq_false hp, Bool.not_false, Bool.and_true]

theorem clearBits_deallocate_of_below (h : page + n ≤ lo) :
    clearBits (giveBack s page n) lo hi = clearBits s lo hi := by
  apply countIn_congr
  intro p h₁ _
  rw [allocated_deallocate, decide_eq_false (by omega), Bool.not_false, Bool.and_true]

theorem clearBits_recordIncrease (hwf : Wf s) (hl : s.memoryHoleList = hole :: rest) (hrc : 0 < rc)
    (hle : rc ≤ hole.size) (hlo : lo ≤ hole.startPfn) :
    clearBits (recordIncrease s hole hole.size rc) lo
      (recordIncrease s hole hole.size rc).endAllocPage =
      clearBits s lo s.endAllocPage + rc := by
  have hmem := hl ▸ mem_cons_self
  have hsz : rc ≤ hole.endPfn - hole.startPfn := hle
  have hstart := hwf.head_le hl
  have hin : ∀ p, hole.startPfn ≤ p → p < hole.startPfn + rc →
      (!allocated (recordIncrease s hole hole.size rc) p) = true := by
    intro p h₁ h₂
    rw [allocated_recordIncrease, decide_eq_true ⟨h₁, h₂⟩, Bool.not_true, Bool.and_false]
    rfl
  have hout : ∀ p, ¬ (hole.startPfn ≤ p ∧ p < hole.startPfn + rc) →
      (!allocated (recordIncrease s hole hole.size rc) p) = !allocated s p := by
    intro p hp
    rw [allocated_recordIncrease, decide_eq_false hp, Bool.not_false, Bool.and_true]
  rw [recordIncrease_endAllocPage]
  by_cases hlt : hole.startPfn < s.endAllocPage
  · have hside := hwf.holeSide hole hmem hlt
    rw [Nat.max_eq_left (by omega)]
    symm
    apply countIn_change hlo (by omega) hin
    · intro p h₁ h₂
      rw [hwf.holeSet hole hmem p ⟨h₁, by omega⟩ (by omega)]
      rfl
    · exact fun p hp => (hout p hp).symm
  · have heq : hole.startPfn = s.endAllocPage := by omega
    rw [Nat.max_eq_right (by omega), clearBits, countIn_split hlo (Nat.le_add_right _ rc),
      countIn_all hin, heq, countIn_congr (fun p h₁ h₂ => hout p (by omega))]
    simp only [clearBits]
    omega

theorem clearBits_recordDecrease (hf : FreeHole s new) (hlo : lo ≤ new.startPfn) :
    clearBits (recordDecrease s new) lo (recordDecrease s new).endAllocPage + new.size =
      clearBits s lo s.endAllocPage := by
  have hend := hf.end_eq
  have hhigh := hf.high
  have hfree : ∀ p, new.startPfn ≤ p → p < new.startPfn + new.size → (!allocated s p) = true := by
    intro p h₁ h₂
    rw [hf.free p h₁ h₂]
    rfl
  have hout : ∀ p, ¬ (new.startPfn ≤ p ∧ p < new.startPfn + new.size) →
      (!allocated (recordDecrease s new) p) = !allocated s p := by
    intro p hp
    rw [allocated_recordDecrease, decide_eq_false hp, Bool.or_false]
  rw [hf.endAllocPage]
  split
  case isTrue heq =>
    have hsum : new.startPfn + new.size = s.endAllocPage := by omega
    rw [clearBits, clearBits, countIn_split (f := fun p => !allocated s p) hlo (by omega),
      ← hsum, countIn_all hfree, countIn_congr (fun p h₁ h₂ => hout p (by omega))]
    omega
  case isFalse =>
    apply countIn_change hlo (by omega) hfree
    · intro p h₁ h₂
      rw [allocated_recordDecrease, decide_eq_true ⟨h₁, h₂⟩, Bool.or_true]
      rfl
    · exact hout

theorem clearBits_lt (lo : Nat) (hwf : Wf s) (hmax : s.maxEndAllocPage < 2 ^ 31) :
    clearBits s lo s.endAllocPage < 2 ^ 31 := by
  have hle : clearBits s lo s.endAllocPage ≤ s.endAllocPage - lo := countIn_le
  have hend := hwf.end_le
  omega

structure Accounted (s : Pool) : Prop where
  wf : Wf s
  fits : s.maxEndAllocPage < 2 ^ 31
  counted : Counted s

theorem accounted_take (h : Accounted s) (hb : b = false → isBulk n = false)
    (hs : search s b n = some page) : Accounted (take s b page n) := by
  obtain ⟨hn, hfree, hlow, hend, hsmall, hbulk⟩ := h.wf.found hs
  have hlt₁ := clearBits_lt s.firstAllocPage h.wf h.fits
  have hlt₂ := clearBits_lt s.firstBulkPage h.wf h.fits
  refine ⟨wf_take h.wf h.fits hs hb, ?_, ⟨?_, ?_⟩⟩
  · rw [take_maxEndAllocPage]
    exact h.fits
  · have hcount := clearBits_take (b := b) hlow hend hfree
    rw [take_numFreePages, take_firstAllocPage, take_endAllocPage, h.counted.pages,
      sub64_eq (by omega) (by omega)]
    omega
  · rw [take_numFreeBulkPages, take_firstBulkPage, take_endAllocPage, h.counted.bulk]
    cases b with
    | false =>
      rw [clearBits_take_of_below (hsmall rfl)]
      rfl
    | true =>
      have hcount := clearBits_take (b := true) (hbulk rfl) hend hfree
      rw [if_pos rfl, sub64_eq (by omega) (by omega)]
      omega

theorem accounted_deallocate (h : Accounted s) (hmem : (page, n) ∈ s.live)
    (hclass : isBulk n = true ↔ s.firstBulkPage ≤ page) : Accounted (giveBack s page n) := by
  obtain ⟨hn, hreg⟩ := h.wf.block (page, n) hmem
  have hend := h.wf.block_end hmem
  have halloc := h.wf.alloc_le
  have hbulk := h.wf.bulk_le
  have hset := h.wf.blockSet (page, n) hmem
  have hwf := wf_deallocate h.wf hmem
  have hfits : (giveBack s page n).maxEndAllocPage < 2 ^ 31 := by
    rw [deallocate_maxEndAllocPage]
    exact h.fits
  have hlt₁ := clearBits_lt s.firstAllocPage hwf hfits
  have hlt₂ := clearBits_lt s.firstBulkPage hwf hfits
  rw [deallocate_endAllocPage] at hlt₁ hlt₂
  simp only at hn hreg hend hset
  refine ⟨hwf, hfits, ⟨?_, ?_⟩⟩
  · rw [clearBits_deallocate (by omega) hend hset] at hlt₁
    rw [deallocate_numFreePages, deallocate_firstAllocPage, deallocate_endAllocPage,
      h.counted.pages, clearBits_deallocate (by omega) hend hset, add64_eq (by omega)]
  · rw [deallocate_numFreeBulkPages, deallocate_firstBulkPage, deallocate_endAllocPage,
      h.counted.bulk]
    split
    case isTrue hb =>
      have hle := hclass.mp hb
      rw [clearBits_deallocate hle hend hset] at hlt₂
      rw [clearBits_deallocate hle hend hset, add64_eq (by omega)]
    case isFalse hb =>
      have hlt := not_le.mp fun hle => hb (hclass.mpr hle)
      rw [clearBits_deallocate_of_below (by omega)]

theorem accounted_recordIncrease (h : Accounted s) (hl : s.memoryHoleList = hole :: rest)
    (hrc : 0 < rc) (hle : rc ≤ hole.size) : Accounted (recordIncrease s hole hole.size rc) := by
  have hmem := hl ▸ mem_cons_self
  have hlow := (h.wf.range hole hmem).1
  have halloc := h.wf.alloc_le
  have hwf := wf_recordIncrease h.wf hl hrc hle
  have h₁ := clearBits_recordIncrease h.wf hl hrc hle (by omega : s.firstAllocPage ≤ hole.startPfn)
  have h₂ := clearBits_recordIncrease h.wf hl hrc hle hlow
  have hlt₁ := clearBits_lt s.firstAllocPage hwf h.fits
  have hlt₂ := clearBits_lt s.firstBulkPage hwf h.fits
  refine ⟨hwf, h.fits, ⟨?_, ?_⟩⟩
  · change add64 s.numFreePages rc = clearBits _ s.firstAllocPage _
    rw [h.counted.pages, h₁, add64_eq (by omega)]
  · change add64 s.numFreeBulkPages rc = clearBits _ s.firstBulkPage _
    rw [h.counted.bulk, h₂, add64_eq (by omega)]

theorem accounted_recordDecrease (h : Accounted s) (hf : FreeHole s new) :
    Accounted (recordDecrease s new) := by
  have hlow := hf.low
  have halloc := h.wf.alloc_le
  have h₁ := clearBits_recordDecrease hf (by omega : s.firstAllocPage ≤ new.startPfn)
  have h₂ := clearBits_recordDecrease hf hlow
  have hlt₁ := clearBits_lt s.firstAllocPage h.wf h.fits
  have hlt₂ := clearBits_lt s.firstBulkPage h.wf h.fits
  refine ⟨wf_recordDecrease h.wf hf, h.fits, ⟨?_, ?_⟩⟩
  · change sub64 s.numFreePages new.size = clearBits _ s.firstAllocPage _
    rw [h.counted.pages, sub64_eq (by omega) (by omega)]
    omega
  · change sub64 s.numFreeBulkPages new.size = clearBits _ s.firstBulkPage _
    rw [h.counted.bulk, sub64_eq (by omega) (by omega)]
    omega

theorem accounted_flag {f : Bool} (h : Accounted s) : Accounted { s with inIncreaseMemory := f } :=
  ⟨wf_flag h.wf, h.fits, ⟨h.counted.pages, h.counted.bulk⟩⟩

theorem kept_accounted (xen : Xen) : Kept Accounted xen := by
  refine ⟨fun s f h => accounted_flag h, ?_, ?_⟩
  · intro k s h
    apply allocateFrames_rule (fun s f h => accounted_flag h) _ h
    intro s b page h hs
    exact accounted_take h (fun _ => by decide) hs
  · intro s hole rest rc h hl hrc hle
    exact accounted_recordIncrease h hl hrc hle

/-! ## Runs -/

def accountedStep (s : Sys) (l : Label) : Prop :=
  (s.pool.maxEndAllocPage < 2 ^ 31 ∧ BITS_PER_PAGE ∣ s.pool.maxEndAllocPage) ∧
    match l with
    | .deallocate page n => isBulk n = true ↔ s.pool.firstBulkPage ≤ page
    | .round newPage _ => RoomForRecord s.pool newPage
    | _ => True

instance (s : Pool) : (newPage : Bool) → Decidable (RoomForRecord s newPage)
  | false => isTrue fun h => absurd h Bool.false_ne_true
  | true => decidable_of_iff
      (∃ p < s.firstBulkPage, s.firstFreePage ≤ p ∧ allocated s p = false)
      ⟨fun ⟨p, hlt, hle, hp⟩ _ => ⟨p, hle, hlt, hp⟩, fun h =>
        have ⟨p, hle, hlt, hp⟩ := h rfl
        ⟨p, hlt, hle, hp⟩⟩

instance (s : Sys) : (l : Label) → Decidable (accountedStep s l)
  | .deallocate .. | .round .. => inferInstanceAs (Decidable (_ ∧ _))
  | .allocate .. | .increase .. | .decrease .. | .resize .. =>
      inferInstanceAs (Decidable (_ ∧ True))

theorem counted_initPageAllocator (c : Config) : Counted (initPageAllocator c) := by
  have hbulk := initPageAllocator_bulk c
  have hfree : ∀ p, (initPageAllocator c).firstAllocPage ≤ p → p < c.max →
      (!allocated (initPageAllocator c) p) = true := by
    intro p h₁ h₂
    have hmap : allocated (initPageAllocator c) p = _ := allocated_mapFree
    rw [hmap, decide_eq_true ⟨h₁, by omega⟩, Bool.not_true, Bool.and_false]
    rfl
  constructor
  · exact (countIn_all hfree).symm
  · exact (countIn_all fun p h₁ h₂ => hfree p (le_trans hbulk.1 h₁) h₂).symm

theorem closed_accounted : Closed Accounted where
  wf _ h := h.wf
  flag _ _ h := accounted_flag h
  nextId _ _ h := ⟨wf_nextId h.wf, h.fits, ⟨h.counted.pages, h.counted.bulk⟩⟩
  take _ _ _ _ h hb hs := accounted_take h hb hs
  shrink _ _ h hf := accounted_recordDecrease h hf
  free _ _ h hmem hlt := accounted_deallocate h hmem ⟨nofun, fun hle => by omega⟩
  hole _ _ h hl := ⟨wf_initial_hole h.wf hl, h.fits, ⟨h.counted.pages, h.counted.bulk⟩⟩

theorem accounted_step {s t : Sys} {l : Label} (h : Holds (fun s => Wf s ∧ Counted s) s)
    (hok : accountedStep s l) (hstep : step s l = some t) :
    Holds (fun s => Wf s ∧ Counted s) t := by
  have hacc : Holds Accounted s := ⟨⟨h.pool.1, hok.1.1, h.pool.2⟩, h.page⟩
  have hnext : Holds Accounted t := by
    apply closed_accounted.step hacc hstep
    · intro n xen u r _ hr
      exact allocatePages_rule (kept_accounted xen) (fun _ _ _ h hb hs => accounted_take h hb hs)
        (fun _ h => h) hacc.pool hr
    · rintro page n rfl hmem
      exact accounted_deallocate hacc.pool hmem hok.2
    · intro n xen _
      exact ((kept_accounted xen).increaseMemory hacc.pool).1
    · rintro newPage xen rfl
      exact hok.2
  exact ⟨⟨hnext.pool.wf, hnext.pool.counted⟩, hnext.page⟩

/-- The counters are exact in every run whose steps meet the condition. -/
theorem counters_exact (s : Sys) (h : Reach step accountedStep Initial s) : Counted s.pool := by
  have hinv : Holds (fun s => Wf s ∧ Counted s) s := by
    apply h.invariant
    · rintro s ⟨c, rfl⟩
      exact holds_idle ⟨wf_initPageAllocator c, counted_initPageAllocator c⟩ rfl
    · intro s l t hinv hok hstep
      exact accounted_step hinv hok hstep
  exact hinv.pool.2

theorem counters_exact_in_use : ∃ s, Reach step accountedStep Initial s ∧
    s.pool.memoryHoleList.map Hole.size = [6] ∧ Counted s.pool := by
  have hstart : Reach step accountedStep Initial ⟨initPageAllocator smallDomain, none⟩ :=
    .start ⟨smallDomain, rfl⟩
  obtain ⟨s, hreach, hholes⟩ := hstart.runGuardedTo
    (P := fun s => s.pool.memoryHoleList.map Hole.size = [6]) inUse (by decide +kernel)
  exact ⟨s, hreach, hholes, counters_exact s hreach⟩

def spill : List Label :=
  [.allocate 511 noMemory, .allocate 140 noMemory, .allocate 5 noMemory, .deallocate 659 5]

theorem counters_not_exact :
    ¬ ∀ s, Reach step anyStep Initial s → s.decreasing = none → Counted s.pool := by
  intro hall
  have h₀ : Reach step anyStep Initial ⟨initPageAllocator smallDomain, none⟩ :=
    .start ⟨smallDomain, rfl⟩
  obtain ⟨s, hreach, hnone, hnum, hclear⟩ := h₀.runTo
    (P := fun s => s.decreasing = none ∧ s.pool.numFreeBulkPages = 6 ∧
      clearBits s.pool s.pool.firstBulkPage s.pool.endAllocPage = 11)
    spill (by decide +kernel)
  have hbulk := (hall s hreach hnone).bulk
  rw [hnum, hclear] at hbulk
  exact absurd hbulk (by decide)

end Guk.PagePool
