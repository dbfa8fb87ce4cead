import Guk.XmallocInv

/-!
# Runs of `guk_xmalloc` and `guk_xfree`

Both operations keep the invariant. The loop of `guk_xfree` meets the free blocks in
any order: its invariant says that a free neighbour of the current block is still
ahead of it, so none is left when the loop ends.
-/
namespace Guk.Xmalloc

open Runs Tiling Function List

variable {L : Layout} {s t : Heap} {m : Merge} {rest : List Nat} {hdr i n a asize size j : Nat}
  {page : Option Nat} {r : Heap × Option Nat}

/-! ## `guk_xmalloc` -/

theorem mem_pages_held (h : i ∈ s.pages) : (i, 1) ∈ held s :=
  mem_append_left _ (mem_map_of_mem h)

theorem mem_whole_held (h : i ∈ s.whole) : (i, (pageCount (s.size i)).toNat) ∈ held s :=
  mem_append_right _ (mem_map_of_mem (f := fun b => (b, (pageCount (s.size b)).toNat)) h)

theorem fresh_new (h : Inv L s []) (hfresh : Fresh s n a) (hn : 0 < n) :
    PAGE_SIZE ∣ a ∧ a ∉ s.pages ∧ a ∉ s.whole := by
  obtain ⟨halign, -, hapart⟩ := hfresh
  have hpage := page_pos
  have hpos := Nat.mul_pos hn hpage
  refine ⟨Nat.dvd_of_mod_eq_zero halign, ?_, ?_⟩
  · intro hmem
    have := hapart _ (mem_pages_held hmem)
    omega
  · intro hmem
    have hcount := (h.whole a hmem).2.1
    have hpos' : 0 < (pageCount (s.size a)).toNat * PAGE_SIZE := Nat.mul_pos (by omega) hpage
    have : a + n * PAGE_SIZE ≤ a ∨ a + (pageCount (s.size a)).toNat * PAGE_SIZE ≤ a :=
      hapart _ (mem_whole_held hmem)
    omega

theorem fresh_whole (h : Inv L s []) (hbig : PAGE_SIZE ≤ blockSize L asize)
    (hcount : 0 < pageCount (alignUp (blockSize L asize) PAGE_SIZE))
    (hfresh : Fresh s (wanted L asize) a) :
    PAGE_SIZE ∣ a ∧ a ∉ s.pages ∧ a ∉ s.whole := by
  apply fresh_new h hfresh
  rw [wanted, if_pos hbig]
  exact Int.lt_toNat.mpr hcount

theorem fresh_page (h : Inv L s []) (hsmall : blockSize L asize < PAGE_SIZE)
    (hfresh : Fresh s (wanted L asize) a) : PAGE_SIZE ∣ a ∧ a ∉ s.pages ∧ a ∉ s.whole := by
  apply fresh_new h hfresh
  rw [wanted, if_neg (not_le.mpr hsmall)]
  exact Nat.one_pos

inductive Gives (L : Layout) (s : Heap) (asize : Nat) (page : Option Nat) :
    Heap × Option Nat → Prop where
  | refused (hbig : PAGE_SIZE ≤ blockSize L asize)
      (hnone : page = none ∨ pageCount (alignUp (blockSize L asize) PAGE_SIZE) ≤ 0) :
      Gives L s asize page (s, none)
  | exhausted (hsmall : blockSize L asize < PAGE_SIZE)
      (hfree : ∀ i ∈ s.freelist, s.size i < blockSize L asize)
      (hnone : page = none) : Gives L s asize page (s, none)
  | reused (i : Nat) (hsmall : blockSize L asize < PAGE_SIZE) (hi : i ∈ s.freelist)
      (hfit : blockSize L asize ≤ s.size i) :
      Gives L s asize page
        ({ maybeSplit L { s with freelist := s.freelist.erase i } i
            (blockSize L asize) (s.size i) with
          small := i :: s.small }, some (i + L.H))
  | newPage (P : Nat) (hsmall : blockSize L asize < PAGE_SIZE) (hpage : page = some P) :
      Gives L s asize page
        ({ maybeSplit L { s with pages := P :: s.pages, obtained := (P, 1) :: s.obtained } P
            (blockSize L asize) PAGE_SIZE with small := P :: s.small }, some (P + L.H))
  | whole (b : Nat) (hbig : PAGE_SIZE ≤ blockSize L asize) (hpage : page = some b)
      (hcount : 0 < pageCount (alignUp (blockSize L asize) PAGE_SIZE)) :
      Gives L s asize page
        ({ s with
          size := update s.size b (alignUp (blockSize L asize) PAGE_SIZE)
          linked := update s.linked b false
          whole := b :: s.whole
          obtained :=
            (b, (pageCount (alignUp (blockSize L asize) PAGE_SIZE)).toNat) :: s.obtained },
          some (b + L.H))

theorem gukXmalloc_gives (L : Layout) (s : Heap) (asize : Nat) (page : Option Nat) :
    Gives L s asize page (gukXmalloc L s asize page) := by
  simp only [gukXmalloc]
  split
  case isTrue hbig =>
    unfold xmallocWholePages
    cases page with
    | none => exact .refused hbig (.inl rfl)
    | some b =>
      simp only
      split
      case isTrue hcount => exact .refused hbig (.inr hcount)
      case isFalse hcount => exact .whole b hbig rfl (Int.not_le.mp hcount)
  case isFalse hbig =>
    have hsmall := not_le.mp hbig
    split
    case h_1 i hfind =>
      have hfit : blockSize L asize ≤ s.size i := by simpa using List.find?_some hfind
      rw [maybeSplit_small]
      exact .reused i hsmall (mem_of_find?_eq_some hfind) hfit
    case h_2 hfind =>
      unfold xmallocNewPage
      cases page with
      | none =>
        refine .exhausted hsmall ?_ rfl
        intro i hi
        have := List.find?_eq_none.mp hfind i hi
        simpa using this
      | some P => exact .newPage P hsmall rfl

theorem gives_of_eq (hr : gukXmalloc L s asize page = r) : Gives L s asize page r :=
  hr ▸ gukXmalloc_gives L s asize page

theorem inv_xmalloc (hr : gukXmalloc L s asize page = r) (h : Inv L s [])
    (hsize : asize + L.H + L.A < 2 ^ 64) (hfresh : ∀ a ∈ page, Fresh s (wanted L asize) a) :
    Inv L r.1 [] := by
  have hpos := L.pos
  have hge := blockSize_ge L hsize
  have hH : L.H ≤ blockSize L asize := by omega
  cases gives_of_eq hr with
  | refused | exhausted => exact h
  | reused i _ hi =>
    have hnext : ∀ P ∈ s.pages, P ≤ i → i + s.size i < P + PAGE_SIZE →
        i + s.size i ∉ s.freelist.erase i := by
      intro P hP hle hlt hmem
      exact h.core.apart P hP i hi hle hlt (mem_of_mem_erase hmem)
    have hlive := inv_make_live (inv_split (inv_take_free h hi) hH hnext) maybeSplit_linked
    rw [maybeSplit_small] at hlive
    exact hlive
  | newPage P hsmall hpage =>
    obtain ⟨hdvd, hpages, hwhole⟩ := fresh_page h hsmall (hfresh P hpage)
    have hobt := inv_obtain h hdvd hpages hwhole
    have hend : ∀ Q ∈ P :: s.pages, Q ≤ P →
        P + update s.size P PAGE_SIZE P < Q + PAGE_SIZE →
        P + update s.size P PAGE_SIZE P ∉ s.freelist := by
      intro Q _ hle hlt
      rw [update_self] at hlt
      omega
    have hsplit := inv_split hobt hH hend
    have hself : (update s.size P PAGE_SIZE P) = PAGE_SIZE := update_self ..
    simp only [hself] at hsplit
    rw [maybeSplit_size (s := { s with pages := P :: s.pages, obtained := (P, 1) :: s.obtained })
      (by omega : 0 < blockSize L asize)] at hsplit
    have hlive := inv_make_live hsplit maybeSplit_linked
    rw [maybeSplit_small] at hlive
    exact hlive
  | whole b hbig hpage hcount =>
    obtain ⟨hdvd, hpages, hwhole⟩ := fresh_whole h hbig hcount (hfresh b hpage)
    exact inv_obtain_whole h hdvd hpages hwhole hcount

/-! ## The loop of `guk_xfree` -/

def Adjacent (m : Merge) (i : Nat) : Prop :=
  i / PAGE_SIZE = m.hdr / PAGE_SIZE ∧ (i + m.size i = m.hdr ∨ m.hdr + m.size m.hdr = i)

theorem mergeStep_pred (hpage : i / PAGE_SIZE = m.hdr / PAGE_SIZE) (hadj : i + m.size i = m.hdr)
    (hpos : 0 < m.size i) :
    mergeStep m i =
      ⟨i, update m.size i (m.size i + m.size m.hdr), m.freelist.erase i⟩ := by
  simp only [mergeStep, hpage, ne_eq, not_true_eq_false, if_false, if_pos hadj]
  rw [if_neg (by omega)]

theorem mergeStep_succ (hpage : i / PAGE_SIZE = m.hdr / PAGE_SIZE)
    (hpred : i + m.size i ≠ m.hdr) (hadj : m.hdr + m.size m.hdr = i) :
    mergeStep m i =
      ⟨m.hdr, update m.size m.hdr (m.size m.hdr + m.size i), m.freelist.erase i⟩ := by
  simp only [mergeStep, hpage, ne_eq, not_true_eq_false, if_false, if_neg hpred, if_pos hadj]

theorem mergeStep_none (h : ¬ Adjacent m i) : mergeStep m i = m := by
  by_cases hpage : i / PAGE_SIZE = m.hdr / PAGE_SIZE
  · have hpred : i + m.size i ≠ m.hdr := fun he => h ⟨hpage, .inl he⟩
    have hsucc : m.hdr + m.size m.hdr ≠ i := fun he => h ⟨hpage, .inr he⟩
    simp only [mergeStep, hpage, ne_eq, not_true_eq_false, if_false, if_neg hpred, if_neg hsucc]
  · simp only [mergeStep, ne_eq, hpage, not_false_eq_true, if_true]

structure Merging (L : Layout) (s : Heap) (m : Merge) (rest : List Nat) : Prop where
  inv : Inv L { s with size := m.size, freelist := m.freelist } [m.hdr]
  ahead : ∀ i ∈ m.freelist, Adjacent m i → i ∈ rest
  free : ∀ i ∈ rest, i ∈ m.freelist
  nodup : rest.Nodup

theorem Merging.free_erase (h : Merging L s m (i :: rest)) :
    ∀ j ∈ rest, j ∈ m.freelist.erase i := by
  intro j hj
  have hne : j ≠ i := fun he => (List.nodup_cons.mp h.nodup).1 (he ▸ hj)
  exact (mem_erase_of_ne hne).mpr (h.free j (mem_cons_of_mem i hj))

theorem Merging.ne_of_mem_erase (h : Merging L s m (i :: rest)) (hj : j ∈ m.freelist.erase i) :
    j ≠ i := by
  rintro rfl
  have htake := inv_take_free h.inv (h.free j mem_cons_self)
  exact (inv_out_not_free htake mem_cons_self).1 hj

theorem Merging.ne_hdr (h : Merging L s m rest) (hj : j ∈ m.freelist) : j ≠ m.hdr := by
  rintro rfl
  exact (inv_out_not_free h.inv mem_cons_self).1 hj

theorem Merging.ahead_erase (h : Merging L s m (i :: rest)) (hj : j ∈ m.freelist.erase i)
    (hja : Adjacent m j) : j ∈ rest :=
  (List.mem_cons.mp (h.ahead j (mem_of_mem_erase hj) hja)).resolve_left (h.ne_of_mem_erase hj)

theorem Merging.home (h : Merging L s m rest) :
    ∃ P ∈ s.pages, ∀ j, j / PAGE_SIZE = m.hdr / PAGE_SIZE →
    P ≤ j ∧ j < P + PAGE_SIZE := by
  obtain ⟨P, hP, hle, hlt⟩ := h.inv.core.home m.hdr (.inl mem_cons_self)
  exact ⟨P, hP, fun j hj => same_page (h.inv.core.aligned P hP) hle hlt hj⟩

section

variable (h : Merging L s m (i :: rest))

include h

theorem merging_pred (hpage : i / PAGE_SIZE = m.hdr / PAGE_SIZE)
    (hpred : i + m.size i = m.hdr) : Merging L s (mergeStep m i) rest := by
  have hi := h.free i mem_cons_self
  obtain ⟨P, hP, hin⟩ := h.home
  obtain ⟨hile, hilt⟩ := hin i hpage
  have hipos := (core_bounds h.inv.core hP (.inr (.inl hi)) hile hilt).1
  have hjoin := inv_join (inv_take_free h.inv hi) mem_cons_self
    (mem_cons_of_mem i mem_cons_self) hpred hP hile (hin m.hdr rfl).2
  rw [erase_cons_tail (by simpa using h.ne_hdr hi), erase_cons_head] at hjoin
  rw [mergeStep_pred hpage hpred hipos]
  refine ⟨hjoin, ?_, h.free_erase, (List.nodup_cons.mp h.nodup).2⟩
  rintro j hj ⟨hjpage, hja⟩
  have hjfree := mem_of_mem_erase hj
  simp only [update_self, update_of_ne (h.ne_of_mem_erase hj)] at hjpage hja
  have hjpage' := hjpage.trans hpage
  rcases hja with hja | hja
  · -- the block before `i` is not free, as `i` is
    exact absurd hja (core_not_adjacent h.inv.core hP hjfree hi (hin j hjpage').1 hilt)
  · exact h.ahead_erase hj ⟨hjpage', .inr (by omega)⟩

theorem merging_succ (hpage : i / PAGE_SIZE = m.hdr / PAGE_SIZE)
    (hpred : i + m.size i ≠ m.hdr) (hsucc : m.hdr + m.size m.hdr = i) :
    Merging L s (mergeStep m i) rest := by
  have hi := h.free i mem_cons_self
  obtain ⟨P, hP, hin⟩ := h.home
  obtain ⟨hile, hilt⟩ := hin i hpage
  have hjoin := inv_join (inv_take_free h.inv hi) (mem_cons_of_mem i mem_cons_self)
    mem_cons_self hsucc hP (hin m.hdr rfl).1 hilt
  rw [erase_cons_head] at hjoin
  rw [mergeStep_succ hpage hpred hsucc]
  refine ⟨hjoin, ?_, h.free_erase, (List.nodup_cons.mp h.nodup).2⟩
  rintro j hj ⟨hjpage, hja⟩
  have hjfree := mem_of_mem_erase hj
  simp only [update_self, update_of_ne (h.ne_hdr hjfree)] at hjpage hja
  rcases hja with hja | hja
  · exact h.ahead_erase hj ⟨hjpage, .inl hja⟩
  · -- the block after `i` is not free, as `i` is
    have hnext : i + m.size i ≠ j := core_not_adjacent h.inv.core hP hi hjfree hile (hin j hjpage).2
    exact absurd (by omega) hnext

theorem merging_none (hadj : ¬ Adjacent m i) : Merging L s (mergeStep m i) rest := by
  rw [mergeStep_none hadj]
  refine ⟨h.inv, ?_, fun j hj => h.free j (mem_cons_of_mem i hj), (List.nodup_cons.mp h.nodup).2⟩
  intro j hj hja
  have hji : j ≠ i := by
    rintro rfl
    exact hadj hja
  exact (List.mem_cons.mp (h.ahead j hj hja)).resolve_left hji

theorem merging_step : Merging L s (mergeStep m i) rest := by
  by_cases hadj : Adjacent m i
  · obtain ⟨hpage, hadj⟩ := hadj
    by_cases hpred : i + m.size i = m.hdr
    · exact merging_pred h hpage hpred
    · exact merging_succ h hpage hpred (hadj.resolve_left hpred)
  · exact merging_none h hadj

end

theorem merging_run (h : Merging L s m rest) : Merging L s (rest.foldl mergeStep m) [] := by
  induction rest generalizing m with
  | nil => exact h
  | cons i rest ih => exact ih (merging_step h)

/-! ## `guk_xfree` -/

theorem pageCount_one : pageCount PAGE_SIZE = 1 := by
  unfold pageCount
  decide

theorem large_of_pageCount (h : 0 < pageCount size) : PAGE_SIZE ≤ size := by
  by_contra hlt
  have hzero := Nat.div_eq_of_lt (not_le.mp hlt)
  unfold pageCount at h
  rw [hzero] at h
  exact absurd h (by decide)

theorem header_on_page (h : Inv L s []) (hl : hdr ∈ live s) :
    (hdr + L.H) / PAGE_SIZE = hdr / PAGE_SIZE := by
  have hpos := L.pos
  have hfits := L.fits
  have hpage : ∃ P, PAGE_SIZE ∣ P ∧ P ≤ hdr ∧ hdr + L.H < P + PAGE_SIZE := by
    rcases List.mem_append.mp hl with hs | hw
    · have hB : hdr ∈ [] ∨ hdr ∈ s.freelist ∨ hdr ∈ s.small := .inr (.inr hs)
      obtain ⟨P, hP, hle, hlt⟩ := h.core.home hdr hB
      have hend := (core_bounds h.core hP hB hle hlt).2
      have hlarge := h.core.large hdr hB
      have hlast := h.core.last P hP hdr hB hle hlt
      exact ⟨P, h.core.aligned P hP, hle, by omega⟩
    · exact ⟨hdr, (h.whole hdr hw).1, le_refl hdr, by omega⟩
  obtain ⟨P, hP, hle, hlt⟩ := hpage
  rw [page_div hP (by omega) hlt, page_div hP hle (by omega)]

theorem inv_free_big (h : Inv L s []) (hl : hdr ∈ live s) (hbig : PAGE_SIZE ≤ s.size hdr) :
    Inv L (deallocatePages { s with small := s.small.erase hdr, whole := s.whole.erase hdr } hdr
      (pageCount (s.size hdr)).toNat) [] := by
  rcases List.mem_append.mp hl with hs | hw
  · have hB : hdr ∈ [] ∨ hdr ∈ s.freelist ∨ hdr ∈ s.small := .inr (.inr hs)
    obtain ⟨P, hP, hle, hlt⟩ := h.core.home hdr hB
    have hend := (core_bounds h.core hP hB hle hlt).2
    have hsize : s.size hdr = PAGE_SIZE := by omega
    have hback := (inv_return (inv_take_live h hs) hsize).2
    rw [hsize, pageCount_one, erase_of_not_mem (inv_block_not_whole h hB)]
    exact hback
  · have hsmall : hdr ∉ s.small := fun hs => inv_block_not_whole h (.inr (.inr hs)) hw
    rw [deallocatePages, erase_of_not_mem hsmall, erase_of_not_mem (h.whole hdr hw).2.2]
    exact inv_return_whole h hw

theorem merging_start (h : Inv L s [hdr]) : Merging L s ⟨hdr, s.size, s.freelist⟩ s.freelist :=
  ⟨h, fun _ hi _ => hi, fun _ hi => hi, (List.nodup_append.mp (List.nodup_append.mp h.lists).2.1).1⟩

theorem inv_merged (h : Merging L s m []) (hsize : m.size m.hdr ≠ PAGE_SIZE) :
    Inv L { s with
      size := m.size
      freelist := m.hdr :: m.freelist
      linked := update s.linked m.hdr true } [] := by
  have hcore := h.inv.core
  have hBh : m.hdr ∈ [m.hdr] ∨ m.hdr ∈ m.freelist ∨ m.hdr ∈ s.small := .inl mem_cons_self
  have hnone : ∀ i ∈ m.freelist, ¬ Adjacent m i := by
    intro i hi hadj
    exact absurd (h.ahead i hi hadj) not_mem_nil
  have hsame : ∀ P ∈ s.pages, P ≤ m.hdr → m.hdr < P + PAGE_SIZE → ∀ i, P ≤ i → i < P + PAGE_SIZE →
      i / PAGE_SIZE = m.hdr / PAGE_SIZE := by
    intro P hP hle hlt i hile hilt
    have halign := hcore.aligned P hP
    rw [page_div halign hile hilt, page_div halign hle hlt]
  apply inv_make_free h.inv
  · obtain ⟨P, hP, hle, hlt⟩ := hcore.home m.hdr hBh
    have hend : m.hdr + m.size m.hdr ≤ P + PAGE_SIZE := (core_bounds hcore hP hBh hle hlt).2
    change m.size m.hdr < PAGE_SIZE
    omega
  · intro P hP hle hlt hmem
    change m.hdr + m.size m.hdr < P + PAGE_SIZE at hlt
    have hpage := hsame P hP hle (by omega) (m.hdr + m.size m.hdr) (by omega) hlt
    exact hnone _ hmem ⟨hpage, .inr rfl⟩
  · intro P hP hle hlt i hi hile he
    change i + m.size i = m.hdr at he
    exact hnone i hi ⟨hsame P hP hle hlt i hile (by omega), .inl he⟩

theorem small_of_live (h : Inv L s []) (hl : hdr ∈ live s) (hsmall : s.size hdr < PAGE_SIZE) :
    hdr ∈ s.small := by
  rcases List.mem_append.mp hl with hs | hw
  · exact hs
  · exact absurd (large_of_pageCount (h.whole hdr hw).2.1) (not_le.mpr hsmall)

theorem inv_xfree (h : Inv L s []) (hl : hdr ∈ live s) :
    ∃ t, gukXfree L s (hdr + L.H) = .ok t ∧ Inv L t [] := by
  have hpos := L.pos
  have hzero : hdr + L.H ≠ 0 := by omega
  simp only [gukXfree]
  rw [if_neg hzero, Nat.add_sub_cancel, if_neg (not_not_intro (header_on_page h hl)),
    h.unlinked hdr hl, if_neg Bool.false_ne_true]
  by_cases hbig : PAGE_SIZE ≤ s.size hdr
  · rw [if_pos hbig]
    exact ⟨_, rfl, inv_free_big h hl hbig⟩
  · rw [if_neg hbig]
    have hs := small_of_live h hl (not_le.mp hbig)
    rw [erase_of_not_mem (inv_block_not_whole h (.inr (.inr hs)))]
    have hrun := merging_run (merging_start (inv_take_live h hs))
    generalize hm : s.freelist.foldl mergeStep ⟨hdr, s.size, s.freelist⟩ = m at hrun ⊢
    by_cases hfull : m.size m.hdr = PAGE_SIZE
    · obtain ⟨hdvd, hback⟩ := inv_return hrun.inv hfull
      rw [if_pos hfull, if_neg (not_not_intro (Nat.mod_eq_zero_of_dvd hdvd))]
      exact ⟨_, rfl, hback⟩
    · rw [if_neg hfull]
      exact ⟨_, rfl, inv_merged hrun hfull⟩

/-! ## What `guk_xfree` does -/

def merged (s : Heap) (hdr : Nat) : Merge := s.freelist.foldl mergeStep ⟨hdr, s.size, s.freelist⟩

inductive Frees (s : Heap) (hdr : Nat) : Heap → Prop where
  | whole (hbig : PAGE_SIZE ≤ s.size hdr) :
      Frees s hdr
        (deallocatePages { s with small := s.small.erase hdr, whole := s.whole.erase hdr } hdr
        (pageCount (s.size hdr)).toNat)
  | page (hsmall : s.size hdr < PAGE_SIZE)
      (hfull : (merged s hdr).size (merged s hdr).hdr = PAGE_SIZE) :
      Frees s hdr (deallocatePages { s with
        small := s.small.erase hdr
        whole := s.whole.erase hdr
        size := (merged s hdr).size
        freelist := (merged s hdr).freelist } (merged s hdr).hdr 1)
  | listed (hsmall : s.size hdr < PAGE_SIZE) :
      Frees s hdr { s with
        small := s.small.erase hdr
        whole := s.whole.erase hdr
        size := (merged s hdr).size
        freelist := (merged s hdr).hdr :: (merged s hdr).freelist
        linked := Function.update s.linked (merged s hdr).hdr true }

theorem gukXfree_frees (h : gukXfree L s (hdr + L.H) = .ok t) : Frees s hdr t := by
  have hpos := L.pos
  simp only [gukXfree] at h
  rw [if_neg (by omega), Nat.add_sub_cancel] at h
  split at h
  · cases h
  split at h
  · cases h
  split at h
  case isTrue hbig =>
    cases h
    exact .whole hbig
  case isFalse hbig =>
    split at h
    case isTrue hfull =>
      split at h <;> cases h
      exact .page (not_le.mp hbig) hfull
    case isFalse =>
      cases h
      exact .listed (not_le.mp hbig)

theorem xfree_live (h : Inv L s []) (hfrees : Frees s hdr t) : live t = (live s).erase hdr := by
  have herase : live t = s.small.erase hdr ++ s.whole.erase hdr := by
    cases hfrees with
    | whole | page | listed => rfl
  rw [herase, live]
  by_cases hs : hdr ∈ s.small
  · rw [erase_append_left _ hs, erase_of_not_mem (inv_block_not_whole h (.inr (.inr hs)))]
  · rw [erase_append_right _ hs, erase_of_not_mem hs]

/-! ## Runs -/

theorem inv_initial (h : Initial s) : Inv L s [] := by
  refine ⟨⟨?_, ?_, ?_, ?_, ?_, ?_, ?_⟩, ?_, ?_, ?_, ?_, ?_, ?_⟩ <;>
    simp [live, held, h.freelist, h.small, h.whole, h.pages, h.obtained, h.returned]

theorem inv_step {l : Label} {t : Heap} (h : Inv L s []) (hstep : step L s l = some t) :
    Inv L t [] := by
  cases l with
  | malloc asize page =>
    obtain ⟨⟨hsize, hfresh⟩, rfl⟩ :=
      Option.ite_none_right_eq_some.mp hstep |>.imp_right Option.some.inj
    exact inv_xmalloc rfl h hsize hfresh
  | free hdr =>
    obtain ⟨hl, hfree⟩ := Option.ite_none_right_eq_some.mp hstep
    obtain ⟨t', hok, hinv⟩ := inv_xfree h hl
    rw [hok] at hfree
    obtain rfl : t' = t := Option.some.inj hfree
    exact hinv

theorem no_pages (h : Inv L s []) (hlive : live s = []) : s.pages = [] := by
  obtain ⟨hsmall, -⟩ := List.append_eq_nil_iff.mp hlive
  have hfree : ∀ b, b ∈ ([] : List Nat) ∨ b ∈ s.freelist ∨ b ∈ s.small → b ∈ s.freelist := by
    intro b hb
    rw [hsmall] at hb
    simpa using hb
  have hpage := page_pos
  apply List.eq_nil_iff_forall_not_mem.mpr
  intro P hP
  have htiled := h.core.tiled P hP
  have hB := tiled_first htiled (by omega)
  have hfirst := hfree P hB
  have hlt := (h.core.free P hfirst).2
  have hnext := tiled_next htiled hB (le_refl P) (by omega)
  exact h.core.apart P hP P hfirst (le_refl P) (by omega) (hfree _ hnext)

theorem inv_free_not_live {b : Nat} (h : Inv L s []) (hb : b ∈ s.freelist) : b ∉ live s := by
  intro hl
  rcases List.mem_append.mp hl with hs | hw
  · exact inv_free_not_small h hb hs
  · exact inv_block_not_whole h (.inr (.inl hb)) hw

theorem inv_wellFormed (h : Inv L s []) : WellFormed L s := by
  have hB : ∀ P ∈ s.pages, ∀ b, P ≤ b → b < P + PAGE_SIZE → b ∈ s.freelist ∨ b ∈ live s →
      b ∈ [] ∨ b ∈ s.freelist ∨ b ∈ s.small := by
    intro P hP b hle hlt hb
    have hw : b ∉ s.whole := fun hw => inv_whole_ne h hw hP hle hlt rfl
    simp only [live, mem_append] at hb
    tauto
  refine ⟨?_, ?_, ?_, h.core.apart, ?_, ?_, ?_⟩
  · intro P hP
    apply tiled_congr (h.core.tiled P hP)
    · intro b hle hlt
      constructor
      · exact hB P hP b hle hlt
      · intro hb
        simp only [live, mem_append]
        simp only [not_mem_nil, false_or] at hb
        tauto
    · exact fun _ _ _ _ => rfl
  · exact fun b hb => inv_free_not_live h hb
  · intro b hb
    exact h.core.home b (.inr (.inl hb))
  · intro P hP b hb hle hlt hend
    exact h.core.last P hP b (hB P hP b hle hlt hb) hle hlt hend
  · intro hdr hl
    obtain ⟨t, hok, -⟩ := inv_xfree h hl
    exact ⟨t, hok, xfree_live h (gukXfree_frees hok)⟩
  · intro hlive
    have hpages := no_pages h hlive
    obtain ⟨-, hwhole⟩ := List.append_eq_nil_iff.mp hlive
    constructor
    · apply List.eq_nil_iff_forall_not_mem.mpr
      intro b hb
      obtain ⟨P, hP, -⟩ := h.core.home b (.inr (.inl hb))
      rw [hpages] at hP
      cases hP
    · have hbalance := h.balance
      rw [held, hpages, hwhole] at hbalance
      simpa using hbalance

/-- The heap is well formed in every run of allocations and frees of live blocks. -/
theorem heap_well_formed (L : Layout) (s : Heap) (h : Reach (step L) anyStep Initial s) :
    WellFormed L s := by
  apply inv_wellFormed
  apply h.invariant
  · intro s hinit
    exact inv_initial hinit
  · intro s l t hinv _ hstep
    exact inv_step hinv hstep

def hdrLayout : Layout :=
  ⟨24, 8, ⟨3, by decide, by decide⟩, by decide, by decide, by decide⟩

def emptyHeap : Heap := ⟨fun _ => 0, fun _ => false, [], [], [], [], [], []⟩

def onePage : Option Heap :=
  run (step hdrLayout) emptyHeap [.malloc 100 (some 4096), .malloc 200 none, .free 4096]

theorem heap_well_formed_one_page : ∃ s, onePage = some s ∧ WellFormed hdrLayout s := by
  have h₀ : Reach (step hdrLayout) anyStep Initial emptyHeap :=
    .start ⟨rfl, rfl, rfl, rfl, rfl, rfl⟩
  have h₁ : onePage.isSome = true := by decide +kernel
  obtain ⟨s, hs⟩ := Option.isSome_iff_exists.mp h₁
  exact ⟨s, hs, heap_well_formed hdrLayout s (h₀.run _ hs)⟩

end Guk.Xmalloc
