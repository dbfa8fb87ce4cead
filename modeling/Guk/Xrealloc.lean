import Guk.ByteMemory
import Guk.XmallocRoom
import Mathlib.Algebra.Group.Int.Defs

/-!
# `guk_xrealloc` (`lib/xmalloc.c`)

A block that is too small is replaced by a new one: allocate, copy, free.

Memory is seen by bytes. The allocator writes to headers only, of free blocks and of the
block it handles; what they hold is in `Heap`, and their bytes become arbitrary.
-/
namespace Guk.Xmalloc

open Runs ByteMemory Function List Option

def psize (L : Layout) (s : Heap) (hdr : Nat) : Int := Int.bmod (s.size hdr - L.H : Nat) (2 ^ 32)

def toSizeT (n : Int) : Nat := (n % 2 ^ 64).toNat

structure After where
  heap : Heap
  mem : Bytes
  result : Option Nat

def headers (L : Layout) (blocks : List Nat) : List (Nat × Nat) := blocks.map fun h => (h, L.H)

def xmallocMem (L : Layout) (s : Heap) (junk mem : Bytes) (r : Heap × Option Nat) : Bytes :=
  scribble (headers L (s.freelist ++ r.1.freelist ++ (r.2.map (· - L.H)).toList)) junk mem

def xfreeMem (L : Layout) (s t : Heap) (hdr : Nat) (junk mem : Bytes) : Bytes :=
  scribble (headers L (hdr :: (s.freelist ++ t.freelist))) junk mem

def copyOld (result : Option Nat) (p : Nat) (n : Int) (mem : Bytes) : Option Bytes :=
  match result with
  | none => if n = 0 then some mem else none
  | some q => if n < 0 then none else some (memcpy mem q p n.toNat)

def gukXrealloc (L : Layout) (s : Heap) (mem junk junk' : Bytes) (p size : Nat)
    (page : Option Nat) :
    Option After :=
  if p = 0 then
    let r := gukXmalloc L s size page
    some ⟨r.1, xmallocMem L s junk mem r, r.2⟩
  else
    let hdr := p - L.H
    let n := psize L s hdr
    if size ≤ toSizeT n then some ⟨s, mem, some p⟩
    else
      let r := gukXmalloc L s size page
      (copyOld r.2 p n (xmallocMem L s junk mem r)).bind fun mem =>
        match gukXfree L r.1 p with
        | .error _ => none
        | .ok t => some ⟨t, xfreeMem L r.1 t hdr junk' mem, r.2⟩

/-! ## What a reallocation is for -/

structure Kept (L : Layout) (s : Heap) (mem : Bytes) (r : After) (b : Nat) : Prop where
  size : extent r.heap b = extent s b
  contents : ∀ j, L.H ≤ j → j < extent s b → r.mem (b + j) = mem (b + j)

def pointer (L : Layout) : Option Nat → Nat
  | none => 0
  | some b => b + L.H

def Reallocated (L : Layout) (s : Heap) (mem : Bytes) (old : Option Nat) (size : Nat) :
    Option After → Prop
  | none => False
  | some r =>
    (∀ b ∈ live s, b ∉ old → Kept L s mem r b) ∧
      match r.result with
      | none => (live r.heap).Perm (live s) ∧ ∀ b ∈ old, Kept L s mem r b
      | some q =>
        ∃ c, q = c + L.H ∧ q + size ≤ c + extent r.heap c ∧
          (∀ b ∈ old, ∀ j < min (extent s b - L.H) size, r.mem (q + j) = mem (b + L.H + j)) ∧
          (old = some c ∧ (live r.heap).Perm (live s) ∨
            c ∉ live s ∧ (live r.heap).Perm (c :: old.elim (live s) (live s).erase))

def Fitting (L : Layout) (s : Heap) (size : Nat) (page : Option Nat) : Option Nat → Prop
  | none => Measured L s size page
  | some b =>
    let capacity := extent s b - L.H
    (size ≤ capacity ∧ (size ≤ capacity % 2 ^ 32 ∨ 2 ^ 31 ≤ capacity % 2 ^ 32)) ∨
      (capacity < size ∧ capacity < 2 ^ 31 ∧ size + L.H ≤ (2 ^ 31 - 1) * PAGE_SIZE ∧
        (page ≠ none ∨ ∃ i ∈ s.freelist, blockSize L size ≤ s.size i))

variable {L : Layout} {s t : Heap} {mem junk junk' : Bytes} {hdr b c d p size : Nat}
  {page : Option Nat} {m : Merge}

/-! ## The old capacity -/

theorem header_le_extent (h : Inv L s []) (hb : b ∈ s.freelist ∨ b ∈ live s) :
    L.H ≤ extent s b := by
  by_cases hw : b ∈ s.whole
  · have hcount := (h.whole b hw).2.1
    have hfits := L.fits
    have hpos := L.pos
    rw [extent_whole hw]
    apply le_trans (by omega : L.H ≤ PAGE_SIZE)
    exact Nat.le_mul_of_pos_left _ (Int.lt_toNat.mpr hcount)
  · have hblock := hb.imp_right fun hl => (List.mem_append.mp hl).resolve_right hw
    rw [extent_block h hblock]
    exact h.core.large b (.inr hblock)

theorem extent_le (h : Inv L s []) (hb : b ∈ live s) : extent s b ≤ (2 ^ 31 - 1) * PAGE_SIZE := by
  rcases List.mem_append.mp hb with hs | hw
  · have hB : b ∈ [] ∨ b ∈ s.freelist ∨ b ∈ s.small := .inr (.inr hs)
    obtain ⟨P, hP, hle, hlt⟩ := h.core.home b hB
    have hend := (core_bounds h.core hP hB hle hlt).2
    rw [extent_block h (.inr hs)]
    unfold PAGE_SIZE at *
    omega
  · rw [extent_whole hw]
    apply Nat.mul_le_mul_right
    have hcount := (h.whole b hw).2.1
    unfold pageCount at hcount ⊢
    have := (bmod_pos_iff _).mp hcount
    rw [toNat_bmod hcount]
    omega

theorem psize_eq (h : Spaced L s) (hb : b ∈ live s) :
    psize L s b = Int.bmod (extent s b - L.H : Nat) (2 ^ 32) := by
  suffices hcut : (s.size b - L.H) % 2 ^ 32 = (extent s b - L.H) % 2 ^ 32 by
    unfold psize
    rw [← Int.emod_bmod, ← Int.emod_bmod ((extent s b - L.H : Nat) : Int)]
    congr 1
    omega
  rcases List.mem_append.mp hb with hs | hw
  · rw [extent_block h.inv (.inr hs)]
  · obtain ⟨m, hm⟩ := h.wholeSizes b hw
    have hcount := (h.inv.whole b hw).2.1
    have hle := header_le_extent h.inv (.inr hb)
    have hdiv : s.size b / PAGE_SIZE = m := by rw [hm, Nat.mul_div_cancel_left _ page_pos]
    have hext : extent s b = m % 2 ^ 32 * PAGE_SIZE := by
      rw [extent_whole hw]
      unfold pageCount at hcount ⊢
      rw [hdiv] at hcount ⊢
      rw [toNat_bmod hcount]
    rw [hext] at hle ⊢
    rw [hm]
    unfold PAGE_SIZE at *
    omega

theorem psize_of_lt (h : Spaced L s) (hb : b ∈ live s) (hlt : (extent s b - L.H) % 2 ^ 32 < 2 ^ 31)
    :
    psize L s b = ((extent s b - L.H) % 2 ^ 32 : Nat) := by
  rw [psize_eq h hb, Int.bmod_def]
  split <;> omega

theorem psize_of_ge (h : Spaced L s) (hb : b ∈ live s) (hge : 2 ^ 31 ≤ (extent s b - L.H) % 2 ^ 32)
    :
    psize L s b = ((extent s b - L.H) % 2 ^ 32 : Nat) - 2 ^ 32 := by
  rw [psize_eq h hb, Int.bmod_def]
  split <;> omega

theorem le_toSizeT_iff (h : Spaced L s) (hb : b ∈ live s) (hsize : size ≤ extent s b - L.H) :
    size ≤ toSizeT (psize L s b) ↔
      size ≤ (extent s b - L.H) % 2 ^ 32 ∨ 2 ^ 31 ≤ (extent s b - L.H) % 2 ^ 32 := by
  have hle := extent_le h.inv hb
  rw [show PAGE_SIZE = 4096 from rfl] at hle
  unfold toSizeT
  rcases Nat.lt_or_ge ((extent s b - L.H) % 2 ^ 32) (2 ^ 31) with hlt | hge
  · rw [psize_of_lt h hb hlt]
    omega
  · rw [psize_of_ge h hb hge]
    omega

/-! ## Memory -/

theorem extent_congr (hsize : t.size b = s.size b) (hwhole : b ∈ t.whole ↔ b ∈ s.whole) :
    extent t b = extent s b := by
  unfold extent
  rw [hsize]
  simp only [hwhole]

theorem header_clear (h : Spaced L s) (hc : c ∈ s.freelist ∨ c ∈ live s) (hb : b ∈ live s)
    (hne : c ≠ b) (hlo : b ≤ p) (hhi : p < b + extent s b) : p < c ∨ c + L.H ≤ p := by
  have hle := header_le_extent h.inv hc
  have hapart := h.blocks_apart hc (.inr hb) hne
  omega

theorem headers_clear {blocks : List Nat} (h : Spaced L s)
    (hblocks : ∀ c ∈ blocks, (c ∈ s.freelist ∨ c ∈ live s) ∧ c ≠ b) (hb : b ∈ live s) (hlo : b ≤ p)
    (hhi : p < b + extent s b) : ∀ r ∈ headers L blocks, p < r.1 ∨ r.1 + r.2 ≤ p := by
  intro r hr
  obtain ⟨c, hc, rfl⟩ := List.mem_map.mp hr
  obtain ⟨hmem, hne⟩ := hblocks c hc
  exact header_clear h hmem hb hne hlo hhi

theorem free_ne_live (h : Inv L s []) (hb : b ∈ live s) : ∀ c ∈ s.freelist,
    (c ∈ s.freelist ∨ c ∈ live s) ∧ c ≠ b := by
  intro c hc
  refine ⟨.inl hc, ?_⟩
  rintro rfl
  exact inv_free_not_live h hc hb

theorem xfreeMem_live (h : Spaced L s) (ht : Spaced L t) (hfrees : Frees s hdr t)
    (hhdr : hdr ∈ live s)
    (hb : b ∈ live s) (hne : b ≠ hdr) (hlo : b ≤ p) (hhi : p < b + extent s b) :
    xfreeMem L s t hdr junk mem p = mem p := by
  have hfree : b ∉ s.freelist := fun hf => inv_free_not_live h.inv hf hb
  obtain ⟨hsize, hwhole⟩ := xfree_same hfrees hne hfree
  have hb' : b ∈ live t := by
    rw [xfree_live h.inv hfrees]
    exact (mem_erase_of_ne hne).mpr hb
  have hhi' : p < b + extent t b := by rwa [extent_congr hsize hwhole]
  apply scribble_outside
  intro r hr
  rw [headers, map_cons, map_append] at hr
  rcases List.mem_cons.mp hr with rfl | hr
  · exact header_clear h (.inr hhdr) hb hne.symm hlo hhi
  · rcases List.mem_append.mp hr with hr | hr
    · exact headers_clear h (free_ne_live h.inv hb) hb hlo hhi r hr
    · exact headers_clear ht (free_ne_live ht.inv hb') hb' hlo hhi' r hr

section Call

variable {r : Heap × Option Nat} (hr : gukXmalloc L s size page = r)
include hr

theorem extent_xmalloc (ht : Inv L r.1 []) (hb : b ∈ live s) : extent r.1 b = extent s b :=
  extent_congr (xmalloc_same hr ht hb).1 (xmalloc_same hr ht hb).2

theorem live_xmalloc (hb : b ∈ live s) : b ∈ live r.1 := by
  cases hres : r.2 with
  | none =>
    rw [xmalloc_none hr hres]
    exact hb
  | some q =>
    obtain ⟨c, -, hperm⟩ := xmalloc_live hr hres
    exact hperm.mem_iff.mpr (mem_cons_of_mem c hb)

theorem xmallocMem_live (h : Spaced L s) (ht : Spaced L r.1) (hb : b ∈ live s)
    (hlo : b ≤ p) (hhi : p < b + extent s b) : xmallocMem L s junk mem r p = mem p := by
  have hb' := live_xmalloc hr hb
  have hhi' : p < b + extent r.1 b := by rwa [extent_xmalloc hr ht.inv hb]
  apply scribble_outside
  intro x hx
  rw [headers, map_append, map_append] at hx
  rcases List.mem_append.mp hx with hx | hx
  · rcases List.mem_append.mp hx with hx | hx
    · exact headers_clear h (free_ne_live h.inv hb) hb hlo hhi x hx
    · exact headers_clear ht (free_ne_live ht.inv hb') hb' hlo hhi' x hx
  · refine headers_clear ht ?_ hb' hlo hhi' x hx
    intro c hc
    obtain ⟨q, hq, rfl⟩ := map_eq_some_iff.mp (Option.mem_toList.mp hc)
    obtain ⟨c, rfl, hperm⟩ := xmalloc_live hr hq
    rw [Nat.add_sub_cancel]
    refine ⟨.inr (hperm.mem_iff.mpr mem_cons_self), ?_⟩
    rintro rfl
    exact (List.nodup_cons.mp (hperm.nodup_iff.mp (inv_live_nodup ht.inv))).1 hb

/-! ## Without an old block -/

theorem spaced_roomy (h : Spaced L s) (hlt : size < 2 ^ 64)
    (hfresh : ∀ a ∈ page, Fresh s (wanted L size) a) (hroomy : Roomy L size r) : Spaced L r.1 := by
  cases hres : r.2 with
  | none =>
    rw [xmalloc_none hr hres]
    exact h
  | some p => exact spaced_xmalloc hr h (roomy_size hr h hfresh hlt hroomy hres).2 hfresh

theorem fresh_block_iff (h : Spaced L s) (hlt : size < 2 ^ 64)
    (hfresh : ∀ a ∈ page, Fresh s (wanted L size) a) :
    (∀ mem junk junk', Reallocated L s mem none size (gukXrealloc L s mem junk junk' 0 size page)) ↔
      Roomy L size r := by
  have heq : ∀ mem junk junk', gukXrealloc L s mem junk junk' 0 size page =
      some ⟨r.1, xmallocMem L s junk mem r, r.2⟩ := fun _ _ _ => hr ▸ if_pos rfl
  simp only [heq, Reallocated]
  constructor
  · intro hall p hp
    have hresult := (hall (fun _ => 0) (fun _ => 0) (fun _ => 0)).2
    rw [mem_def.mp hp] at hresult
    obtain ⟨c, hc, hroom, -⟩ := hresult
    exact ⟨c, hc, hroom⟩
  · intro hroomy mem junk _
    have ht := spaced_roomy hr h hlt hfresh hroomy
    refine ⟨?_, ?_⟩
    · intro b hb _
      exact ⟨extent_xmalloc hr ht.inv hb, fun j _ hj =>
        xmallocMem_live hr h ht hb (by omega) (by omega)⟩
    · cases hres : r.2 with
      | none =>
        simp only [xmalloc_none hr hres]
        exact ⟨List.Perm.refl _, nofun⟩
      | some p =>
        obtain ⟨c, rfl, hperm⟩ := xmalloc_live hr hres
        obtain ⟨c', hc', hroom⟩ := hroomy _ hres
        obtain rfl : c = c' := Nat.add_right_cancel hc'
        exact ⟨c, rfl, hroom, nofun,
          .inr ⟨(List.nodup_cons.mp (hperm.nodup_iff.mp (inv_live_nodup ht.inv))).1, hperm⟩⟩

/-! ## With an old block -/

omit hr in
theorem xrealloc_in_place (hle : size ≤ toSizeT (psize L s b)) :
    gukXrealloc L s mem junk junk' (b + L.H) size page = some ⟨s, mem, some (b + L.H)⟩ := by
  have hpos := L.pos
  unfold gukXrealloc
  rw [if_neg (by omega)]
  simp only [Nat.add_sub_cancel]
  rw [if_pos hle]

theorem xrealloc_moves (hlt : ¬ size ≤ toSizeT (psize L s b)) :
    gukXrealloc L s mem junk junk' (b + L.H) size page =
      (copyOld r.2 (b + L.H) (psize L s b) (xmallocMem L s junk mem r)).bind fun mem =>
        match gukXfree L r.1 (b + L.H) with
        | .error _ => none
        | .ok t => some ⟨t, xfreeMem L r.1 t b junk' mem, r.2⟩ := by
  subst hr
  have hpos := L.pos
  unfold gukXrealloc
  rw [if_neg (by omega)]
  simp only [Nat.add_sub_cancel]
  rw [if_neg hlt]

theorem xmalloc_some_iff (h : Spaced L s) (hsize : size + L.H ≤ (2 ^ 31 - 1) * PAGE_SIZE) :
    r.2 ≠ none ↔ page ≠ none ∨ ∃ i ∈ s.freelist, blockSize L size ≤ s.size i := by
  by_cases hbig : PAGE_SIZE ≤ blockSize L size
  · have hA := L.align_le
    have hpos := L.pos
    have hfits := L.fits
    have hpages := pagesFor_bounds L size
    have hpage : PAGE_SIZE = 4096 := rfl
    rw [hpage] at hsize hfits hpages
    have hcount := (bmod_pos_iff (pagesFor L size)).mpr (by omega)
    have hfree : ¬ ∃ i ∈ s.freelist, blockSize L size ≤ s.size i := by
      rintro ⟨i, hi, hfit⟩
      have := (h.inv.core.free i hi).2
      omega
    rw [Ne, whole_none_iff hr hbig, pageCount_eq (by omega), or_iff_left (Int.not_le.mpr hcount),
      or_iff_left hfree]
  · rw [Ne, small_none_iff hr (not_le.mp hbig), not_and_or]
    simp only [not_forall, Nat.not_lt, exists_prop, Ne]

/-! ### The block that has been given out, and the free of the old one -/

theorem given_not_free (h : Spaced L s) (hfresh : ∀ a ∈ page, Fresh s (wanted L size) a)
    (hc : c + L.H ∈ r.2) :
    c ∉ r.1.freelist ∨ r.1.size c = 0 := by
  have hsplit : ∀ (t : Heap) (block : Nat), c ∉ t.freelist →
      c ∉ (maybeSplit L t c (blockSize L size) block).freelist ∨
        (maybeSplit L t c (blockSize L size) block).size c = 0 := by
    intro t block hnot
    by_cases hcut : 2 * L.H ≤ block - blockSize L size
    · rw [maybeSplit_cut hcut]
      by_cases hzero : blockSize L size = 0
      · simp only [update_self]
        exact .inr hzero
      · refine .inl ?_
        rw [mem_cons]
        rintro (he | hmem)
        · omega
        · exact hnot hmem
    · rw [maybeSplit_keep hcut]
      exact .inl hnot
  cases gives_of_eq hr with
  | refused | exhausted => cases hc
  | reused i _ hi =>
    obtain rfl : i = c := Nat.add_right_cancel (some.inj hc)
    apply hsplit
    have hnodup := (List.nodup_append.mp (List.nodup_append.mp h.inv.lists).2.1).1
    exact fun hmem => (hnodup.mem_erase_iff.mp hmem).1 rfl
  | newPage P hsmall hpage =>
    obtain rfl : P = c := Nat.add_right_cancel (some.inj hc)
    obtain ⟨hdvd, hpages, -⟩ := fresh_page h.inv hsmall (hfresh P hpage)
    apply hsplit
    exact fun hmem => inv_new_not_block h.inv hdvd hpages (.inr (.inl hmem))
  | whole d hbig hpage hcount =>
    obtain rfl : d = c := Nat.add_right_cancel (some.inj hc)
    obtain ⟨hdvd, hpages, -⟩ := fresh_whole h.inv hbig hcount (hfresh d hpage)
    exact .inl fun hmem => inv_new_not_block h.inv hdvd hpages (.inr (.inl hmem))

end Call

theorem mergeStep_zero {i : Nat} (hzero : m.size c = 0) (hne : m.hdr ≠ c) :
    (mergeStep m i).size c = 0 ∧ (mergeStep m i).hdr ≠ c := by
  unfold mergeStep
  split
  case isTrue => exact ⟨hzero, hne⟩
  case isFalse =>
    have hfirst : ∀ m' : Merge, (if i + m.size i = m.hdr then
        ⟨i, update m.size i (m.size i + m.size m.hdr), m.freelist.erase i⟩ else m) = m' →
        m'.size c = 0 ∧ m'.hdr ≠ c := by
      rintro m' rfl
      split
      case isTrue hadj =>
        have hic : i ≠ c := by
          rintro rfl
          rw [hzero] at hadj
          exact hne hadj.symm
        exact ⟨(update_of_ne hic.symm ..).trans hzero, hic⟩
      case isFalse => exact ⟨hzero, hne⟩
    simp only
    generalize hm' : (if i + m.size i = m.hdr then
        (⟨i, update m.size i (m.size i + m.size m.hdr), m.freelist.erase i⟩ : Merge) else m) = m'
    obtain ⟨hzero', hne'⟩ := hfirst m' hm'
    split
    case isTrue => exact ⟨(update_of_ne hne'.symm ..).trans hzero', hne'⟩
    case isFalse => exact ⟨hzero', hne'⟩

theorem merge_zero {rest : List Nat} (hzero : m.size c = 0) (hne : m.hdr ≠ c) :
    (rest.foldl mergeStep m).size c = 0 := by
  induction rest generalizing m with
  | nil => exact hzero
  | cons i rest ih =>
    obtain ⟨hzero', hne'⟩ := mergeStep_zero (i := i) hzero hne
    exact ih hzero' hne'

theorem extent_xfree (hfrees : Frees s hdr t) (hne : c ≠ hdr) (hc : c ∉ s.freelist ∨ s.size c = 0) :
    extent t c = extent s c := by
  rcases hc with hfree | hzero
  · obtain ⟨hsize, hwhole⟩ := xfree_same hfrees hne hfree
    exact extent_congr hsize hwhole
  · have hmerged : (merged s hdr).size c = s.size c := (merge_zero hzero hne.symm).trans hzero.symm
    apply extent_congr
    · cases hfrees with
      | whole => rfl
      | page | listed => exact hmerged
    · rw [xfree_whole hfrees]
      exact mem_erase_of_ne hne

theorem in_place_iff (h : Spaced L s) (hb : b ∈ live s) (hle : size ≤ toSizeT (psize L s b)) :
    (∀ mem junk junk', Reallocated L s mem (some b) size
        (gukXrealloc L s mem junk junk' (b + L.H) size page)) ↔ size ≤ extent s b - L.H := by
  have hcap := header_le_extent h.inv (.inr hb)
  simp only [xrealloc_in_place hle, Reallocated]
  constructor
  · intro hall
    obtain ⟨-, c, hc, hroom, -⟩ := hall (fun _ => 0) (fun _ => 0) (fun _ => 0)
    obtain rfl : b = c := Nat.add_right_cancel hc
    omega
  · intro hfits mem _ _
    refine ⟨fun d _ _ => ⟨rfl, fun _ _ _ => rfl⟩, b, rfl, by omega, ?_,
      .inl ⟨rfl, List.Perm.refl _⟩⟩
    intro d hd j _
    cases hd
    rfl

section Move

variable {r : Heap × Option Nat} (hr : gukXmalloc L s size page = r)
  (hlt : ¬ size ≤ toSizeT (psize L s b))
include hr hlt

theorem not_moved_none (h : Spaced L s) (hb : b ∈ live s) (hnone : r.2 = none) :
    ¬ Reallocated L s mem (some b) size (gukXrealloc L s mem junk junk' (b + L.H) size page) := by
  rw [xrealloc_moves hr hlt, hnone, xmalloc_none hr hnone]
  unfold copyOld
  simp only
  split
  case isFalse => exact id
  case isTrue =>
    obtain ⟨t, hok, -⟩ := inv_xfree h.inv hb
    rw [bind_some, hok]
    rintro ⟨-, hperm, -⟩
    have hlength := hperm.length_eq
    simp only [xfree_live h.inv (gukXfree_frees hok), length_erase_of_mem hb] at hlength
    have := length_pos_of_mem hb
    omega

theorem not_moved_negative (hneg : psize L s b < 0) :
    ¬ Reallocated L s mem (some b) size (gukXrealloc L s mem junk junk' (b + L.H) size page) := by
  have hcopy : copyOld r.2 (b + L.H) (psize L s b) (xmallocMem L s junk mem r) = none := by
    unfold copyOld
    split
    · exact if_neg (by omega)
    · exact if_pos hneg
  rw [xrealloc_moves hr hlt, hcopy]
  exact id

theorem xrealloc_moved (hpos : 0 ≤ psize L s b) (hsome : r.2 = some (c + L.H)) :
    gukXrealloc L s mem junk junk' (b + L.H) size page =
      match gukXfree L r.1 (b + L.H) with
      | .error _ => none
      | .ok t =>
          some ⟨t, xfreeMem L r.1 t b junk' (memcpy (xmallocMem L s junk mem r) (c + L.H) (b + L.H)
          (psize L s b).toNat), some (c + L.H)⟩ := by
  rw [xrealloc_moves hr hlt]
  conv_lhs => rw [hsome, copyOld, if_neg (Int.not_lt.mpr hpos), bind_some]

end Move

theorem scribble_zero {regions : List (Nat × Nat)} (hzero : mem p = 0) :
    scribble regions (fun _ => 0) mem p = 0 := by
  unfold scribble
  split
  · rfl
  · exact hzero

section Moved

variable {r : Heap × Option Nat} (hr : gukXmalloc L s size page = r) (h : Spaced L s)
  (hb : b ∈ live s)
  (hfresh : ∀ a ∈ page, Fresh s (wanted L size) a) (hlt : ¬ size ≤ toSizeT (psize L s b))
  (hpos : 0 ≤ psize L s b) (hsome : r.2 = some (c + L.H)) (hnew : c ∉ live s)
include hr h hb hfresh hlt hpos hsome hnew

theorem moved_only_if (hall : ∀ mem junk junk', Reallocated L s mem (some b) size
      (gukXrealloc L s mem junk junk' (b + L.H) size page)) :
    Roomy L size r ∧ min (extent s b - L.H) size ≤ (psize L s b).toNat := by
  have hcb : c ≠ b := by
    rintro rfl
    exact hnew hb
  simp only [xrealloc_moved hr hlt hpos hsome] at hall
  cases hok : gukXfree L r.1 (b + L.H) with
  | error e =>
    simp only [hok] at hall
    exact absurd (hall (fun _ => 0) (fun _ => 0) (fun _ => 0)) id
  | ok t =>
    simp only [hok, Reallocated] at hall
    constructor
    · obtain ⟨-, c', hc', hroom, -⟩ := hall (fun _ => 0) (fun _ => 0) (fun _ => 0)
      obtain rfl : c = c' := Nat.add_right_cancel hc'
      rw [extent_xfree (gukXfree_frees hok) hcb (given_not_free hr h hfresh hsome)] at hroom
      intro p hp
      obtain rfl : c + L.H = p := some.inj (hsome.symm.trans hp)
      exact ⟨c, rfl, hroom⟩
    · by_contra hlarge
      -- the first byte that is not copied is the only one that is not 0
      obtain ⟨-, c', hc', -, hdata, -⟩ := hall
        (fun p => if p = b + L.H + (psize L s b).toNat then 1 else 0) (fun _ => 0) (fun _ => 0)
      obtain rfl : c = c' := Nat.add_right_cancel hc'
      have hbyte := hdata b rfl (psize L s b).toNat (not_le.mp hlarge)
      rw [if_pos rfl] at hbyte
      have hzero : xfreeMem L r.1 t b (fun _ => 0)
          (memcpy (xmallocMem L s (fun _ => 0)
            (fun p => if p = b + L.H + (psize L s b).toNat then 1 else 0) r)
            (c + L.H) (b + L.H) (psize L s b).toNat) (c + L.H + (psize L s b).toNat) = 0 := by
        apply scribble_zero
        rw [memcpy_outside (.inr le_rfl)]
        apply scribble_zero
        exact if_neg (by omega)
      rw [hzero] at hbyte
      cases hbyte

theorem moved_if (hsize : size < 2 ^ 64) (hroomy : Roomy L size r)
    (hcap : (psize L s b).toNat = extent s b - L.H) (hgrow : extent s b - L.H ≤ size) :
    Reallocated L s mem (some b) size (gukXrealloc L s mem junk junk' (b + L.H) size page) := by
  have hcb : c ≠ b := by
    rintro rfl
    exact hnew hb
  have ht := spaced_roomy hr h hsize hfresh hroomy
  obtain ⟨c', hc', hroom⟩ := hroomy _ hsome
  obtain rfl : c = c' := Nat.add_right_cancel hc'
  obtain ⟨c', hc', hperm⟩ := xmalloc_live hr hsome
  obtain rfl : c = c' := Nat.add_right_cancel hc'
  have hclive := hperm.mem_iff.mpr mem_cons_self
  have hblive := live_xmalloc hr hb
  obtain ⟨u, hok, -⟩ := inv_xfree ht.inv hblive
  have hu := spaced_xfree ht hblive hok
  have hfrees := gukXfree_frees hok
  have hext : ∀ d ∈ live r.1, d ≠ b → extent u d = extent r.1 d := fun d hd hne =>
    extent_xfree hfrees hne (.inl fun hf => inv_free_not_live ht.inv hf hd)
  rw [xrealloc_moved hr hlt hpos hsome, hok]
  refine ⟨?_, c, rfl, ?_, ?_, ?_⟩
  · intro d hd hold
    have hdb : d ≠ b := fun he => hold (congrArg some he.symm)
    have hdc : c ≠ d := by
      rintro rfl
      exact hnew hd
    have hdlive := live_xmalloc hr hd
    have hdext := extent_xmalloc hr ht.inv hd
    refine ⟨(hext d hdlive hdb).trans hdext, ?_⟩
    intro j _ hj
    have hapart := ht.blocks_apart (.inr hclive) (.inr hdlive) hdc
    simp only
    rw [xfreeMem_live ht hu hfrees hblive hdlive hdb (by omega) (by omega),
      memcpy_outside (by omega),
      xmallocMem_live hr h ht hd (by omega) (by omega)]
  · simp only [hext c hclive hcb]
    exact hroom
  · intro d hd j hj
    cases hd
    have hbext := header_le_extent h.inv (.inr hb)
    simp only
    rw [xfreeMem_live ht hu hfrees hblive hclive hcb (by omega) (by omega),
      memcpy_inside (by omega),
      xmallocMem_live hr h ht hb (by omega) (by omega)]
  · refine .inr ⟨hnew, ?_⟩
    simp only [Option.elim_some, xfree_live ht.inv hfrees]
    have herase := hperm.erase b
    rwa [erase_cons_tail (by simpa using hcb)] at herase

end Moved

theorem moved_iff (h : Spaced L s) (hb : b ∈ live s) (hsize : size < 2 ^ 64)
    (hfresh : ∀ a ∈ page, Fresh s (wanted L size) a) (hlt : ¬ size ≤ toSizeT (psize L s b)) :
    (∀ mem junk junk', Reallocated L s mem (some b) size
        (gukXrealloc L s mem junk junk' (b + L.H) size page)) ↔
      extent s b - L.H < 2 ^ 31 ∧ size + L.H ≤ (2 ^ 31 - 1) * PAGE_SIZE ∧
        (page ≠ none ∨ ∃ i ∈ s.freelist, blockSize L size ≤ s.size i) := by
  rcases Nat.lt_or_ge ((extent s b - L.H) % 2 ^ 32) (2 ^ 31) with hsmall | hlarge
  · have hn := psize_of_lt h hb hsmall
    have hpos : 0 ≤ psize L s b := by omega
    have hgrow : (extent s b - L.H) % 2 ^ 32 < size := by
      rw [hn] at hlt
      unfold toSizeT at hlt
      omega
    cases hres : (gukXmalloc L s size page).2 with
    | none =>
      refine iff_of_false
        (fun hall => not_moved_none rfl hlt h hb hres (hall (fun _ => 0) (fun _ => 0) (fun _ => 0)))
          ?_
      rintro ⟨-, hfits, hroom⟩
      exact (xmalloc_some_iff rfl h hfits).mpr hroom hres
    | some p =>
      obtain ⟨c, rfl, -, hnew, -⟩ := given rfl h hfresh hsize hres
      constructor
      · intro hall
        obtain ⟨hroomy, hcopied⟩ := moved_only_if rfl h hb hfresh hlt hpos hres hnew hall
        have hfits := (roomy_size rfl h hfresh hsize hroomy hres).1
        have hsome : (gukXmalloc L s size page).2 ≠ none := by simp [hres]
        exact ⟨by omega, hfits, (xmalloc_some_iff rfl h hfits).mp hsome⟩
      · rintro ⟨hcap, hfits, -⟩ mem junk junk'
        have hroomy := (roomy_iff rfl h hfresh hsize).mpr (.inl hfits)
        exact moved_if rfl h hb hfresh hlt hpos hres hnew hsize hroomy (by omega) (by omega)
  · have hneg : psize L s b < 0 := by
      rw [psize_of_ge h hb hlarge]
      omega
    refine iff_of_false
      (fun hall => not_moved_negative rfl hlt hneg (hall (fun _ => 0) (fun _ => 0) (fun _ => 0))) ?_
    rintro ⟨hcap, -⟩
    omega

theorem old_block_iff (h : Spaced L s) (hb : b ∈ live s) (hsize : size < 2 ^ 64)
    (hfresh : ∀ a ∈ page, Fresh s (wanted L size) a) :
    (∀ mem junk junk', Reallocated L s mem (some b) size
        (gukXrealloc L s mem junk junk' (b + L.H) size page)) ↔ Fitting L s size page (some b) := by
  unfold Fitting
  by_cases hle : size ≤ toSizeT (psize L s b)
  · rw [in_place_iff h hb hle]
    constructor
    · intro hfits
      exact .inl ⟨hfits, (le_toSizeT_iff h hb hfits).mp hle⟩
    · rintro (⟨hfits, -⟩ | ⟨hgrow, hcap, -⟩)
      · exact hfits
      · rw [psize_of_lt h hb (by omega)] at hle
        unfold toSizeT at hle
        omega
  · rw [moved_iff h hb hsize hfresh hle]
    constructor
    · rintro ⟨hcap, hfits, hroom⟩
      refine .inr ⟨?_, hcap, hfits, hroom⟩
      rw [psize_of_lt h hb (by omega)] at hle
      unfold toSizeT at hle
      omega
    · rintro (⟨hfits, hint⟩ | ⟨-, hmoved⟩)
      · exact absurd ((le_toSizeT_iff h hb hfits).mpr hint) hle
      · exact hmoved

/-- In every reachable heap, a reallocation to every size loses nothing exactly where the old
capacity and the new size are measured rightly and, if the block has to be moved, there is memory
for it. -/
theorem xrealloc_keeps_iff (L : Layout) (s : Heap) (h : Reach (step L) anyStep Initial s)
    (old : Option Nat)
    (hold : ∀ b ∈ old, b ∈ live s) (size : Nat) (hsize : size < 2 ^ 64) (page : Option Nat)
    (hfresh : ∀ a ∈ page, Fresh s (wanted L size) a) :
    (∀ mem junk junk', Reallocated L s mem old size
        (gukXrealloc L s mem junk junk' (pointer L old) size page)) ↔
          Fitting L s size page old := by
  have hs := spaced_run h
  cases old with
  | none => exact (fresh_block_iff rfl hs hsize hfresh).trans (roomy_iff rfl hs hfresh hsize)
  | some b => exact old_block_iff hs (hold b rfl) hsize hfresh

def oneBlock : Heap := (gukXmalloc hdrLayout emptyHeap 100 (some 4096)).1

theorem oneBlock_reached : Reach (step hdrLayout) anyStep Initial oneBlock := by
  have h₀ : Reach (step hdrLayout) anyStep Initial emptyHeap :=
    .start ⟨rfl, rfl, rfl, rfl, rfl, rfl⟩
  have hstep : step hdrLayout emptyHeap (.malloc 100 (some 4096)) = some oneBlock := by
    unfold step
    exact if_pos (by decide)
  exact .next _ h₀ trivial hstep

theorem xrealloc_keeps_grown : Reallocated hdrLayout oneBlock (fun a => a) (some 4096) 200
    (gukXrealloc hdrLayout oneBlock (fun a => a) (fun _ => 0) (fun _ => 0) 4120 200 none) :=
  (xrealloc_keeps_iff hdrLayout oneBlock oneBlock_reached (some 4096) (by decide) 200 (by decide)
    none
    nofun).mpr (.inr (by decide)) _ _ _

theorem xrealloc_not_keeping : Reach (step hdrLayout) anyStep Initial oneBlock ∧
    4096 ∈ live oneBlock ∧
    ¬ Reallocated hdrLayout oneBlock (fun _ => 0) (some 4096) 5000
      (gukXrealloc hdrLayout oneBlock (fun _ => 0) (fun _ => 0) (fun _ => 0) 4120 5000 none) := by
  have hstops :
      (gukXrealloc hdrLayout oneBlock (fun _ => 0) (fun _ => 0) (fun _ => 0) 4120 5000
      none).isNone := by
    decide +kernel
  refine ⟨oneBlock_reached, by decide, ?_⟩
  rw [isNone_iff_eq_none.mp hstops]
  exact id

end Guk.Xmalloc
