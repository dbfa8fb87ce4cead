import Guk.XmallocRun
import Mathlib.Data.List.Pairwise

/-!
# The room that `guk_xmalloc` gives

A block has room for the request behind its header, and no two blocks overlap, as long
as the size that is computed from the request does not wrap and the number of pages is
an `int`.
-/
namespace Guk.Xmalloc

open Runs Tiling Function List

def extent (s : Heap) (b : Nat) : Nat :=
  if b ∈ s.whole then (pageCount (s.size b)).toNat * PAGE_SIZE else s.size b

def Served (L : Layout) (s : Heap) (asize : Nat) (r : Heap × Option Nat) : Prop :=
  ∀ p ∈ r.2, L.A ∣ p ∧ ∃ b, p = b + L.H ∧ b ∉ live s ∧ b ∈ live r.1 ∧ p + asize ≤ b + extent r.1 b ∧
    ∀ c ∈ live r.1, c ≠ b → p + asize ≤ c ∨ c + extent r.1 c ≤ p

def Roomy (L : Layout) (asize : Nat) (r : Heap × Option Nat) : Prop :=
  ∀ p ∈ r.2, ∃ b, p = b + L.H ∧ p + asize ≤ b + extent r.1 b

def pagesFor (L : Layout) (asize : Nat) : Nat := (asize + L.H + PAGE_SIZE - 1) / PAGE_SIZE

def Measured (L : Layout) (s : Heap) (asize : Nat) (page : Option Nat) : Prop :=
  asize + L.H ≤ (2 ^ 31 - 1) * PAGE_SIZE ∨
    (asize + L.H + L.A ≤ 2 ^ 64 ∧
      (page = none ∨ pagesFor L asize % 2 ^ 32 = 0 ∨ 2 ^ 31 ≤ pagesFor L asize % 2 ^ 32)) ∨
    (2 ^ 64 < asize + L.H + L.A ∧ s.freelist = [] ∧ page = none)

variable {L : Layout} {s t : Heap} {m : Merge} {rest : List Nat}
  {hdr i n a b c asize size block p : Nat} {page : Option Nat}

/-! ## Sizes -/

theorem Layout.align_le (L : Layout) : L.A ≤ L.H := Nat.le_of_dvd L.pos L.dvd

theorem Layout.align_pos (L : Layout) : 0 < L.A := by
  obtain ⟨k, -, hA⟩ := L.pow
  rw [hA]
  exact Nat.two_pow_pos k

theorem Layout.align_dvd_page (L : Layout) : L.A ∣ PAGE_SIZE := by
  obtain ⟨k, -, hA⟩ := L.pow
  have hle := L.align_le
  have hfits := L.fits
  have hk : k ≤ 12 := by
    rw [hA] at hle
    apply (Nat.pow_le_pow_iff_right (show 1 < 2 by decide)).mp
    unfold PAGE_SIZE at hfits
    omega
  rw [hA]
  exact Nat.pow_dvd_pow 2 hk

theorem alignUp_mod {k : Nat} (hk : k < 64) (size : Nat) :
    alignUp size (2 ^ k) = (size + 2 ^ k - 1) % 2 ^ 64 / 2 ^ k * 2 ^ k := by
  rw [alignUp, and_low hk (Nat.mod_lt _ (by decide))]

theorem dvd_blockSize (L : Layout) (asize : Nat) : L.A ∣ blockSize L asize := by
  obtain ⟨k, hk, hA⟩ := L.pow
  rw [blockSize, hA, alignUp_mod hk]
  exact Nat.dvd_mul_left ..

theorem blockSize_eq (h : asize + L.H + L.A ≤ 2 ^ 64) :
    blockSize L asize = (asize + L.H + L.A - 1) / L.A * L.A := by
  have hpos := L.align_pos
  obtain ⟨k, hk, hA⟩ := L.pow
  rw [blockSize, Nat.mod_eq_of_lt (by omega), hA, alignUp_mod hk, ← hA, Nat.mod_eq_of_lt (by omega)]

theorem le_blockSize (h : asize + L.H + L.A ≤ 2 ^ 64) : asize + L.H ≤ blockSize L asize := by
  have hdiv := Nat.div_add_mod (asize + L.H + L.A - 1) L.A
  have hmod := Nat.mod_lt (asize + L.H + L.A - 1) L.align_pos
  rw [blockSize_eq h, Nat.mul_comm]
  omega

theorem blockSize_wrap (hlt : asize < 2 ^ 64) (h : 2 ^ 64 < asize + L.H + L.A) :
    blockSize L asize ≤ L.H := by
  have hpos := L.align_pos
  have hle := L.align_le
  have hfits := L.fits
  obtain ⟨q, hq⟩ := L.dvd
  obtain ⟨k, hk, hA⟩ := L.pow
  have hmul : ∀ x, x ≤ L.H + L.A - 1 → x / L.A * L.A ≤ L.H := by
    intro x hx
    have hdiv : x / L.A < q + 1 := by
      rw [Nat.div_lt_iff_lt_mul hpos, Nat.add_mul, Nat.one_mul, Nat.mul_comm q, ← hq]
      omega
    rw [hq, Nat.mul_comm L.A]
    exact Nat.mul_le_mul_right L.A (Nat.lt_succ_iff.mp hdiv)
  rw [blockSize, hA, alignUp_mod hk, ← hA]
  apply hmul
  unfold PAGE_SIZE at hfits
  omega

theorem pages_blockSize (h : asize + L.H + L.A ≤ 2 ^ 64) :
    (blockSize L asize + PAGE_SIZE - 1) / PAGE_SIZE = pagesFor L asize := by
  have hpos := L.align_pos
  obtain ⟨q, hq⟩ := L.align_dvd_page
  have hqpos : 0 < q := Nat.pos_of_ne_zero fun h0 => by
    rw [h0] at hq
    cases hq
  have hfirst : ∀ x, (x * L.A + PAGE_SIZE - 1) / L.A = x + q - 1 := by
    intro x
    have : x * L.A + PAGE_SIZE - 1 = (L.A - 1) + L.A * (x + q - 1) := by
      rw [hq]
      obtain ⟨r, rfl⟩ : ∃ r, q = r + 1 := ⟨q - 1, by omega⟩
      rw [← Nat.add_assoc, Nat.add_sub_cancel, Nat.mul_add, Nat.mul_add, Nat.mul_comm x]
      omega
    rw [this, Nat.add_mul_div_left _ _ hpos, Nat.div_eq_of_lt (by omega), Nat.zero_add]
  have hsecond : (asize + L.H + PAGE_SIZE - 1) / L.A = (asize + L.H + L.A - 1) / L.A + q - 1 := by
    have : asize + L.H + PAGE_SIZE - 1 = (asize + L.H + L.A - 1) + L.A * (q - 1) := by
      rw [hq]
      obtain ⟨r, rfl⟩ : ∃ r, q = r + 1 := ⟨q - 1, by omega⟩
      rw [Nat.add_sub_cancel, Nat.mul_add]
      omega
    rw [this, Nat.add_mul_div_left _ _ hpos, Nat.add_sub_assoc hqpos]
  rw [pagesFor, blockSize_eq h]
  conv_lhs => rw [hq, ← Nat.div_div_eq_div_mul, ← hq, hfirst]
  conv_rhs => rw [hq, ← Nat.div_div_eq_div_mul, ← hq, hsecond]

theorem pagesFor_bounds (L : Layout) (asize : Nat) :
    asize + L.H ≤ pagesFor L asize * PAGE_SIZE ∧
      pagesFor L asize * PAGE_SIZE < asize + L.H + PAGE_SIZE := by
  unfold pagesFor PAGE_SIZE
  omega

theorem pageCount_eq (h : asize + L.H + L.A ≤ 2 ^ 64) :
    pageCount (alignUp (blockSize L asize) PAGE_SIZE) = Int.bmod (pagesFor L asize) (2 ^ 32) := by
  have hpages := pages_blockSize h
  have hcut :
      alignUp (blockSize L asize) PAGE_SIZE / PAGE_SIZE % 2 ^ 32 = pagesFor L asize % 2 ^ 32 := by
    have hmod : alignUp (blockSize L asize) PAGE_SIZE =
        (blockSize L asize + PAGE_SIZE - 1) % 2 ^ 64 / PAGE_SIZE * PAGE_SIZE :=
          alignUp_mod (k := 12) (by decide) _
    rw [hmod, Nat.mul_div_cancel _ page_pos, ← hpages]
    unfold PAGE_SIZE
    omega
  unfold pageCount
  rw [← Int.emod_bmod, ← Int.emod_bmod (pagesFor L asize : Int)]
  congr 1
  omega

theorem bmod_pos_iff (n : Nat) : 0 < Int.bmod n (2 ^ 32) ↔ 0 < n % 2 ^ 32 ∧
    n % 2 ^ 32 < 2 ^ 31 := by
  rw [Int.bmod_def]
  split <;> omega

theorem toNat_bmod {n : Nat} (h : 0 < Int.bmod n (2 ^ 32)) :
    (Int.bmod n (2 ^ 32)).toNat = n % 2 ^ 32 := by
  have := (bmod_pos_iff n).mp h
  rw [Int.bmod_def, if_pos (by omega)]
  omega

/-! ## Blocks do not overlap -/

def Clear (r q : Nat × Nat) : Prop := r.1 + r.2 * PAGE_SIZE ≤ q.1 ∨ q.1 + q.2 * PAGE_SIZE ≤ r.1

instance : Std.Symm Clear := ⟨fun _ _ => Or.symm⟩

structure Spaced (L : Layout) (s : Heap) : Prop where
  inv : Inv L s []
  sizes : ∀ b, b ∈ s.freelist ∨ b ∈ s.small → L.A ∣ s.size b
  wholeSizes : ∀ b ∈ s.whole, PAGE_SIZE ∣ s.size b
  apart : (held s).Pairwise Clear

theorem extent_whole (h : b ∈ s.whole) : extent s b = (pageCount (s.size b)).toNat * PAGE_SIZE :=
  if_pos h

theorem extent_block (h : Inv L s []) (hb : b ∈ s.freelist ∨ b ∈ s.small) : extent s b = s.size b :=
  if_neg (inv_block_not_whole h (.inr hb))

theorem Spaced.dvd (h : Spaced L s) (hb : b ∈ s.freelist ∨ b ∈ s.small) : L.A ∣ b := by
  obtain ⟨P, hP, hle, hlt⟩ := h.inv.core.home b (.inr hb)
  apply tiled_dvd (h.inv.core.tiled P hP) (Nat.dvd_trans L.align_dvd_page (h.inv.core.aligned P hP))
    ?_ (.inr hb)
    hle hlt
  rintro c (hc | hc)
  · cases hc
  · exact h.sizes c hc

theorem Spaced.whole_apart (h : Spaced L s) (hb : b ∈ s.freelist ∨ b ∈ s.small) (hc : c ∈ s.whole) :
    b + extent s b ≤ c ∨ c + extent s c ≤ b := by
  obtain ⟨P, hP, hle, hlt⟩ := h.inv.core.home b (.inr hb)
  have hend := (core_bounds h.inv.core hP (.inr hb) hle hlt).2
  have hne : (P, 1) ≠ (c, (pageCount (s.size c)).toNat) := by
    intro heq
    have hPc : P = c := congrArg Prod.fst heq
    exact (h.inv.whole c hc).2.2 (hPc ▸ hP)
  have hclear := h.apart.forall (mem_pages_held hP) (mem_whole_held hc) hne
  rw [extent_block h.inv hb, extent_whole hc]
  simp only [Clear] at hclear
  omega

theorem Spaced.blocks_apart (h : Spaced L s) (hb : b ∈ s.freelist ∨ b ∈ live s)
    (hc : c ∈ s.freelist ∨ c ∈ live s) (hne : b ≠ c) : b + extent s b ≤ c ∨ c + extent s c ≤ b := by
  have hkind : ∀ x, x ∈ s.freelist ∨ x ∈ live s → (x ∈ s.freelist ∨ x ∈ s.small) ∨ x ∈ s.whole := by
    intro x hx
    rw [or_assoc, ← mem_append]
    exact hx
  rcases hkind b hb with hb | hb <;> rcases hkind c hc with hc | hc
  · obtain ⟨P, hP, hPb, hPb'⟩ := h.inv.core.home b (.inr hb)
    obtain ⟨Q, hQ, hQc, hQc'⟩ := h.inv.core.home c (.inr hc)
    rw [extent_block h.inv hb, extent_block h.inv hc]
    by_cases hPQ : P = Q
    · subst hPQ
      have htiled := h.inv.core.tiled P hP
      rcases Nat.lt_or_gt_of_ne hne with hlt | hlt
      · exact .inl (tiled_apart htiled (.inr hb) hPb (.inr hc) hlt hQc')
      · exact .inr (tiled_apart htiled (.inr hc) hQc (.inr hb) hlt hPb')
    · have hbend := (core_bounds h.inv.core hP (.inr hb) hPb hPb').2
      have hcend := (core_bounds h.inv.core hQ (.inr hc) hQc hQc').2
      have hclear := h.apart.forall (mem_pages_held hP) (mem_pages_held hQ)
        fun heq => hPQ (congrArg Prod.fst heq)
      simp only [Clear] at hclear
      omega
  · exact h.whole_apart hb hc
  · exact (h.whole_apart hc hb).symm
  · rw [extent_whole hb, extent_whole hc]
    exact h.apart.forall (mem_whole_held hb) (mem_whole_held hc) fun heq =>
      hne (congrArg Prod.fst heq)

/-! ## Live blocks -/

theorem inv_live_nodup (h : Inv L s []) : (live s).Nodup := by
  have hsmall := (List.nodup_append.mp (List.nodup_append.mp h.lists).2.1).2.1
  apply List.nodup_append.mpr
  refine ⟨hsmall, h.wholeNodup, ?_⟩
  rintro b hb c hc rfl
  exact inv_block_not_whole h (.inr (.inr hb)) hc

theorem inv_new_not_live (h : Inv L s []) (hdvd : PAGE_SIZE ∣ a) (hpages : a ∉ s.pages)
    (hwhole : a ∉ s.whole) :
    a ∉ live s := by
  intro hl
  rcases List.mem_append.mp hl with hs | hw
  · exact inv_new_not_block h hdvd hpages (.inr (.inr hs))
  · exact hwhole hw

/-! ## What `guk_xmalloc` does -/

theorem maybeSplit_frame (L : Layout) (s : Heap) (hdr size block : Nat) :
    (maybeSplit L s hdr size block).whole = s.whole ∧
    (maybeSplit L s hdr size block).pages = s.pages ∧
    (maybeSplit L s hdr size block).obtained = s.obtained ∧
    (maybeSplit L s hdr size block).returned = s.returned := by
  by_cases h : 2 * L.H ≤ block - size
  · rw [maybeSplit_cut h]
    exact ⟨rfl, rfl, rfl, rfl⟩
  · rw [maybeSplit_keep h]
    exact ⟨rfl, rfl, rfl, rfl⟩

theorem maybeSplit_hdr (L : Layout) (s : Heap) (hdr : Nat) (hle : size ≤ block) :
    size ≤ (maybeSplit L s hdr size block).size hdr ∧
      (maybeSplit L s hdr size block).size hdr ≤ block := by
  by_cases h : 2 * L.H ≤ block - size
  · rw [maybeSplit_cut h]
    simp only [update_self]
    exact ⟨le_refl size, hle⟩
  · rw [maybeSplit_keep h]
    simp only [update_self]
    exact ⟨hle, le_refl block⟩

theorem maybeSplit_other (hne : b ≠ hdr) (hfree : b ∉ (maybeSplit L s hdr size block).freelist) :
    (maybeSplit L s hdr size block).size b = s.size b := by
  by_cases h : 2 * L.H ≤ block - size
  · rw [maybeSplit_cut h] at hfree ⊢
    have hextra : b ≠ hdr + size := by
      rintro rfl
      exact hfree mem_cons_self
    simp only [update_of_ne hne, update_of_ne hextra]
  · rw [maybeSplit_keep h]
    exact update_of_ne hne ..

theorem dvd_update {f : Nat → Nat} {S : Nat → Prop} {d v : Nat} (h : ∀ x, S x → d ∣ f x)
    (hv : d ∣ v) :
    ∀ x, S x ∨ x = i → d ∣ update f i v x := by
  intro x hx
  by_cases hxi : x = i
  · rw [hxi, update_self]
    exact hv
  · rw [update_of_ne hxi]
    exact h x (hx.resolve_right hxi)

theorem sizes_maybeSplit (h : ∀ b, b ∈ s.freelist ∨ b ∈ s.small → L.A ∣ s.size b)
    (hsize : L.A ∣ size)
    (hblock : L.A ∣ block) : ∀ b, b ∈ (maybeSplit L s hdr size block).freelist ∨
    b ∈ hdr :: s.small →
      L.A ∣ (maybeSplit L s hdr size block).size b := by
  intro b hb
  by_cases hleft : 2 * L.H ≤ block - size
  · rw [maybeSplit_cut hleft] at hb ⊢
    apply dvd_update (dvd_update h (Nat.dvd_sub hblock hsize)) hsize
    simp only [mem_cons] at hb
    tauto
  · rw [maybeSplit_keep hleft] at hb ⊢
    apply dvd_update h hblock
    simp only [mem_cons] at hb
    tauto

theorem dvd_alignUp (size : Nat) : PAGE_SIZE ∣ alignUp size PAGE_SIZE := by
  have hmod : alignUp size PAGE_SIZE = (size + PAGE_SIZE - 1) % 2 ^ 64 / PAGE_SIZE * PAGE_SIZE :=
    alignUp_mod (k := 12) (by decide) size
  rw [hmod]
  exact Nat.dvd_mul_left ..

section Call

variable {r : Heap × Option Nat} (hr : gukXmalloc L s asize page = r)
include hr

theorem xmalloc_live (hp : p ∈ r.2) :
    ∃ b, p = b + L.H ∧ (live r.1).Perm (b :: live s) := by
  cases gives_of_eq hr with
  | refused | exhausted => cases hp
  | reused b | newPage b =>
    cases hp
    refine ⟨b, rfl, ?_⟩
    simp only [live, (maybeSplit_frame ..).1]
    exact List.Perm.refl _
  | whole b =>
    cases hp
    exact ⟨b, rfl, perm_middle⟩

theorem xmalloc_none (h : r.2 = none) : r.1 = s := by
  cases gives_of_eq hr with
  | refused | exhausted => rfl
  | reused | newPage | whole => cases h

theorem small_none_iff (hsmall : blockSize L asize < PAGE_SIZE) :
    r.2 = none ↔ page = none ∧ ∀ i ∈ s.freelist, s.size i < blockSize L asize := by
  cases gives_of_eq hr with
  | refused hbig | whole b hbig => exact absurd hbig (not_le.mpr hsmall)
  | exhausted _ hfree hnone => exact iff_of_true rfl ⟨hnone, hfree⟩
  | reused i _ hi hfit => exact iff_of_false nofun fun h => not_lt.mpr hfit (h.2 i hi)
  | newPage P _ hpage => exact iff_of_false nofun fun h => nomatch hpage.symm.trans h.1

theorem whole_none_iff (hbig : PAGE_SIZE ≤ blockSize L asize) :
    r.2 = none ↔
      page = none ∨ pageCount (alignUp (blockSize L asize) PAGE_SIZE) ≤ 0 := by
  cases gives_of_eq hr with
  | refused _ hnone => exact iff_of_true rfl hnone
  | exhausted hsmall | reused i hsmall | newPage P hsmall => exact absurd hbig (not_le.mpr hsmall)
  | whole b _ hpage hcount =>
    apply iff_of_false nofun
    rintro (hnone | hle)
    · exact nomatch hpage.symm.trans hnone
    · exact Int.not_le.mpr hcount hle

theorem xmalloc_same (ht : Inv L r.1 []) (hb : b ∈ live s) :
    r.1.size b = s.size b ∧
      (b ∈ r.1.whole ↔ b ∈ s.whole) := by
  cases hres : r.2 with
  | none =>
    rw [xmalloc_none hr hres]
    exact ⟨rfl, Iff.rfl⟩
  | some p =>
    obtain ⟨c, hc, hperm⟩ := xmalloc_live hr hres
    have hnodup := hperm.nodup_iff.mp (inv_live_nodup ht)
    have hne : b ≠ c := by
      rintro rfl
      exact (List.nodup_cons.mp hnodup).1 hb
    have hfree : b ∉ r.1.freelist :=
      fun hf => inv_free_not_live ht hf (hperm.mem_iff.mpr (mem_cons_of_mem c hb))
    cases gives_of_eq hr with
    | refused | exhausted => cases hres
    | reused d | newPage d =>
      cases hres
      obtain rfl : d = c := Nat.add_right_cancel hc
      refine ⟨maybeSplit_other hne hfree, ?_⟩
      simp only [(maybeSplit_frame ..).1]
    | whole d =>
      cases hres
      obtain rfl : d = c := Nat.add_right_cancel hc
      exact ⟨update_of_ne hne .., by simp [hne]⟩

theorem xmalloc_sizes (h : Spaced L s) (hfresh : ∀ a ∈ page, Fresh s (wanted L asize) a) :
    ∀ b, b ∈ r.1.freelist ∨ b ∈ r.1.small → L.A ∣ r.1.size b := by
  cases gives_of_eq hr with
  | refused | exhausted => exact h.sizes
  | reused i _ hi =>
    have herase : ∀ b, b ∈ s.freelist.erase i ∨ b ∈ s.small → L.A ∣ s.size b :=
      fun b hb => h.sizes b (hb.imp_left mem_of_mem_erase)
    exact sizes_maybeSplit (s := { s with freelist := s.freelist.erase i }) herase
      (dvd_blockSize L asize)
      (h.sizes i (.inl hi))
  | newPage P =>
    exact sizes_maybeSplit (s := { s with pages := P :: s.pages, obtained := (P, 1) :: s.obtained })
      h.sizes
      (dvd_blockSize L asize) L.align_dvd_page
  | whole b hbig hpage hcount =>
    have hnew := fresh_whole h.inv hbig hcount (hfresh b hpage)
    intro c hc
    have hne : c ≠ b := by
      rintro rfl
      exact inv_new_not_block h.inv hnew.1 hnew.2.1 (.inr hc)
    simp only [update_of_ne hne]
    exact h.sizes c hc

theorem xmalloc_wholeSizes (h : Spaced L s) (ht : Inv L r.1 []) :
    ∀ b ∈ r.1.whole, PAGE_SIZE ∣ r.1.size b := by
  intro b hb
  by_cases hold : b ∈ s.whole
  · rw [(xmalloc_same hr ht (mem_append_right _ hold)).1]
    exact h.wholeSizes b hold
  ·   cases gives_of_eq hr with
    | refused | exhausted => exact absurd hb hold
    | reused i | newPage P =>
      simp only [(maybeSplit_frame ..).1] at hb
      exact absurd hb hold
    | whole c =>
      obtain rfl := (List.mem_cons.mp hb).resolve_right hold
      simp only [update_self]
      exact dvd_alignUp _

theorem xmalloc_held (h : Inv L s []) (ht : Inv L r.1 []) :
    (held r.1).Perm (held s) ∨
      ∃ a ∈ page, (held r.1).Perm ((a, wanted L asize) :: held s) := by
  have hsame : ∀ t : Heap, Inv L t [] → t.returned = s.returned → t.obtained = s.obtained →
      (held t).Perm (held s) := by
    intro t ht hret hobt
    have hbal := ht.balance
    rw [hret, hobt] at hbal
    exact (perm_append_left_iff _).mp (hbal.symm.trans h.balance)
  have hmore : ∀ (t : Heap) (x : Nat × Nat), Inv L t [] → t.returned = s.returned →
      t.obtained = x :: s.obtained → (held t).Perm (x :: held s) := by
    intro t x ht hret hobt
    have hbal := ht.balance
    rw [hret, hobt] at hbal
    apply (perm_append_left_iff s.returned).mp
    exact hbal.symm.trans ((h.balance.cons x).trans List.perm_middle.symm)
  cases gives_of_eq hr with
  | refused | exhausted => exact .inl (List.Perm.refl _)
  | reused i =>
    obtain ⟨-, -, hobt, hret⟩ := maybeSplit_frame L { s with freelist := s.freelist.erase i } i
      (blockSize L asize) (s.size i)
    exact .inl (hsame _ ht hret hobt)
  | newPage P hsmall hpage =>
    refine .inr ⟨P, hpage, ?_⟩
    obtain ⟨-, -, hobt, hret⟩ := maybeSplit_frame L
      { s with pages := P :: s.pages, obtained := (P, 1) :: s.obtained } P (blockSize L asize)
        PAGE_SIZE
    rw [wanted, if_neg (not_le.mpr hsmall)]
    exact hmore _ _ ht hret hobt
  | whole b hbig hpage =>
    refine .inr ⟨b, hpage, ?_⟩
    rw [wanted, if_pos hbig]
    exact hmore _ _ ht rfl rfl

theorem spaced_xmalloc (h : Spaced L s) (hsize : asize + L.H + L.A < 2 ^ 64)
    (hfresh : ∀ a ∈ page, Fresh s (wanted L asize) a) : Spaced L r.1 := by
  have hinv : Inv L r.1 [] := inv_xmalloc hr h.inv hsize hfresh
  refine ⟨hinv, xmalloc_sizes hr h hfresh, xmalloc_wholeSizes hr h hinv, ?_⟩
  rcases xmalloc_held hr h.inv hinv with hperm | ⟨a, ha, hperm⟩
  · exact (hperm.pairwise_iff Or.symm).mpr h.apart
  · exact (hperm.pairwise_iff Or.symm).mpr (List.pairwise_cons.mpr ⟨(hfresh a ha).2.2, h.apart⟩)

end Call

/-! ## What `guk_xfree` does -/

structure Within (S : Nat → Prop) (m m' : Merge) : Prop where
  hdr : S m'.hdr
  outside : ∀ x, ¬ S x → m'.size x = m.size x
  freelist : ∀ x ∈ m'.freelist, x ∈ m.freelist
  sizes : ∀ d, (∀ x, S x → d ∣ m.size x) → ∀ x, S x → d ∣ m'.size x

variable {S : Nat → Prop} {m' m'' : Merge}

theorem Within.refl (h : S m.hdr) : Within S m m :=
  ⟨h, fun _ _ => rfl, fun _ hx => hx, fun _ hd => hd⟩

theorem Within.trans (h : Within S m m') (h' : Within S m' m'') : Within S m m'' :=
  ⟨h'.hdr, fun x hx => (h'.outside x hx).trans (h.outside x hx), fun x hx =>
    h.freelist x (h'.freelist x hx), fun d hd => h'.sizes d (h.sizes d hd)⟩

theorem within_join (ha : S a) (hb : S b) (hc : S c) :
    Within S m ⟨a, update m.size a (m.size b + m.size c), m.freelist.erase i⟩ := by
  refine ⟨ha, ?_, fun x hx => mem_of_mem_erase hx, ?_⟩
  · intro x hx
    apply update_of_ne
    rintro rfl
    exact hx ha
  · intro d hd x hx
    exact dvd_update hd (Nat.dvd_add (hd b hb) (hd c hc)) x (.inl hx)

theorem within_mergeStep (hi : S i) (hm : S m.hdr) : Within S m (mergeStep m i) := by
  unfold mergeStep
  split
  case isTrue => exact .refl hm
  case isFalse =>
    have hfirst : Within S m (if i + m.size i = m.hdr then
        ⟨i, update m.size i (m.size i + m.size m.hdr), m.freelist.erase i⟩ else m) := by
      split
      case isTrue => exact within_join hi hi hm
      case isFalse => exact .refl hm
    simp only
    generalize (if i + m.size i = m.hdr then
        (⟨i, update m.size i (m.size i + m.size m.hdr), m.freelist.erase i⟩ : Merge) else m) = m'
      at hfirst ⊢
    split
    case isTrue => exact hfirst.trans (within_join hfirst.hdr hfirst.hdr hi)
    case isFalse => exact hfirst

theorem within_run (hrest : ∀ i ∈ rest, S i) (hm : S m.hdr) :
    Within S m (rest.foldl mergeStep m) := by
  induction rest generalizing m with
  | nil => exact .refl hm
  | cons i rest ih =>
    obtain ⟨hi, hrest⟩ := List.forall_mem_cons.mp hrest
    have hstep := within_mergeStep (m := m) hi hm
    exact hstep.trans (ih hrest hstep.hdr)

theorem within_merged (s : Heap) (hdr : Nat) :
    Within (fun x => x = hdr ∨ x ∈ s.freelist) ⟨hdr, s.size, s.freelist⟩ (merged s hdr) :=
  within_run (fun _ hi => .inr hi) (.inl rfl)

theorem xfree_held (h : Inv L s []) (ht : Inv L t []) (hfrees : Frees s hdr t) :
    (held t).Perm (held s) ∨ ∃ x, (x :: held t).Perm (held s) := by
  have hless : ∀ x, t.obtained = s.obtained → t.returned = x :: s.returned →
      (x :: held t).Perm (held s) := by
    intro x hobt hret
    have hbal := ht.balance
    rw [hobt, hret] at hbal
    apply (perm_append_left_iff s.returned).mp
    exact List.perm_middle.trans (hbal.symm.trans h.balance)
  cases hfrees with
  | whole | page => exact .inr ⟨_, hless _ rfl rfl⟩
  | listed =>
    exact .inl ((perm_append_left_iff s.returned).mp (ht.balance.symm.trans h.balance))

theorem xfree_sizes (h : Spaced L s) (hl : hdr ∈ live s) (hfrees : Frees s hdr t) :
    ∀ b, b ∈ t.freelist ∨ b ∈ t.small → L.A ∣ t.size b := by
  have hmerged : s.size hdr < PAGE_SIZE → ∀ b, b = hdr ∨ b ∈ s.freelist ∨ b ∈ s.small →
      L.A ∣ (merged s hdr).size b := by
    intro hsmall b hb
    have hwithin := within_merged s hdr
    by_cases hS : b = hdr ∨ b ∈ s.freelist
    · refine hwithin.sizes L.A ?_ b hS
      rintro x (rfl | hx)
      · exact h.sizes x (.inr (small_of_live h.inv hl hsmall))
      · exact h.sizes x (.inl hx)
    · rw [hwithin.outside b hS]
      exact h.sizes b (hb.resolve_left fun he => hS (.inl he))
  have hfree := (within_merged s hdr).freelist
  cases hfrees with
  | whole => exact fun b hb => h.sizes b (hb.imp_right mem_of_mem_erase)
  | page hsmall =>
    rintro b (hb | hb)
    · exact hmerged hsmall b (.inr (.inl (hfree b hb)))
    · exact hmerged hsmall b (.inr (.inr (mem_of_mem_erase hb)))
  | listed hsmall =>
    rintro b (hb | hb)
    · rcases List.mem_cons.mp hb with rfl | hb
      · exact hmerged hsmall _ ((within_merged s hdr).hdr.imp_right .inl)
      · exact hmerged hsmall b (.inr (.inl (hfree b hb)))
    · exact hmerged hsmall b (.inr (.inr (mem_of_mem_erase hb)))

theorem xfree_same (hfrees : Frees s hdr t) (hne : b ≠ hdr) (hfree : b ∉ s.freelist) :
    t.size b = s.size b ∧ (b ∈ t.whole ↔ b ∈ s.whole) := by
  have houtside := (within_merged s hdr).outside b fun hS => hS.elim hne hfree
  cases hfrees with
  | whole => exact ⟨rfl, mem_erase_of_ne hne⟩
  | page | listed => exact ⟨houtside, mem_erase_of_ne hne⟩

theorem xfree_whole (hfrees : Frees s hdr t) : t.whole = s.whole.erase hdr := by
  cases hfrees with
  | whole | page | listed => rfl

theorem xfree_wholeSizes (h : Spaced L s) (hfrees : Frees s hdr t) :
    ∀ b ∈ t.whole, PAGE_SIZE ∣ t.size b := by
  intro b hb
  rw [xfree_whole hfrees] at hb
  obtain ⟨hne, hb⟩ := h.inv.wholeNodup.mem_erase_iff.mp hb
  have hfree : b ∉ s.freelist := fun hf => inv_block_not_whole h.inv (.inr (.inl hf)) hb
  rw [(xfree_same hfrees hne hfree).1]
  exact h.wholeSizes b hb

theorem spaced_xfree (h : Spaced L s) (hl : hdr ∈ live s) (hok : gukXfree L s (hdr + L.H) = .ok t) :
    Spaced L t := by
  obtain ⟨t', hok', hinv⟩ := inv_xfree h.inv hl
  obtain rfl : t' = t := Except.ok.inj (hok'.symm.trans hok)
  have hfrees := gukXfree_frees hok
  refine ⟨hinv, xfree_sizes h hl hfrees, xfree_wholeSizes h hfrees, ?_⟩
  rcases xfree_held h.inv hinv hfrees with hperm | ⟨x, hperm⟩
  · exact (hperm.pairwise_iff Or.symm).mpr h.apart
  · exact (List.pairwise_cons.mp ((hperm.pairwise_iff Or.symm).mpr h.apart)).2

theorem spaced_run (h : Reach (step L) anyStep Initial s) : Spaced L s := by
  apply h.invariant
  · intro s hs
    refine ⟨inv_initial hs, ?_, ?_, ?_⟩
    · simp [hs.freelist, hs.small]
    · simp [hs.whole]
    · simp [held, hs.pages, hs.whole]
  · intro s l t hspaced _ hstep
    cases l with
    | malloc asize page =>
      obtain ⟨⟨hsize, hfresh⟩, rfl⟩ :=
        Option.ite_none_right_eq_some.mp hstep |>.imp_right Option.some.inj
      exact spaced_xmalloc rfl hspaced hsize hfresh
    | free hdr =>
      obtain ⟨hl, hfree⟩ := Option.ite_none_right_eq_some.mp hstep
      obtain ⟨t', hok, -⟩ := inv_xfree hspaced.inv hl
      rw [hok] at hfree
      obtain rfl : t' = t := Option.some.inj hfree
      exact spaced_xfree hspaced hl hok

/-! ## The room -/

section Room

variable {r : Heap × Option Nat} (hr : gukXmalloc L s asize page = r) (h : Spaced L s)
  (hfresh : ∀ a ∈ page, Fresh s (wanted L asize) a)
include hr h hfresh

theorem small_given (hsmall : blockSize L asize < PAGE_SIZE) (hp : p ∈ r.2) :
    ∃ b, p = b + L.H ∧ L.A ∣ b ∧ b ∉ live s ∧ b ∈ live r.1 ∧
      blockSize L asize ≤ extent r.1 b ∧
      extent r.1 b ≤ PAGE_SIZE := by
  cases gives_of_eq hr with
  | refused hbig | whole b hbig => exact absurd hbig (not_le.mpr hsmall)
  | exhausted => cases hp
  | reused i _ hi hfit =>
    cases hp
    have hwhole := inv_block_not_whole h.inv (.inr (.inl hi))
    obtain ⟨hlo, hhi⟩ := maybeSplit_hdr L { s with freelist := s.freelist.erase i } i hfit
    refine ⟨i, rfl, h.dvd (.inl hi), ?_, mem_append_left _ mem_cons_self, ?_⟩
    · exact inv_free_not_live h.inv hi
    · simp only [extent, (maybeSplit_frame ..).1, if_neg hwhole]
      exact ⟨hlo, le_trans hhi (le_of_lt (h.inv.core.free i hi).2)⟩
  | newPage P _ hpage =>
    cases hp
    obtain ⟨hdvd, hpages, hwhole⟩ := fresh_page h.inv hsmall (hfresh P hpage)
    have hsplit :=
      maybeSplit_hdr L { s with pages := P :: s.pages, obtained := (P, 1) :: s.obtained } P
      (le_of_lt hsmall)
    refine ⟨P, rfl, Nat.dvd_trans L.align_dvd_page hdvd, inv_new_not_live h.inv hdvd hpages hwhole,
      mem_append_left _ mem_cons_self, ?_⟩
    simp only [extent, (maybeSplit_frame ..).1, if_neg hwhole]
    exact hsplit

theorem whole_given (hbig : PAGE_SIZE ≤ blockSize L asize) (hp : p ∈ r.2) :
    0 < pageCount (alignUp (blockSize L asize) PAGE_SIZE) ∧
    ∃ b, p = b + L.H ∧ L.A ∣ b ∧ b ∉ live s ∧ b ∈ live r.1 ∧
      extent r.1 b =
        (pageCount (alignUp (blockSize L asize) PAGE_SIZE)).toNat * PAGE_SIZE := by
  cases gives_of_eq hr with
  | refused | exhausted => cases hp
  | reused i hsmall | newPage P hsmall => exact absurd hbig (not_le.mpr hsmall)
  | whole b _ hpage hcount =>
    cases hp
    obtain ⟨hdvd, hpages, hwhole⟩ := fresh_whole h.inv hbig hcount (hfresh b hpage)
    refine ⟨hcount, b, rfl, Nat.dvd_trans L.align_dvd_page hdvd,
      inv_new_not_live h.inv hdvd hpages hwhole, mem_append_right _ mem_cons_self, ?_⟩
    simp only [extent, mem_cons_self, if_true, update_self]

theorem given (hlt : asize < 2 ^ 64) (hp : p ∈ r.2) :
    ∃ b, p = b + L.H ∧ L.A ∣ b ∧ b ∉ live s ∧ b ∈ live r.1 ∧
      extent r.1 b ≤ (2 ^ 31 - 1) * PAGE_SIZE := by
  by_cases hbig : PAGE_SIZE ≤ blockSize L asize
  · have hle : asize + L.H + L.A ≤ 2 ^ 64 := by
      by_contra hwrap
      have := blockSize_wrap hlt (not_le.mp hwrap)
      have := L.fits
      have := L.pos
      omega
    obtain ⟨hc, b, hb, hdvd, hnew, hlive, hext⟩ := whole_given hr h hfresh hbig hp
    rw [pageCount_eq hle] at hc hext
    refine ⟨b, hb, hdvd, hnew, hlive, ?_⟩
    rw [hext, toNat_bmod hc]
    have := ((bmod_pos_iff _).mp hc).2
    exact Nat.mul_le_mul_right PAGE_SIZE (by omega)
  · obtain ⟨b, hb, hdvd, hnew, hlive, -, hext⟩ := small_given hr h hfresh (not_le.mp hbig) hp
    exact ⟨b, hb, hdvd, hnew, hlive, le_trans hext (Nat.le_mul_of_pos_left _ (by decide))⟩

theorem roomy_size (hlt : asize < 2 ^ 64) (hroomy : Roomy L asize r) (hp : p ∈ r.2) :
    asize + L.H ≤ (2 ^ 31 - 1) * PAGE_SIZE ∧ asize + L.H + L.A < 2 ^ 64 := by
  obtain ⟨b, rfl, -, -, -, hext⟩ := given hr h hfresh hlt hp
  obtain ⟨c, hc, hroom⟩ := hroomy _ hp
  obtain rfl : b = c := Nat.add_right_cancel hc
  have hA := L.align_le
  have hfits := L.fits
  unfold PAGE_SIZE at *
  omega

theorem served_iff_roomy (hlt : asize < 2 ^ 64) : Served L s asize r ↔ Roomy L asize r := by
  constructor
  · intro hserved p hp
    obtain ⟨-, b, hb, -, -, hroom, -⟩ := hserved p hp
    exact ⟨b, hb, hroom⟩
  · intro hroomy p hp
    obtain ⟨b, rfl, hdvd, hnew, hlive, -⟩ := given hr h hfresh hlt hp
    obtain ⟨b', hb', hroom⟩ := hroomy _ hp
    obtain rfl : b = b' := Nat.add_right_cancel hb'
    have hspaced := spaced_xmalloc hr h (roomy_size hr h hfresh hlt hroomy hp).2 hfresh
    refine ⟨Nat.dvd_add hdvd L.dvd, b, rfl, hnew, hlive, hroom, ?_⟩
    intro c hc hne
    have := hspaced.blocks_apart (.inr hlive) (.inr hc) hne.symm
    omega

omit hr h hfresh in
theorem not_roomy (hb : b + L.H ∈ r.2) (hlt : extent r.1 b < asize + L.H) : ¬ Roomy L asize r := by
  intro h
  obtain ⟨c, hc, hroom⟩ := h _ hb
  obtain rfl : b = c := Nat.add_right_cancel hc
  omega

omit hr h hfresh in
theorem roomy_none (h : r.2 = none) : Roomy L asize r := by
  intro p hp
  rw [h] at hp
  cases hp

theorem wrapped_roomy_iff (hlt : asize < 2 ^ 64) (hwrap : 2 ^ 64 < asize + L.H + L.A) :
    Roomy L asize r ↔ s.freelist = [] ∧ page = none := by
  have hle := blockSize_wrap hlt hwrap
  have hA := L.align_le
  have hfits := L.fits
  have hpos := L.pos
  have hsmall : blockSize L asize < PAGE_SIZE := by omega
  -- every free block is large enough for a wrapped size
  have hlarge : ∀ i ∈ s.freelist, ¬ s.size i < blockSize L asize := by
    intro i hi
    have := h.inv.core.large i (.inr (.inl hi))
    omega
  have hnone := small_none_iff hr hsmall
  cases hres : r.2 with
  | none =>
    obtain ⟨hpage, hfree⟩ := hnone.mp hres
    refine iff_of_true (roomy_none hres) ⟨List.eq_nil_iff_forall_not_mem.mpr ?_, hpage⟩
    exact fun i hi => hlarge i hi (hfree i hi)
  | some p =>
    apply iff_of_false
    · obtain ⟨b, rfl, -, -, -, -, hpage⟩ := small_given hr h hfresh hsmall hres
      apply not_roomy hres
      unfold PAGE_SIZE at *
      omega
    · rintro ⟨hfree, hpage⟩
      have := hnone.mpr ⟨hpage, by simp [hfree]⟩
      exact nomatch hres.symm.trans this

theorem small_roomy (hle : asize + L.H + L.A ≤ 2 ^ 64) (hsmall : blockSize L asize < PAGE_SIZE) :
    Roomy L asize r := by
  intro p hp
  have hge := le_blockSize hle
  obtain ⟨b, rfl, -, -, -, hlo, -⟩ := small_given hr h hfresh hsmall hp
  exact ⟨b, rfl, by omega⟩

theorem whole_roomy_iff (hle : asize + L.H + L.A ≤ 2 ^ 64) (hbig : PAGE_SIZE ≤ blockSize L asize) :
    Roomy L asize r ↔
      asize + L.H ≤ (2 ^ 31 - 1) * PAGE_SIZE ∨ page = none ∨
        pagesFor L asize % 2 ^ 32 = 0 ∨ 2 ^ 31 ≤ pagesFor L asize % 2 ^ 32 := by
  have hcount := pageCount_eq hle
  have hpos := bmod_pos_iff (pagesFor L asize)
  have hnone := whole_none_iff hr hbig
  cases hres : r.2 with
  | none =>
    refine iff_of_true (roomy_none hres) (.inr ?_)
    refine (hnone.mp hres).imp_right ?_
    rw [hcount]
    omega
  | some p =>
    have hsome : page ≠ none := fun hpage => nomatch hres.symm.trans (hnone.mpr (.inl hpage))
    obtain ⟨hc, b, rfl, -, -, -, hext⟩ := whole_given hr h hfresh hbig hres
    rw [hcount] at hc
    rw [hcount, toNat_bmod hc] at hext
    have hn := hpos.mp hc
    have hpages := pagesFor_bounds L asize
    have hpage : PAGE_SIZE = 4096 := rfl
    rw [hpage] at hpages hext ⊢
    by_cases hfew : asize + L.H ≤ (2 ^ 31 - 1) * 4096
    · refine iff_of_true ?_ (.inl hfew)
      intro p hp
      obtain rfl : b + L.H = p := Option.some.inj (hres.symm.trans hp)
      exact ⟨b, rfl, by omega⟩
    · apply iff_of_false
      · apply not_roomy hres
        omega
      · rintro (hle | hnone | hzero | hneg)
        · exact hfew hle
        · exact hsome hnone
        · omega
        · omega

theorem roomy_iff (hlt : asize < 2 ^ 64) : Roomy L asize r ↔ Measured L s asize page := by
  have hA := L.align_le
  have hfits := L.fits
  unfold Measured
  by_cases hwrap : 2 ^ 64 < asize + L.H + L.A
  · rw [wrapped_roomy_iff hr h hfresh hlt hwrap]
    have hbig : ¬ asize + L.H ≤ (2 ^ 31 - 1) * PAGE_SIZE := by
      unfold PAGE_SIZE at *
      omega
    simp only [hbig, not_le.mpr hwrap, hwrap, false_and, true_and, false_or]
  · have hle := not_lt.mp hwrap
    simp only [hwrap, hle, false_and, true_and, or_false]
    by_cases hbig : PAGE_SIZE ≤ blockSize L asize
    · exact whole_roomy_iff hr h hfresh hle hbig
    · refine iff_of_true (small_roomy hr h hfresh hle (not_le.mp hbig)) (.inl ?_)
      have := le_blockSize hle
      unfold PAGE_SIZE at *
      omega

end Room

/-- After calls whose sizes did not wrap, a call of `guk_xmalloc` does what it should if and only if
its size is measured rightly. -/
theorem xmalloc_served_iff (L : Layout) (s : Heap) (h : Reach (step L) anyStep Initial s)
    (asize : Nat)
    (hlt : asize < 2 ^ 64) (page : Option Nat) (hfresh : ∀ a ∈ page, Fresh s (wanted L asize) a) :
    Served L s asize (gukXmalloc L s asize page) ↔ Measured L s asize page :=
  (served_iff_roomy rfl (spaced_run h) hfresh hlt).trans (roomy_iff rfl (spaced_run h) hfresh hlt)

/-- The block that was freed is given again, in part. -/
theorem xmalloc_served_again : ∃ s, Reach (step hdrLayout) anyStep Initial s ∧
    (gukXmalloc hdrLayout s 50 none).2 = some 4120 ∧ 4224 ∈ live s ∧
      Served hdrLayout s 50 (gukXmalloc hdrLayout s 50 none) := by
  have hstart : Reach (step hdrLayout) anyStep Initial emptyHeap :=
    .start ⟨rfl, rfl, rfl, rfl, rfl, rfl⟩
  obtain ⟨s, hreach, hgiven, hlive⟩ := hstart.runTo
    (P := fun s => (gukXmalloc hdrLayout s 50 none).2 = some 4120 ∧ 4224 ∈ live s)
    [.malloc 100 (some 4096), .malloc 200 none, .free 4096] (by decide +kernel)
  exact ⟨s, hreach, hgiven, hlive,
    (xmalloc_served_iff hdrLayout s hreach 50 (by decide) none nofun).mpr (.inl (by decide))⟩

/-- The header makes the size 0, and what is given is a page of which nothing belongs to the block.
-/
theorem xmalloc_not_served :
    ¬ Served hdrLayout emptyHeap (2 ^ 64 - 24)
      (gukXmalloc hdrLayout emptyHeap (2 ^ 64 - 24) (some 4096)) := by
  intro h
  obtain ⟨-, b, hb, -, -, hroom, -⟩ := h 4120 (by decide +kernel)
  obtain rfl : 4096 = b := Nat.add_right_cancel (m := 24) hb
  exact absurd hroom (by decide +kernel)

end Guk.Xmalloc
