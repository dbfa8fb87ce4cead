import Guk.XmallocPages

/-!
# The heap stays well formed

`guk_xmalloc` and `guk_xfree` are sequences of small changes. In between a block is in
nobody's list; the invariant `Inv` names those blocks, and each change keeps it.
-/
namespace Guk.Xmalloc

open Runs Tiling Function List

structure Inv (L : Layout) (s : Heap) (out : List Nat) : Prop where
  core : Core L s.size s.pages s.freelist fun b => b ∈ out ∨ b ∈ s.freelist ∨ b ∈ s.small
  pagesNodup : s.pages.Nodup
  lists : (out ++ (s.freelist ++ s.small)).Nodup
  wholeNodup : s.whole.Nodup
  unlinked : ∀ b ∈ live s, s.linked b = false
  whole : ∀ b ∈ s.whole, PAGE_SIZE ∣ b ∧ 0 < pageCount (s.size b) ∧ b ∉ s.pages
  balance : s.obtained.Perm (s.returned ++ held s)

variable {L : Layout} {s : Heap} {out : List Nat} {b c i k P : Nat} {f : Nat → Nat}

section

variable (h : Inv L s out)

include h

theorem inv_whole_ne (hb : b ∈ s.whole) (hP : P ∈ s.pages) (hle : P ≤ c)
    (hlt : c < P + PAGE_SIZE) : b ≠ c := by
  rintro rfl
  obtain ⟨hdvd, -, hnot⟩ := h.whole b hb
  have hpage := page_pos
  have heq := page_unique hdvd (h.core.aligned P hP) (le_refl b) (by omega) hle hlt
  rw [heq] at hnot
  exact hnot hP

theorem inv_block_not_whole (hb : b ∈ out ∨ b ∈ s.freelist ∨ b ∈ s.small) : b ∉ s.whole := by
  intro hw
  obtain ⟨P, hP, hle, hlt⟩ := h.core.home b hb
  exact inv_whole_ne h hw hP hle hlt rfl

theorem inv_new_not_block (hdvd : PAGE_SIZE ∣ P) (hpages : P ∉ s.pages) :
    ¬ (P ∈ out ∨ P ∈ s.freelist ∨ P ∈ s.small) := by
  intro hb
  obtain ⟨Q, hQ, hle, hlt⟩ := h.core.home P hb
  have hpage := page_pos
  rw [page_unique hdvd (h.core.aligned Q hQ) (le_refl P) (by omega) hle hlt] at hpages
  exact hpages hQ

theorem inv_out_not_free (hb : b ∈ out) : b ∉ s.freelist ∧ b ∉ s.small := by
  have hdisj := (List.nodup_append.mp h.lists).2.2 b hb
  constructor
  · intro hf
    exact hdisj b (mem_append_left _ hf) rfl
  · intro hs
    exact hdisj b (mem_append_right _ hs) rfl

theorem inv_free_not_small (hb : b ∈ s.freelist) : b ∉ s.small := by
  intro hs
  exact (List.nodup_append.mp (List.nodup_append.mp h.lists).2.1).2.2 b hb b hs rfl

end

theorem held_congr (hf : ∀ w ∈ s.whole, f w = s.size w) :
    held { s with size := f } = held s := by
  apply congrArg (s.pages.map (fun P => (P, 1)) ++ ·)
  apply map_congr_left
  intro w hw
  simp only [hf w hw]

theorem update_whole {v : Nat} (hb : b ∉ s.whole) :
    ∀ w ∈ s.whole, update s.size b v w = s.size w := by
  intro w hw
  apply update_of_ne
  rintro rfl
  exact hb hw

theorem whole_congr (h : Inv L s out) (hf : ∀ w ∈ s.whole, f w = s.size w) :
    ∀ w ∈ s.whole, PAGE_SIZE ∣ w ∧ 0 < pageCount (f w) ∧ w ∉ s.pages := by
  intro w hw
  rw [hf w hw]
  exact h.whole w hw

/-! ## Small changes -/

theorem inv_take_free (h : Inv L s out) (hi : i ∈ s.freelist) :
    Inv L { s with freelist := s.freelist.erase i } (i :: out) := by
  have hperm := perm_cons_erase hi
  refine { h with core := ?_, lists := ?_ }
  · apply core_take (core_congr h.core ?_ fun _ _ => rfl)
    · exact fun b hb => mem_of_mem_erase hb
    · intro b
      have := hperm.mem_iff (a := b)
      simp only [mem_cons] at this ⊢
      tauto
  · apply (List.Perm.nodup_iff ?_).mp h.lists
    calc out ++ (s.freelist ++ s.small)
      List.Perm _ (out ++ (i :: s.freelist.erase i ++ s.small)) :=
        (hperm.append_right _).append_left _
      List.Perm _ (i :: (out ++ (s.freelist.erase i ++ s.small))) := perm_middle

theorem inv_take_live (h : Inv L s []) (hb : b ∈ s.small) :
    Inv L { s with small := s.small.erase b } [b] := by
  have hperm := perm_cons_erase hb
  refine { h with core := ?_, lists := ?_, unlinked := ?_ }
  · apply core_congr h.core
    · intro x
      have := hperm.mem_iff (a := x)
      simp only [mem_cons, not_mem_nil, or_false, false_or] at this ⊢
      tauto
    · exact fun _ _ => rfl
  · apply (List.Perm.nodup_iff ?_).mp h.lists
    calc s.freelist ++ s.small
      List.Perm _ (s.freelist ++ b :: s.small.erase b) := hperm.append_left _
      List.Perm _ (b :: (s.freelist ++ s.small.erase b)) := perm_middle
  · intro x hx
    apply h.unlinked x
    simp only [live, mem_append] at hx ⊢
    exact hx.imp_left mem_of_mem_erase

theorem inv_make_live (h : Inv L s [b]) (hlinked : s.linked b = false) :
    Inv L { s with small := b :: s.small } [] := by
  refine { h with core := ?_, lists := ?_, unlinked := ?_ }
  · apply core_congr h.core
    · intro x
      simp only [mem_cons, not_mem_nil, or_false, false_or]
      tauto
    · exact fun _ _ => rfl
  · exact (List.Perm.nodup_iff perm_middle).mpr h.lists
  · intro x hx
    simp only [live, cons_append, mem_cons] at hx
    rcases hx with rfl | hx
    · exact hlinked
    · exact h.unlinked x hx

theorem inv_make_free (h : Inv L s [b]) (hsmall : s.size b < PAGE_SIZE)
    (hnext : ∀ P ∈ s.pages, P ≤ b → b + s.size b < P + PAGE_SIZE → b + s.size b ∉ s.freelist)
    (hprev : ∀ P ∈ s.pages, P ≤ b → b < P + PAGE_SIZE → ∀ i ∈ s.freelist, P ≤ i → i + s.size i ≠ b)
    :
    Inv L { s with freelist := b :: s.freelist, linked := update s.linked b true } [] := by
  have hout := inv_out_not_free h mem_cons_self
  refine { h with core := ?_, unlinked := ?_ }
  · apply core_congr (core_give h.core (.inl mem_cons_self) hsmall hnext hprev)
    · intro x
      simp only [mem_cons, not_mem_nil, or_false, false_or]
      tauto
    · exact fun _ _ => rfl
  · intro x hx
    have hne : x ≠ b := by
      rintro rfl
      rcases List.mem_append.mp hx with hx | hx
      · exact hout.2 hx
      · exact inv_block_not_whole h (.inl mem_cons_self) hx
    change update s.linked b true x = false
    rw [update_of_ne hne]
    exact h.unlinked x hx

theorem inv_join (h : Inv L s out) (hb : b ∈ out) (hc : c ∈ out) (hadj : b + s.size b = c)
    (hP : P ∈ s.pages) (hle : P ≤ b) (hlt : c < P + PAGE_SIZE) :
    Inv L { s with size := update s.size b (s.size b + s.size c) } (out.erase c) := by
  have hnd : out.Nodup := (List.nodup_append.mp h.lists).1
  have hbfree := inv_out_not_free h hb
  have hcfree := inv_out_not_free h hc
  have hsame := update_whole (v := s.size b + s.size c) (inv_block_not_whole h (.inl hb))
  have hwhole := whole_congr h hsame
  refine ⟨?_, h.pagesNodup, ?_, h.wholeNodup, h.unlinked, hwhole, ?_⟩
  · apply core_congr (core_join h.core hP (.inl hb) hle (.inl hc) hadj hlt hbfree.1 hcfree.1)
    · intro x
      have hx := hnd.mem_erase_iff (a := x) (b := c)
      have hxc : x = c → x ∉ s.freelist ∧ x ∉ s.small := by
        rintro rfl
        exact hcfree
      tauto
    · exact fun _ _ => rfl
  · exact h.lists.sublist (List.Sublist.append_right erase_sublist _)
  · rw [held_congr hsame]
    exact h.balance

theorem inv_obtain (h : Inv L s []) (hdvd : PAGE_SIZE ∣ P) (hpages : P ∉ s.pages)
    (hwhole : P ∉ s.whole) :
    Inv L { s with
      size := update s.size P PAGE_SIZE
      pages := P :: s.pages
      obtained := (P, 1) :: s.obtained } [P] := by
  have hblock := inv_new_not_block h hdvd hpages
  refine ⟨?_, List.nodup_cons.mpr ⟨hpages, h.pagesNodup⟩, ?_, h.wholeNodup, h.unlinked, ?_, ?_⟩
  · apply core_congr (core_obtain h.core hdvd hpages)
    · intro x
      simp only [mem_cons, not_mem_nil, or_false, false_or]
      tauto
    · exact fun _ _ => rfl
  · apply List.nodup_cons.mpr
    exact ⟨fun hmem => hblock (.inr (List.mem_append.mp hmem)), h.lists⟩
  · intro w hw
    obtain ⟨hwd, hcount, hnot⟩ := whole_congr h (update_whole (v := PAGE_SIZE) hwhole) w hw
    refine ⟨hwd, hcount, ?_⟩
    rw [mem_cons]
    rintro (rfl | hmem)
    · exact hwhole hw
    · exact hnot hmem
  · have hheld : held { s with
        size := update s.size P PAGE_SIZE
        pages := P :: s.pages
        obtained := (P, 1) :: s.obtained } = (P, 1) :: held s := by
      rw [← held_congr (update_whole (v := PAGE_SIZE) hwhole)]
      rfl
    rw [hheld]
    exact (h.balance.cons _).trans List.perm_middle.symm

theorem inv_return (h : Inv L s [b]) (hsz : s.size b = PAGE_SIZE) :
    PAGE_SIZE ∣ b ∧ Inv L (deallocatePages s b 1) [] := by
  have hB : b ∈ [b] ∨ b ∈ s.freelist ∨ b ∈ s.small := .inl mem_cons_self
  have hout := inv_out_not_free h mem_cons_self
  obtain ⟨P, hP, hle, hlt⟩ := h.core.home b hB
  have hbounds := core_bounds h.core hP hB hle hlt
  obtain rfl : b = P := by omega
  refine ⟨h.core.aligned b hP, ?_, h.pagesNodup.erase b, (List.nodup_cons.mp h.lists).2,
    h.wholeNodup, h.unlinked, ?_, ?_⟩
  · apply core_congr (core_return h.core h.pagesNodup hP hB hsz hout.1)
    · intro x
      have hxb : x = b → x ∉ s.freelist ∧ x ∉ s.small := by
        rintro rfl
        exact hout
      simp only [mem_cons, not_mem_nil, or_false, false_or]
      tauto
    · exact fun _ _ => rfl
  · intro w hw
    obtain ⟨hwd, hcount, hnot⟩ := h.whole w hw
    exact ⟨hwd, hcount, fun hmem => hnot (mem_of_mem_erase hmem)⟩
  · apply h.balance.trans
    have hpages :
        (s.pages.map fun P => (P, 1)).Perm ((b, 1) :: (s.pages.erase b).map fun P => (P, 1)) :=
      (perm_cons_erase hP).map _
    calc s.returned ++ held s
      List.Perm _ (s.returned ++ (b, 1) :: held (deallocatePages s b 1)) :=
        (hpages.append_right _).append_left _
      List.Perm _ ((b, 1) :: (s.returned ++ held (deallocatePages s b 1))) := perm_middle

theorem inv_obtain_whole {asize : Nat} (h : Inv L s []) (hdvd : PAGE_SIZE ∣ b)
    (hpages : b ∉ s.pages) (hwhole : b ∉ s.whole) (hcount : 0 < pageCount asize) :
    Inv L { s with
      size := update s.size b asize
      linked := update s.linked b false
      whole := b :: s.whole
      obtained := (b, (pageCount asize).toNat) :: s.obtained } [] := by
  refine ⟨?_, h.pagesNodup, h.lists, List.nodup_cons.mpr ⟨hwhole, h.wholeNodup⟩, ?_, ?_, ?_⟩
  · apply core_congr h.core (fun _ => Iff.rfl)
    intro x hx
    have hne : x ≠ b := by
      rintro rfl
      exact inv_new_not_block h hdvd hpages hx
    exact update_of_ne hne _ _
  · intro x hx
    change update s.linked b false x = false
    by_cases hxb : x = b
    · rw [hxb, update_self]
    · rw [update_of_ne hxb]
      apply h.unlinked x
      simp only [live, mem_append, mem_cons] at hx ⊢
      tauto
  · intro w hw
    by_cases hwb : w = b
    · subst hwb
      refine ⟨hdvd, ?_, hpages⟩
      change 0 < pageCount (update s.size w asize w)
      rw [update_self]
      exact hcount
    · exact whole_congr h (update_whole (v := asize) hwhole) w
        ((List.mem_cons.mp hw).resolve_left hwb)
  · have hheld : (held { s with
        size := update s.size b asize
        linked := update s.linked b false
        whole := b :: s.whole
        obtained := (b, (pageCount asize).toNat) :: s.obtained }).Perm
        ((b, (pageCount asize).toNat) :: held s) := by
      rw [← held_congr (update_whole (v := asize) hwhole)]
      unfold held
      simp only [map_cons, update_self]
      exact perm_middle
    calc (b, (pageCount asize).toNat) :: s.obtained
      List.Perm _ ((b, (pageCount asize).toNat) :: (s.returned ++ held s)) := h.balance.cons _
      List.Perm _ (s.returned ++ (b, (pageCount asize).toNat) :: held s) := List.perm_middle.symm
      List.Perm _ _ := hheld.symm.append_left _

theorem inv_return_whole (h : Inv L s []) (hb : b ∈ s.whole) :
    Inv L { s with
      whole := s.whole.erase b
      returned := (b, (pageCount (s.size b)).toNat) :: s.returned } [] := by
  refine ⟨h.core, h.pagesNodup, h.lists, h.wholeNodup.erase b, ?_, ?_, ?_⟩
  · intro x hx
    apply h.unlinked x
    simp only [live, mem_append] at hx ⊢
    exact hx.imp_right mem_of_mem_erase
  · exact fun w hw => h.whole w (mem_of_mem_erase hw)
  · apply h.balance.trans
    have hperm : (held s).Perm ((b, (pageCount (s.size b)).toNat) ::
        held { s with whole := s.whole.erase b }) :=
      (((perm_cons_erase hb).map _).append_left _).trans perm_middle
    calc s.returned ++ held s
      List.Perm _ (s.returned ++ (b, (pageCount (s.size b)).toNat) ::
        held { s with whole := s.whole.erase b }) := hperm.append_left _
      List.Perm _ ((b, (pageCount (s.size b)).toNat) ::
        (s.returned ++ held { s with whole := s.whole.erase b })) := perm_middle

/-! ## `guk_xmalloc` -/

section Split

variable {hdr size block : Nat}

theorem maybeSplit_cut (h : 2 * L.H ≤ block - size) :
    maybeSplit L s hdr size block = { s with
      size := update (update s.size (hdr + size) (block - size)) hdr size
      linked := update (update s.linked (hdr + size) true) hdr false
      freelist := (hdr + size) :: s.freelist } :=
  if_pos h

theorem maybeSplit_keep (h : ¬ 2 * L.H ≤ block - size) :
    maybeSplit L s hdr size block = { s with
      size := update s.size hdr block
      linked := update s.linked hdr false } :=
  if_neg h

theorem maybeSplit_linked : (maybeSplit L s hdr size block).linked hdr = false := by
  by_cases h : 2 * L.H ≤ block - size
  · rw [maybeSplit_cut h]
    exact update_self ..
  · rw [maybeSplit_keep h]
    exact update_self ..

theorem maybeSplit_small : (maybeSplit L s hdr size block).small = s.small := by
  by_cases h : 2 * L.H ≤ block - size
  · rw [maybeSplit_cut h]
  · rw [maybeSplit_keep h]

theorem maybeSplit_size (hsize : 0 < size) :
    maybeSplit L { s with size := update s.size hdr block } hdr size block =
      maybeSplit L s hdr size block := by
  by_cases h : 2 * L.H ≤ block - size
  · rw [maybeSplit_cut h, maybeSplit_cut h, update_comm (by omega : hdr ≠ hdr + size),
      update_idem]
  · rw [maybeSplit_keep h, maybeSplit_keep h, update_idem]

theorem inv_split (h : Inv L s [hdr]) (hH : L.H ≤ size)
    (hnext : ∀ P ∈ s.pages, P ≤ hdr → hdr + s.size hdr < P + PAGE_SIZE →
      hdr + s.size hdr ∉ s.freelist) :
    Inv L (maybeSplit L s hdr size (s.size hdr)) [hdr] := by
  have hHpos := L.pos
  have hB : hdr ∈ [hdr] ∨ hdr ∈ s.freelist ∨ hdr ∈ s.small := .inl mem_cons_self
  have hout := inv_out_not_free h mem_cons_self
  have hhw := inv_block_not_whole h hB
  have hlive : ∀ x ∈ live s, x ≠ hdr := by
    rintro x hx rfl
    exact (List.mem_append.mp hx).elim hout.2 hhw
  by_cases hleft : 2 * L.H ≤ s.size hdr - size
  · rw [maybeSplit_cut hleft]
    obtain ⟨P, hP, hPle, hPlt⟩ := h.core.home hdr hB
    have hend := (core_bounds h.core hP hB hPle hPlt).2
    have hnew := core_inside h.core hB (by omega : 0 < size) (by omega)
    have hew : hdr + size ∉ s.whole := by
      intro hw
      exact inv_whole_ne h hw hP (by omega : P ≤ hdr + size) (by omega) rfl
    have hcomm : update (update s.size (hdr + size) (s.size hdr - size)) hdr size =
        update (update s.size hdr size) (hdr + size) (s.size hdr - size) :=
      update_comm (by omega) ..
    have hsame : ∀ w ∈ s.whole, update (update s.size (hdr + size)
        (s.size hdr - size)) hdr size w = s.size w := by
      intro w hw
      have hne : w ≠ hdr := fun he => hhw (he ▸ hw)
      rw [update_of_ne hne]
      exact update_whole hew w hw
    have hwhole := whole_congr h hsame
    have hbalance := h.balance
    refine ⟨?_, h.pagesNodup, ?_, h.wholeNodup, ?_, ?_, ?_⟩
    · rw [hcomm]
      apply core_congr (core_cut h.core hB hH (by omega) hout.1 hnext)
      · intro x
        simp only [mem_cons, not_mem_nil, or_false]
        tauto
      · exact fun _ _ => rfl
    · change ([hdr] ++ (hdr + size) :: _).Nodup
      rw [List.perm_middle.nodup_iff, nodup_cons]
      refine ⟨fun hmem => hnew ?_, h.lists⟩
      exact (List.mem_append.mp hmem).imp_right List.mem_append.mp
    · intro x hx
      have hne : x ≠ hdr + size := by
        rintro rfl
        exact (List.mem_append.mp hx).elim (fun hx => hnew (.inr (.inr hx))) hew
      change update (update s.linked (hdr + size) true) hdr false x = false
      rw [update_of_ne (hlive x hx), update_of_ne hne]
      exact h.unlinked x hx
    · exact hwhole
    · rw [← held_congr hsame] at hbalance
      exact hbalance
  · rw [maybeSplit_keep hleft, update_eq_self]
    refine { h with unlinked := ?_ }
    intro x hx
    change update s.linked hdr false x = false
    rw [update_of_ne (hlive x hx)]
    exact h.unlinked x hx

end Split

end Guk.Xmalloc
