import Guk.Xmalloc

/-!
# Pages and blocks of the heap

`Core` is the part of the heap's invariant that is about pages and blocks only.
Obtaining and returning a page, splitting and joining blocks, and moving a block on
and off the free list change one block at a time, and each keeps it.
-/
namespace Guk.Xmalloc

open Tiling Function

/-! ## Sizes -/

theorem and_low {x k : Nat} (hk : k < 64) (hx : x < 2 ^ 64) :
    x &&& (2 ^ 64 - 2 ^ k) = x / 2 ^ k * 2 ^ k := by
  have hmask : 2 ^ 64 - 2 ^ k = 2 ^ k * (2 ^ (64 - k) - 1) := by
    rw [Nat.mul_sub, Nat.mul_one, ← Nat.pow_add]
    congr 2
    omega
  apply Nat.eq_of_testBit_eq
  intro i
  rw [Nat.testBit_and, hmask, Nat.testBit_two_pow_mul, Nat.testBit_two_pow_sub_one, Nat.mul_comm,
    Nat.testBit_two_pow_mul, Nat.testBit_div_two_pow]
  by_cases hi : k ≤ i
  · have hik : i - k + k = i := by omega
    have hbit : x.testBit i = true → i < 64 := by
      intro hxi
      by_contra hge
      have hbig : 2 ^ 64 ≤ 2 ^ i := Nat.pow_le_pow_right (by decide) (by omega)
      rw [Nat.testBit_lt_two_pow (lt_of_lt_of_le hx hbig)] at hxi
      cases hxi
    simp only [hi, hik, decide_true, Bool.true_and]
    cases hxi : x.testBit i with
    | false => rfl
    | true =>
      have := hbit hxi
      simp only [Bool.true_and, decide_eq_true_eq]
      omega
  · simp [hi]

theorem alignUp_eq {size k : Nat} (hk : k < 64) (hlt : size + 2 ^ k - 1 < 2 ^ 64) :
    alignUp size (2 ^ k) = (size + 2 ^ k - 1) / 2 ^ k * 2 ^ k := by
  rw [alignUp, Nat.mod_eq_of_lt hlt, and_low hk hlt]

theorem le_alignUp {size k : Nat} (hk : k < 64) (hlt : size + 2 ^ k - 1 < 2 ^ 64) :
    size ≤ alignUp size (2 ^ k) := by
  rw [alignUp_eq hk hlt]
  have hpos : 0 < 2 ^ k := Nat.two_pow_pos k
  have hdiv := Nat.div_add_mod (size + 2 ^ k - 1) (2 ^ k)
  have hmod := Nat.mod_lt (size + 2 ^ k - 1) hpos
  rw [Nat.mul_comm] at hdiv
  omega

theorem blockSize_ge (L : Layout) {asize : Nat} (h : asize + L.H + L.A < 2 ^ 64) :
    asize + L.H ≤ blockSize L asize := by
  obtain ⟨k, hk, hA⟩ := L.pow
  have hpos : 0 < L.A := by rw [hA]; exact Nat.two_pow_pos k
  have hmod : (asize + L.H) % 2 ^ 64 = asize + L.H := Nat.mod_eq_of_lt (by omega)
  rw [blockSize, hmod, hA]
  apply le_alignUp hk
  rw [← hA]
  omega

/-! ## Pages -/

theorem page_unique {P Q b : Nat} (hP : PAGE_SIZE ∣ P) (hQ : PAGE_SIZE ∣ Q) (h₁ : P ≤ b)
    (h₂ : b < P + PAGE_SIZE) (h₃ : Q ≤ b) (h₄ : b < Q + PAGE_SIZE) : P = Q := by
  obtain ⟨k, rfl⟩ := hP
  obtain ⟨m, rfl⟩ := hQ
  unfold PAGE_SIZE at *
  omega

theorem page_div {P b : Nat} (hP : PAGE_SIZE ∣ P) (h₁ : P ≤ b) (h₂ : b < P + PAGE_SIZE) :
    b / PAGE_SIZE = P / PAGE_SIZE := by
  obtain ⟨k, rfl⟩ := hP
  unfold PAGE_SIZE at *
  omega

theorem same_page {P b c : Nat} (hP : PAGE_SIZE ∣ P) (h₁ : P ≤ b) (h₂ : b < P + PAGE_SIZE)
    (h : c / PAGE_SIZE = b / PAGE_SIZE) : P ≤ c ∧ c < P + PAGE_SIZE := by
  obtain ⟨k, rfl⟩ := hP
  unfold PAGE_SIZE at *
  omega

theorem page_pos : 0 < PAGE_SIZE := by decide

structure Core (L : Layout) (sz : Nat → Nat) (pages fl : List Nat) (B : Nat → Prop) : Prop where
  aligned : ∀ P ∈ pages, PAGE_SIZE ∣ P
  home : ∀ b, B b → ∃ P ∈ pages, P ≤ b ∧ b < P + PAGE_SIZE
  tiled : ∀ P ∈ pages, Tiled sz B P (P + PAGE_SIZE)
  large : ∀ b, B b → L.H ≤ sz b
  last : ∀ P ∈ pages, ∀ b, B b → P ≤ b → b < P + PAGE_SIZE → b + sz b = P + PAGE_SIZE →
    2 * L.H ≤ sz b
  free : ∀ b ∈ fl, B b ∧ sz b < PAGE_SIZE
  apart : ∀ P ∈ pages, ∀ b ∈ fl, P ≤ b → b + sz b < P + PAGE_SIZE → b + sz b ∉ fl

variable {L : Layout} {sz : Nat → Nat} {pages fl : List Nat} {B B' : Nat → Prop} {b c k P Q : Nat}

section

variable (h : Core L sz pages fl B)

include h

theorem core_bounds (hP : P ∈ pages) (hb : B b) (hle : P ≤ b)
    (hlt : b < P + PAGE_SIZE) : 0 < sz b ∧ b + sz b ≤ P + PAGE_SIZE :=
  tiled_bounds (h.tiled P hP) hb hle hlt

theorem core_inside (hb : B b) (hk : 0 < k) (hlt : k < sz b) : ¬ B (b + k) := by
  intro hB
  obtain ⟨P, hP, hle, hPlt⟩ := h.home b hb
  have hend := (core_bounds h hP hb hle hPlt).2
  have := tiled_apart (h.tiled P hP) hb hle hB (by omega) (by omega)
  omega

theorem core_congr {sz' : Nat → Nat} (hB : ∀ b, B' b ↔ B b)
    (hsz : ∀ b, B b → sz' b = sz b) : Core L sz' pages fl B' := by
  refine ⟨h.aligned, ?_, ?_, ?_, ?_, ?_, ?_⟩
  · intro b hb
    exact h.home b ((hB b).mp hb)
  · intro P hP
    exact tiled_congr (h.tiled P hP) (fun b _ _ => hB b) fun b hb _ _ => hsz b hb
  · intro b hb
    rw [hsz b ((hB b).mp hb)]
    exact h.large b ((hB b).mp hb)
  · intro P hP b hb hle hlt hend
    rw [hsz b ((hB b).mp hb)] at hend ⊢
    exact h.last P hP b ((hB b).mp hb) hle hlt hend
  · intro b hb
    obtain ⟨hBb, hlt⟩ := h.free b hb
    rw [hsz b hBb]
    exact ⟨(hB b).mpr hBb, hlt⟩
  · intro P hP b hb hle hlt hmem
    rw [hsz b (h.free b hb).1] at hlt hmem
    exact h.apart P hP b hb hle hlt hmem

theorem core_take {fl' : List Nat} (hfl : ∀ b, b ∈ fl' → b ∈ fl) : Core L sz pages fl' B := by
  refine { h with free := ?_, apart := ?_ }
  · intro b hb
    exact h.free b (hfl b hb)
  · intro P hP b hb hle hlt hmem
    exact h.apart P hP b (hfl b hb) hle hlt (hfl _ hmem)

theorem core_give (hb : B b) (hsmall : sz b < PAGE_SIZE)
    (hnext : ∀ P ∈ pages, P ≤ b → b + sz b < P + PAGE_SIZE → b + sz b ∉ fl)
    (hprev : ∀ P ∈ pages, P ≤ b → b < P + PAGE_SIZE → ∀ i ∈ fl, P ≤ i → i + sz i ≠ b) :
    Core L sz pages (b :: fl) B := by
  refine { h with free := ?_, apart := ?_ }
  · intro x hx
    cases hx with
    | head => exact ⟨hb, hsmall⟩
    | tail _ hx => exact h.free x hx
  · intro P hP x hx hle hlt hmem
    have hBx : B x := by
      cases hx with
      | head => exact hb
      | tail _ hx => exact (h.free x hx).1
    have hpos := (core_bounds h hP hBx hle (by omega)).1
    cases hx with
    | head =>
      rcases List.mem_cons.mp hmem with he | hmem
      · omega
      · exact hnext P hP hle hlt hmem
    | tail _ hx =>
      rcases List.mem_cons.mp hmem with he | hmem
      · exact hprev P hP (by omega) (by omega) x hx hle he
      · exact h.apart P hP x hx hle hlt hmem

theorem core_obtain (hP : PAGE_SIZE ∣ P) (hnew : P ∉ pages) :
    Core L (update sz P PAGE_SIZE) (P :: pages) fl (fun b => B b ∨ b = P) := by
  have hout : ∀ b, B b → P ≤ b → b < P + PAGE_SIZE → False := by
    intro b hb hle hlt
    obtain ⟨Q, hQ, hQle, hQlt⟩ := h.home b hb
    rw [page_unique hP (h.aligned Q hQ) hle hlt hQle hQlt] at hnew
    exact hnew hQ
  have hsz : ∀ b, B b → update sz P PAGE_SIZE b = sz b := by
    intro b hb
    rw [update_of_ne]
    rintro rfl
    exact hout b hb (le_refl b) (by have := page_pos; omega)
  have hfits := L.fits
  have hpage := page_pos
  constructor
  · intro Q hQ
    cases hQ with
    | head => exact hP
    | tail _ hQ => exact h.aligned Q hQ
  · rintro b (hb | rfl)
    · obtain ⟨Q, hQ, hrange⟩ := h.home b hb
      exact ⟨Q, List.mem_cons_of_mem _ hQ, hrange⟩
    · exact ⟨b, List.mem_cons_self, le_refl b, by omega⟩
  · intro Q hQ
    cases hQ with
    | head =>
      apply tiled_single (by omega)
      · rw [update_self]
        omega
      · intro b hle hlt
        constructor
        · rintro (hb | hb)
          · exact absurd (hout b hb hle hlt) not_false
          · exact hb
        · intro hb
          exact .inr hb
    | tail _ hQ =>
      apply tiled_congr (h.tiled Q hQ)
      · intro b hle hlt
        constructor
        · rintro (hb | rfl)
          · exact hb
          · rw [page_unique hP (h.aligned Q hQ) (le_refl b) (by omega) hle hlt] at hnew
            exact absurd hQ hnew
        · exact .inl
      · intro b hb _ _
        exact hsz b hb
  · rintro b (hb | rfl)
    · rw [hsz b hb]
      exact h.large b hb
    · rw [update_self]
      omega
  · rintro Q hQ b (hb | rfl) hle hlt hend
    · rw [hsz b hb] at hend ⊢
      cases hQ with
      | head => exact absurd (hout b hb hle hlt) not_false
      | tail _ hQ => exact h.last Q hQ b hb hle hlt hend
    · rw [update_self]
      omega
  · intro b hb
    obtain ⟨hBb, hlt⟩ := h.free b hb
    rw [hsz b hBb]
    exact ⟨.inl hBb, hlt⟩
  · intro Q hQ b hb hle hlt hmem
    rw [hsz b (h.free b hb).1] at hlt hmem
    cases hQ with
    | head => exact hout b (h.free b hb).1 hle (by omega)
    | tail _ hQ => exact h.apart Q hQ b hb hle hlt hmem

theorem core_not_adjacent (hP : P ∈ pages) {i j : Nat} (hj : j ∈ fl) (hi : i ∈ fl)
    (hjle : P ≤ j) (hilt : i < P + PAGE_SIZE) : j + sz j ≠ i := by
  rintro rfl
  exact h.apart P hP j hj hjle hilt hi

theorem core_split (hb : B b) (hk : L.H ≤ k) (hleft : k + 2 * L.H ≤ sz b) (hnot : b ∉ fl) :
    Core L (update (update sz b k) (b + k) (sz b - k)) pages fl
      (fun x => B x ∨ x = b + k) := by
  have hHpos := L.pos
  obtain ⟨P, hP, hle, hlt⟩ := h.home b hb
  obtain ⟨-, hend⟩ := core_bounds h hP hb hle hlt
  have hnew : ¬ B (b + k) := core_inside h hb (by omega) (by omega)
  have hne : ∀ {x}, B x → x ≠ b + k := by
    rintro x hx rfl
    exact hnew hx
  have hsame : ∀ {x}, B x → x ≠ b →
      update (update sz b k) (b + k) (sz b - k) x = sz x := by
    intro x hx hxb
    rw [update_of_ne (hne hx), update_of_ne hxb]
  have hfirst : update (update sz b k) (b + k) (sz b - k) b = k := by
    rw [update_of_ne (by omega), update_self]
  have hfl : ∀ {x}, x ∈ fl → x ≠ b := by
    rintro x hx rfl
    exact hnot hx
  refine ⟨h.aligned, ?_, ?_, ?_, ?_, ?_, ?_⟩
  · rintro x (hx | rfl)
    · exact h.home x hx
    · exact ⟨P, hP, by omega, by omega⟩
  · intro Q hQ
    by_cases hQP : Q = P
    · subst hQP
      exact tiled_split (h.tiled Q hQ) hb hle hlt (by omega) (by omega)
    · have hfar : ∀ {x}, P ≤ x → x < P + PAGE_SIZE → Q ≤ x → x < Q + PAGE_SIZE → False :=
        fun h₁ h₂ h₃ h₄ => hQP (page_unique (h.aligned Q hQ) (h.aligned P hP) h₃ h₄ h₁ h₂)
      apply tiled_congr (h.tiled Q hQ)
      · intro x hxle hxlt
        constructor
        · rintro (hx | rfl)
          · exact hx
          · exact absurd (hfar (by omega) (by omega) hxle hxlt) not_false
        · exact .inl
      · intro x hx hxle hxlt
        apply hsame hx
        rintro rfl
        exact hfar hle hlt hxle hxlt
  · rintro x (hx | rfl)
    · by_cases hxb : x = b
      · rw [hxb, hfirst]
        exact hk
      · rw [hsame hx hxb]
        exact h.large x hx
    · rw [update_self]
      omega
  · rintro Q hQ x (hx | rfl) hxle hxlt hxend
    · by_cases hxb : x = b
      · subst hxb
        rw [hfirst] at hxend
        rw [page_unique (h.aligned Q hQ) (h.aligned P hP) hxle hxlt hle hlt] at hxend
        omega
      · rw [hsame hx hxb] at hxend ⊢
        exact h.last Q hQ x hx hxle hxlt hxend
    · rw [update_self]
      omega
  · intro x hx
    obtain ⟨hBx, hsmall⟩ := h.free x hx
    rw [hsame hBx (hfl hx)]
    exact ⟨.inl hBx, hsmall⟩
  · intro Q hQ x hx hxle hxlt hmem
    rw [hsame (h.free x hx).1 (hfl hx)] at hxlt hmem
    exact h.apart Q hQ x hx hxle hxlt hmem

theorem core_cut (hb : B b) (hk : L.H ≤ k) (hleft : k + 2 * L.H ≤ sz b)
    (hnot : b ∉ fl) (hnext : ∀ P ∈ pages, P ≤ b → b + sz b < P + PAGE_SIZE → b + sz b ∉ fl) :
    Core L (update (update sz b k) (b + k) (sz b - k)) pages ((b + k) :: fl)
      (fun x => B x ∨ x = b + k) := by
  have hHpos := L.pos
  obtain ⟨P, hP, hle, hlt⟩ := h.home b hb
  have hend := (core_bounds h hP hb hle hlt).2
  have hpage : ∀ {Q}, Q ∈ pages → Q ≤ b + k → b + k < Q + PAGE_SIZE → Q = P := by
    intro Q hQ hQle hQlt
    exact page_unique (h.aligned Q hQ) (h.aligned P hP) hQle hQlt (by omega : P ≤ b + k) (by omega)
  have hsum : b + k + (sz b - k) = b + sz b := by omega
  apply core_give (core_split h hb hk hleft hnot) (.inr rfl)
  · rw [update_self]
    omega
  · intro Q hQ hQle hQlt
    rw [update_self, hsum] at hQlt ⊢
    have := hpage hQ hQle (by omega)
    exact hnext Q hQ (by omega) hQlt
  · -- a free block before `b + k` ends before `b`
    intro Q hQ hQle hQlt i hi hQi he
    obtain rfl := hpage hQ hQle hQlt
    have hBi := (h.free i hi).1
    have h₁ : i ≠ b := by
      rintro rfl
      exact hnot hi
    have h₂ : i ≠ b + k := by
      rintro rfl
      exact core_inside h hb (by omega) (by omega) hBi
    rw [update_of_ne h₂, update_of_ne h₁] at he
    rcases Nat.lt_or_gt_of_ne h₁ with hlt' | hgt
    · have := tiled_apart (h.tiled Q hQ) hBi hQi hb hlt' hlt
      omega
    · have := tiled_apart (h.tiled Q hQ) hb hle hBi hgt (by omega)
      omega

theorem core_join (hP : P ∈ pages) (hb : B b) (hle : P ≤ b) (hc : B c)
    (hadj : b + sz b = c) (hlt : c < P + PAGE_SIZE) (hbfl : b ∉ fl) (hcfl : c ∉ fl) :
    Core L (update sz b (sz b + sz c)) pages fl (fun x => B x ∧ x ≠ c) := by
  obtain ⟨hpos, -⟩ := core_bounds h hP hb hle (by omega)
  have hsame : ∀ {x}, x ≠ b → update sz b (sz b + sz c) x = sz x :=
    fun hx => update_of_ne hx _ _
  have hfl : ∀ {x}, x ∈ fl → x ≠ b := by
    rintro x hx rfl
    exact hbfl hx
  refine ⟨h.aligned, fun x hx => h.home x hx.1, ?_, ?_, ?_, ?_, ?_⟩
  · intro Q hQ
    by_cases hQP : Q = P
    · subst hQP
      exact tiled_join (h.tiled Q hQ) hb hle hadj hc hlt
    · have hfar : ∀ {x}, P ≤ x → x < P + PAGE_SIZE → Q ≤ x → x < Q + PAGE_SIZE → False :=
        fun h₁ h₂ h₃ h₄ => hQP (page_unique (h.aligned Q hQ) (h.aligned P hP) h₃ h₄ h₁ h₂)
      apply tiled_congr (h.tiled Q hQ)
      · intro x hxle hxlt
        constructor
        · exact fun hx => hx.1
        · intro hx
          refine ⟨hx, ?_⟩
          rintro rfl
          exact hfar (by omega) hlt hxle hxlt
      · intro x hx hxle hxlt
        apply hsame
        rintro rfl
        exact hfar hle (by omega) hxle hxlt
  · intro x hx
    by_cases hxb : x = b
    · have := h.large b hb
      rw [hxb, update_self]
      omega
    · rw [hsame hxb]
      exact h.large x hx.1
  · intro Q hQ x hx hxle hxlt hxend
    by_cases hxb : x = b
    · subst hxb
      rw [update_self] at hxend ⊢
      have hQP := page_unique (h.aligned Q hQ) (h.aligned P hP) hxle hxlt hle (by omega)
      have := h.last P hP c hc (by omega) hlt (by omega)
      omega
    · rw [hsame hxb] at hxend ⊢
      exact h.last Q hQ x hx.1 hxle hxlt hxend
  · intro x hx
    obtain ⟨hBx, hsmall⟩ := h.free x hx
    rw [hsame (hfl hx)]
    refine ⟨⟨hBx, ?_⟩, hsmall⟩
    rintro rfl
    exact hcfl hx
  · intro Q hQ x hx hxle hxlt hmem
    rw [hsame (hfl hx)] at hxlt hmem
    exact h.apart Q hQ x hx hxle hxlt hmem

theorem core_return (hnd : pages.Nodup) (hP : P ∈ pages) (hB : B P)
    (hsz : sz P = PAGE_SIZE) (hnot : P ∉ fl) :
    Core L sz (pages.erase P) fl (fun x => B x ∧ x ≠ P) := by
  have hpage := page_pos
  have hother : ∀ {Q}, Q ∈ pages.erase P → Q ∈ pages ∧ Q ≠ P := by
    intro Q hQ
    have := (hnd.mem_erase_iff).mp hQ
    exact ⟨this.2, this.1⟩
  refine ⟨fun Q hQ => h.aligned Q (hother hQ).1, ?_, ?_, fun x hx => h.large x hx.1,
    fun Q hQ x hx => h.last Q (hother hQ).1 x hx.1, ?_, fun Q hQ => h.apart Q (hother hQ).1⟩
  · rintro x ⟨hx, hne⟩
    obtain ⟨Q, hQ, hle, hlt⟩ := h.home x hx
    refine ⟨Q, ?_, hle, hlt⟩
    apply hnd.mem_erase_iff.mpr
    refine ⟨?_, hQ⟩
    rintro rfl
    have := tiled_apart (h.tiled Q hQ) hB (le_refl Q) hx (by omega) hlt
    omega
  · intro Q hQ
    obtain ⟨hmem, hne⟩ := hother hQ
    apply tiled_congr (h.tiled Q hmem)
    · intro x hle hlt
      constructor
      · exact fun hx => hx.1
      · intro hx
        refine ⟨hx, ?_⟩
        rintro rfl
        exact hne (page_unique (h.aligned Q hmem) (h.aligned x hP) hle hlt (le_refl x)
          (by omega))
    · intro x _ _ _
      rfl
  · intro x hx
    obtain ⟨hBx, hsmall⟩ := h.free x hx
    refine ⟨⟨hBx, ?_⟩, hsmall⟩
    rintro rfl
    exact hnot hx

end

end Guk.Xmalloc
