import Mathlib.Data.List.Basic
import Mathlib.Data.Nat.Basic

/-!
# Intervals tiled by blocks

A block is named by its start, and `sz b` is its length. `Tiles sz lo bs hi` says
that the blocks `bs`, in this order, cover `[lo, hi)` without gap or overlap. The
heap does not keep that list: `Tiled sz B lo hi` says that the starts in `[lo, hi)`
that satisfy `B` are the blocks of some tiling, and splitting and joining blocks
are stated for it.
-/
namespace Guk.Tiling

open Function List

def Tiles (sz : Nat → Nat) : Nat → List Nat → Nat → Prop
  | lo, [], hi => lo = hi
  | lo, b :: bs, hi => b = lo ∧ 0 < sz b ∧ Tiles sz (lo + sz b) bs hi

variable {sz sz' : Nat → Nat} {lo hi b c k n : Nat} {l₁ l₂ bs : List Nat}

@[simp] theorem tiles_nil : Tiles sz lo [] hi ↔ lo = hi := Iff.rfl
@[simp] theorem tiles_cons :
    Tiles sz lo (b :: bs) hi ↔ b = lo ∧ 0 < sz b ∧ Tiles sz (lo + sz b) bs hi := Iff.rfl

theorem tiles_le (h : Tiles sz lo bs hi) : lo ≤ hi := by
  induction bs generalizing lo with
  | nil => exact le_of_eq h
  | cons b bs ih =>
    have := ih h.2.2
    omega

theorem tiles_append : Tiles sz lo (l₁ ++ l₂) hi ↔ ∃ mid, Tiles sz lo l₁ mid ∧
    Tiles sz mid l₂ hi := by
  induction l₁ generalizing lo with
  | nil => simp
  | cons b l₁ ih =>
    simp only [cons_append, tiles_cons, ih]
    constructor
    · intro ⟨hb, hpos, mid, h₁, h₂⟩
      exact ⟨mid, ⟨hb, hpos, h₁⟩, h₂⟩
    · intro ⟨mid, ⟨hb, hpos, h₁⟩, h₂⟩
      exact ⟨hb, hpos, mid, h₁, h₂⟩

section

variable (h : Tiles sz lo bs hi)

include h

theorem tiles_bounds (hb : b ∈ bs) : lo ≤ b ∧ 0 < sz b ∧ b + sz b ≤ hi := by
  induction bs generalizing lo with
  | nil => cases hb
  | cons a bs ih =>
    obtain ⟨ha, hpos, htail⟩ := h
    cases hb with
    | head =>
      have := tiles_le htail
      omega
    | tail _ hb =>
      have := ih htail hb
      omega

theorem tiles_congr (hagree : ∀ b ∈ bs, sz' b = sz b) : Tiles sz' lo bs hi := by
  induction bs generalizing lo with
  | nil => exact h
  | cons a bs ih =>
    obtain ⟨ha, hpos, htail⟩ := h
    have hsame := hagree a mem_cons_self
    apply tiles_cons.mpr
    rw [hsame]
    exact ⟨ha, hpos, ih htail fun b hb => hagree b (mem_cons_of_mem a hb)⟩

theorem tiles_next (hb : b ∈ bs) (hlt : b + sz b < hi) : b + sz b ∈ bs := by
  induction bs generalizing lo with
  | nil => cases hb
  | cons a bs ih =>
    obtain ⟨ha, hpos, htail⟩ := h
    cases hb with
    | head =>
      cases bs with
      | nil =>
        have : lo + sz b = hi := htail
        omega
      | cons c bs =>
        have hc := htail.1
        have hnext : b + sz b = c := by omega
        rw [hnext]
        exact mem_cons_of_mem _ mem_cons_self
    | tail _ hb => exact mem_cons_of_mem _ (ih htail hb)

theorem tiles_apart (hb : b ∈ bs) (hc : c ∈ bs) (hlt : b < c) : b + sz b ≤ c := by
  induction bs generalizing lo with
  | nil => cases hb
  | cons a bs ih =>
    obtain ⟨ha, hpos, htail⟩ := h
    cases hb with
    | head =>
      cases hc with
      | head => omega
      | tail _ hc =>
        have := (tiles_bounds htail hc).1
        omega
    | tail _ hb =>
      cases hc with
      | head =>
        have := (tiles_bounds htail hb).1
        omega
      | tail _ hc => exact ih htail hb hc

theorem tiles_nodup : bs.Nodup := by
  induction bs generalizing lo with
  | nil => exact nodup_nil
  | cons a bs ih =>
    obtain ⟨ha, hpos, htail⟩ := h
    apply List.nodup_cons.mpr
    constructor
    · intro hmem
      have := (tiles_bounds htail hmem).1
      omega
    · exact ih htail

end

theorem tiles_split (h : Tiles sz lo (l₁ ++ b :: l₂) hi) (hk : 0 < k) (hlt : k < sz b) :
    Tiles (update (update sz b k) (b + k) (sz b - k)) lo
      (l₁ ++ b :: (b + k) :: l₂) hi := by
  have hmem : ∀ x ∈ l₁ ++ b :: l₂, x ≠ b + k := by
    intro x hx he
    have hb : b ∈ l₁ ++ b :: l₂ := mem_append_right _ mem_cons_self
    have := tiles_apart h hb hx (by omega)
    omega
  have hnd := tiles_nodup h
  rw [nodup_append] at hnd
  obtain ⟨mid, h₁, hb, hpos, h₂⟩ := tiles_append.mp h
  have hb₁ : ∀ x ∈ l₁, x ≠ b := fun x hx => hnd.2.2 x hx b mem_cons_self
  have hb₂ : ∀ x ∈ l₂, x ≠ b := by
    rintro x hx rfl
    exact (List.nodup_cons.mp hnd.2.1).1 hx
  apply tiles_append.mpr
  refine ⟨mid, ?_, hb, ?_, ?_, ?_, ?_⟩
  · apply tiles_congr h₁
    intro x hx
    rw [update_of_ne (hmem x (mem_append_left _ hx)), update_of_ne (hb₁ x hx)]
  · rw [update_of_ne (by omega), update_self]
    exact hk
  · rw [update_of_ne (by omega : b ≠ b + k), update_self, hb]
  · rw [update_self]
    omega
  · rw [update_self, update_of_ne (by omega : b ≠ b + k), update_self]
    have hsum : mid + k + (sz b - k) = mid + sz b := by omega
    rw [hsum]
    apply tiles_congr h₂
    intro x hx
    rw [update_of_ne (hmem x (by simp [hx])), update_of_ne (hb₂ x hx)]

theorem tiles_join (h : Tiles sz lo (l₁ ++ b :: c :: l₂) hi) :
    Tiles (update sz b (sz b + sz c)) lo (l₁ ++ b :: l₂) hi := by
  have hnd := tiles_nodup h
  rw [nodup_append] at hnd
  obtain ⟨mid, h₁, hb, hpos, hc, hpos', h₂⟩ := tiles_append.mp h
  apply tiles_append.mpr
  refine ⟨mid, ?_, hb, ?_, ?_⟩
  · apply tiles_congr h₁
    intro x hx
    rw [update_of_ne (hnd.2.2 x hx b mem_cons_self)]
  · rw [update_self]
    omega
  · rw [update_self, ← Nat.add_assoc]
    apply tiles_congr h₂
    intro x hx
    rw [update_of_ne]
    rintro rfl
    exact (List.nodup_cons.mp hnd.2.1).1 (mem_cons_of_mem _ hx)

theorem tiles_dvd (h : Tiles sz lo bs hi) (hlo : n ∣ lo) (hsz : ∀ b ∈ bs, n ∣ sz b) :
    ∀ b ∈ bs, n ∣ b := by
  induction bs generalizing lo with
  | nil => exact fun _ hb => absurd hb not_mem_nil
  | cons a bs ih =>
    obtain ⟨rfl, -, htail⟩ := h
    obtain ⟨ha, hbs⟩ := List.forall_mem_cons.mp hsz
    exact List.forall_mem_cons.mpr ⟨hlo, ih htail (Nat.dvd_add hlo ha) hbs⟩

/-! ## Sets of blocks -/

variable {B B' : Nat → Prop}

/-- The blocks of the set that start in `[lo, hi)` tile it. -/
def Tiled (sz : Nat → Nat) (B : Nat → Prop) (lo hi : Nat) : Prop :=
  ∃ bs, Tiles sz lo bs hi ∧ ∀ b, b ∈ bs ↔ B b ∧ lo ≤ b ∧ b < hi

theorem tiled_single (hlt : lo < hi) (hsz : sz lo = hi - lo)
    (hB : ∀ b, lo ≤ b → b < hi → (B b ↔ b = lo)) :
    Tiled sz B lo hi := by
  refine ⟨[lo], ⟨rfl, by omega, by rw [tiles_nil]; omega⟩, ?_⟩
  intro b
  rw [mem_singleton]
  constructor
  · rintro rfl
    exact ⟨(hB b (le_refl b) hlt).mpr rfl, le_refl b, hlt⟩
  · intro ⟨hb, hle, hlt'⟩
    exact (hB b hle hlt').mp hb

section

variable (h : Tiled sz B lo hi)

include h

theorem tiled_bounds (hb : B b) (hle : lo ≤ b) (hlt : b < hi) : 0 < sz b ∧ b + sz b ≤ hi := by
  obtain ⟨bs, ht, hmem⟩ := h
  exact (tiles_bounds ht ((hmem b).mpr ⟨hb, hle, hlt⟩)).2

theorem tiled_next (hb : B b) (hle : lo ≤ b) (hlt : b + sz b < hi) : B (b + sz b) := by
  obtain ⟨bs, ht, hmem⟩ := h
  have hin : b ∈ bs := (hmem b).mpr ⟨hb, hle, by omega⟩
  exact ((hmem _).mp (tiles_next ht hin hlt)).1

theorem tiled_apart (hb : B b) (hle : lo ≤ b) (hc : B c) (hlt : b < c)
    (hhi : c < hi) : b + sz b ≤ c := by
  obtain ⟨bs, ht, hmem⟩ := h
  exact tiles_apart ht ((hmem b).mpr ⟨hb, hle, by omega⟩) ((hmem c).mpr ⟨hc, by omega, hhi⟩) hlt

theorem tiled_dvd (hlo : n ∣ lo) (hsz : ∀ b, B b → n ∣ sz b) (hb : B b)
    (hle : lo ≤ b) (hlt : b < hi) : n ∣ b := by
  obtain ⟨bs, ht, hmem⟩ := h
  exact tiles_dvd ht hlo (fun c hc => hsz c ((hmem c).mp hc).1) b ((hmem b).mpr ⟨hb, hle, hlt⟩)

theorem tiled_first (hlt : lo < hi) : B lo := by
  obtain ⟨bs, ht, hmem⟩ := h
  cases bs with
  | nil =>
    have : lo = hi := ht
    omega
  | cons a bs =>
    have ha : a = lo := ht.1
    have := (hmem a).mp mem_cons_self
    rw [← ha]
    exact this.1

theorem tiled_congr (hB : ∀ b, lo ≤ b → b < hi → (B' b ↔ B b))
    (hsz : ∀ b, B b → lo ≤ b → b < hi → sz' b = sz b) : Tiled sz' B' lo hi := by
  obtain ⟨bs, ht, hmem⟩ := h
  refine ⟨bs, ?_, ?_⟩
  · apply tiles_congr ht
    intro b hb
    obtain ⟨hB, hle, hlt⟩ := (hmem b).mp hb
    exact hsz b hB hle hlt
  · intro b
    rw [hmem b]
    constructor
    · intro ⟨hb, hle, hlt⟩
      exact ⟨(hB b hle hlt).mpr hb, hle, hlt⟩
    · intro ⟨hb, hle, hlt⟩
      exact ⟨(hB b hle hlt).mp hb, hle, hlt⟩

theorem tiled_split (hb : B b) (hle : lo ≤ b) (hlt : b < hi) (hk : 0 < k) (hksz : k < sz b) :
    Tiled (update (update sz b k) (b + k) (sz b - k)) (fun x => B x ∨ x = b + k) lo hi := by
  have hend := (tiled_bounds h hb hle hlt).2
  obtain ⟨bs, ht, hmem⟩ := h
  have hin : b ∈ bs := (hmem b).mpr ⟨hb, hle, hlt⟩
  obtain ⟨l₁, l₂, rfl⟩ := append_of_mem hin
  refine ⟨_, tiles_split ht hk hksz, ?_⟩
  intro x
  have hx := hmem x
  simp only [mem_append, mem_cons] at hx ⊢
  constructor
  · rintro (h₁ | h₁ | h₁ | h₁)
    · have := hx.mp (.inl h₁)
      exact ⟨.inl this.1, this.2⟩
    · have := hx.mp (.inr (.inl h₁))
      exact ⟨.inl this.1, this.2⟩
    · exact ⟨.inr h₁, by omega, by omega⟩
    · have := hx.mp (.inr (.inr h₁))
      exact ⟨.inl this.1, this.2⟩
  · rintro ⟨h₁ | h₁, hrange⟩
    · rcases hx.mpr ⟨h₁, hrange⟩ with h₂ | h₂ | h₂
      · exact .inl h₂
      · exact .inr (.inl h₂)
      · exact .inr (.inr (.inr h₂))
    · exact .inr (.inr (.inl h₁))

theorem tiled_join (hb : B b) (hle : lo ≤ b) (hc : b + sz b = c) (hBc : B c)
    (hlt : c < hi) : Tiled (update sz b (sz b + sz c)) (fun x => B x ∧ x ≠ c) lo hi := by
  obtain ⟨bs, ht, hmem⟩ := h
  have hin : b ∈ bs := (hmem b).mpr ⟨hb, hle, by omega⟩
  have hcin : c ∈ bs := (hmem c).mpr ⟨hBc, by omega, hlt⟩
  obtain ⟨l₁, l₂, rfl⟩ := append_of_mem hin
  have hnd := tiles_nodup ht
  -- the block behind `b` in the list is the one that starts where `b` ends
  obtain ⟨l₃, rfl⟩ : ∃ l₃, l₂ = c :: l₃ := by
    obtain ⟨mid, -, hmid, hpos, htail⟩ := tiles_append.mp ht
    cases l₂ with
    | nil =>
      have : mid + sz b = hi := htail
      omega
    | cons d l₃ =>
      have hd := htail.1
      exact ⟨l₃, by rw [hd, ← hmid, hc]⟩
  refine ⟨_, tiles_join ht, ?_⟩
  intro x
  have hx := hmem x
  have hcnot : c ∉ l₁ ++ b :: l₃ := by
    intro hcl
    rw [nodup_append] at hnd
    obtain ⟨-, hnd₂, hnd₃⟩ := hnd
    rcases List.mem_append.mp hcl with h₁ | h₁
    · exact hnd₃ c h₁ c (by simp) rfl
    · rcases List.mem_cons.mp h₁ with h₂ | h₂
      · exact (List.nodup_cons.mp hnd₂).1 (by simp [h₂])
      · exact (List.nodup_cons.mp (List.nodup_cons.mp hnd₂).2).1 h₂
  constructor
  · intro hxl
    have hxin : x ∈ l₁ ++ b :: c :: l₃ := by
      simp only [mem_append, mem_cons] at hxl ⊢
      tauto
    refine ⟨⟨(hx.mp hxin).1, ?_⟩, (hx.mp hxin).2⟩
    rintro rfl
    exact hcnot hxl
  · intro ⟨⟨hBx, hne⟩, hrange⟩
    have hxin := hx.mpr ⟨hBx, hrange⟩
    simp only [mem_append, mem_cons] at hxin ⊢
    tauto

end

end Guk.Tiling
