import Guk.PagePoolInv

/-!
# Where the allocation bitmap lies

`init_page_allocator` sets the first pages of its range aside for `alloc_bitmap`, as many
as the maximal reservation divided by the number of bits in a page, and starts the
pool behind them.
-/
namespace Guk.PagePool

def PAGE_SIZE : Nat := 4096

def bitmapPages (maximumReservation : Nat) : Nat := maximumReservation / BITS_PER_PAGE

def firstAllocPage (min maximumReservation : Nat) : Nat := min + bitmapPages maximumReservation

def mapWord (min p : Nat) : Nat := min * PAGE_SIZE + 8 * (p / Bitmap.ENTRIES_PER_MAPWORD)

structure BitmapCovers (min maximumReservation : Nat) : Prop where
  bits : ∀ p < maximumReservation, min * PAGE_SIZE ≤ mapWord min p ∧
    mapWord min p + 8 ≤ (min + bitmapPages maximumReservation) * PAGE_SIZE
  apart : ∀ page, min ≤ page → page < min + bitmapPages maximumReservation →
    ¬ (firstAllocPage min maximumReservation ≤ page ∧ page < maximumReservation)

variable {min p : Nat} {c : Config}

theorem initPageAllocator_layout : (initPageAllocator c).firstAllocPage =
    firstAllocPage c.min c.maximumReservation ∧
      (initPageAllocator c).maxEndAllocPage = c.maximumReservation := ⟨rfl, rfl⟩

theorem mapWord_inside {pages : Nat} :
    mapWord min p + 8 ≤ (min + pages) * PAGE_SIZE ↔ p < pages * BITS_PER_PAGE := by
  simp only [mapWord, PAGE_SIZE, BITS_PER_PAGE, Bitmap.ENTRIES_PER_MAPWORD]
  omega

theorem bitmap_covers_iff (min maximumReservation : Nat) :
    BitmapCovers min maximumReservation ↔ BITS_PER_PAGE ∣ maximumReservation := by
  constructor
  · intro h
    have hle : maximumReservation ≤ bitmapPages maximumReservation * BITS_PER_PAGE := by
      by_contra hlt
      -- the first page without a bit
      have hword := (h.bits (bitmapPages maximumReservation * BITS_PER_PAGE) (by omega)).2
      exact absurd (mapWord_inside.mp hword) (lt_irrefl _)
    have hge : bitmapPages maximumReservation * BITS_PER_PAGE ≤ maximumReservation :=
      Nat.div_mul_le_self maximumReservation BITS_PER_PAGE
    exact ⟨bitmapPages maximumReservation, by rw [Nat.mul_comm]; omega⟩
  · intro hdvd
    have hall : bitmapPages maximumReservation * BITS_PER_PAGE = maximumReservation :=
      Nat.div_mul_cancel hdvd
    constructor
    · intro p hp
      refine ⟨Nat.le_add_right _ _, ?_⟩
      rw [mapWord_inside, hall]
      exact hp
    · rintro page _ hlt ⟨hle, -⟩
      exact absurd hle (not_le.mpr hlt)

/-- A domain of 25600 pages gets no page for its bitmap: the bits of its first pages lie in the
first page that is handed out. -/
theorem bitmap_not_covering :
    ¬ ∀ min initial maximumReservation, initial ≤ maximumReservation →
      BitmapCovers min maximumReservation := by
  intro hall
  have hword := ((hall 3 25600 25600 le_rfl).bits 0 (by decide)).2
  exact absurd hword (by decide)

end Guk.PagePool
