import Mathlib.Data.List.Nodup
import Mathlib.Data.Nat.Basic

/-!
# A heap of blocks

Every allocation gets an address of its own. What a freed block held can still be
found at its address, and the heap notes every `free` and every access to a block
that is not live, so that freeing twice, reading after a `free` and leaking are
statements about two heaps. `Since` says what a piece of code has done to the heap
as long as it has made none of these mistakes.
-/
namespace Guk.BlockHeap

open Function List

structure Heap (β : Type) where
  content : Nat → β
  live : Nat → Bool
  next : Nat
  freed : List Nat
  stale : List Nat
  fresh : ∀ p, next ≤ p → live p = false

namespace Heap

variable {β : Type}

def malloc (h : Heap β) (b : β) : Heap β :=
  { h with
    content := update h.content h.next b
    live := update h.live h.next true
    next := h.next + 1
    fresh := by
      intro p hp
      rw [update_of_ne (by omega)]
      exact h.fresh p (by omega) }

def free (h : Heap β) (p : Nat) : Heap β :=
  { h with
    live := update h.live p false
    freed := p :: h.freed
    fresh := by
      intro q hq
      rw [update_apply]
      split
      · rfl
      · exact h.fresh q hq }

def access (h : Heap β) (p : Nat) : Heap β :=
  { h with stale := if h.live p then h.stale else p :: h.stale }

def store (h : Heap β) (p : Nat) (b : β) : Heap β :=
  { h.access p with content := update h.content p b }

@[simp] theorem content_malloc_next (h : Heap β) (b : β) : (h.malloc b).content h.next = b :=
  update_self ..

@[simp] theorem next_malloc (h : Heap β) (b : β) : (h.malloc b).next = h.next + 1 := rfl

@[simp] theorem content_free (h : Heap β) (p : Nat) : (h.free p).content = h.content := rfl

@[simp] theorem freed_free (h : Heap β) (p : Nat) : (h.free p).freed = p :: h.freed := rfl

theorem access_of_live {h : Heap β} {p : Nat} (hp : h.live p = true) : h.access p = h := by
  simp only [access, hp, if_true]

theorem lt_next_of_live {h : Heap β} {p : Nat} (hp : h.live p = true) : p < h.next := by
  by_contra hle
  rw [h.fresh p (by omega)] at hp
  cases hp

end Heap

variable {β : Type} {h₀ h : Heap β} {owned freed : List Nat} {p : Nat}

/-- Since `h₀` the blocks `owned` have come up and are still there, the blocks `freed` were freed,
the last one first, no block of `h₀` was, and nothing was accessed that was not live. -/
structure Since (h₀ : Heap β) (owned freed : List Nat) (h : Heap β) : Prop where
  live : ∀ p, h.live p = true ↔ h₀.live p = true ∨ p ∈ owned
  new : ∀ p ∈ owned, h₀.next ≤ p
  nodup : owned.Nodup
  next : h₀.next ≤ h.next
  freed : h.freed = freed ++ h₀.freed
  stale : h.stale = h₀.stale

namespace Since

theorem start (h₀ : Heap β) : Since h₀ [] [] h₀ :=
  ⟨by simp, by simp, nodup_nil, le_rfl, rfl, rfl⟩

section

variable (hs : Since h₀ owned freed h)

include hs

theorem live_of_mem (hp : p ∈ owned) : h.live p = true :=
  (hs.live p).mpr (.inr hp)

theorem access (hp : p ∈ owned) : h.access p = h :=
  Heap.access_of_live (hs.live_of_mem hp)

theorem lt_next (hp : p ∈ owned) : p < h.next :=
  Heap.lt_next_of_live (hs.live_of_mem hp)

theorem malloc (b : β) : Since h₀ (h.next :: owned) freed (h.malloc b) := by
  constructor
  · intro p
    simp only [Heap.malloc, update_apply, mem_cons]
    split
    · simp [‹p = h.next›]
    · rw [hs.live p]
      simp [‹p ≠ h.next›]
  · intro p hp
    rcases List.mem_cons.mp hp with rfl | hp
    · exact hs.next
    · exact hs.new p hp
  · exact List.nodup_cons.mpr ⟨fun hin => lt_irrefl _ (hs.lt_next hin), hs.nodup⟩
  · exact Nat.le_succ_of_le hs.next
  · exact hs.freed
  · exact hs.stale

end

theorem free (hs : Since h₀ (p :: owned) freed h) : Since h₀ owned (p :: freed) (h.free p) := by
  obtain ⟨hnot, hnodup⟩ := List.nodup_cons.mp hs.nodup
  constructor
  · intro q
    simp only [Heap.free, update_apply]
    split
    · rename_i hq
      have hold := h₀.fresh p (hs.new p mem_cons_self)
      simp [hq, hold, hnot]
    · rename_i hq
      rw [hs.live q, mem_cons]
      simp [hq]
  · intro q hq
    exact hs.new q (mem_cons_of_mem p hq)
  · exact hnodup
  · exact hs.next
  · rw [Heap.freed_free, hs.freed, cons_append]
  · exact hs.stale

theorem store (hs : Since h₀ owned freed h) (hp : p ∈ owned) (b : β) :
    Since h₀ owned freed (h.store p b) := by
  have hstale : (h.store p b).stale = h.stale := if_pos (hs.live_of_mem hp)
  exact { hs with stale := hstale.trans hs.stale }

theorem perm {owned' : List Nat} (hs : Since h₀ owned freed h) (hperm : owned.Perm owned') :
    Since h₀ owned' freed h :=
  ⟨fun p => by rw [hs.live, hperm.mem_iff], fun p hp => hs.new p (hperm.mem_iff.mpr hp),
    hperm.nodup hs.nodup, hs.next, hs.freed, hs.stale⟩

end Since

end Guk.BlockHeap
