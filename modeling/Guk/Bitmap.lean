import Mathlib.Algebra.Group.Nat.Defs
import Mathlib.Data.Nat.Basic
import Mathlib.Tactic.Common

/-!
# The allocation bitmap (`bitmap.h`, `map_alloc` and `map_free` of `mm.c`)

One bit per page in words of 64 bits; a set bit means that the page is allocated or
lies in a hole. `map_alloc` and `map_free` work on whole words with masks. Everything
else looks at the bitmap one page at a time through `allocated_in_map`, so the rest of
the development needs their effect on that only.
-/
namespace Guk.Bitmap

open Function

abbrev ENTRIES_PER_MAPWORD : Nat := 64

abbrev Map := Nat → BitVec 64

def allocatedInMap (map : Map) (s : Nat) : Bool :=
  map (s / ENTRIES_PER_MAPWORD) &&& (1#64 <<< (s % ENTRIES_PER_MAPWORD)) != 0#64

def fillWords (map : Map) (idx : Nat) (word : BitVec 64) : Nat → Map
  | 0 => map
  | n + 1 => fillWords (update map idx word) (idx + 1) word n

def mapAlloc (map : Map) (firstPage nrPages : Nat) : Map :=
  let currIdx := firstPage / ENTRIES_PER_MAPWORD
  let startOff := firstPage % ENTRIES_PER_MAPWORD
  let endIdx := (firstPage + nrPages) / ENTRIES_PER_MAPWORD
  let endOff := (firstPage + nrPages) % ENTRIES_PER_MAPWORD
  if currIdx = endIdx then
    update map currIdx (map currIdx ||| ((1#64 <<< endOff) - 1#64 &&& -(1#64 <<< startOff)))
  else
    let map := update map currIdx (map currIdx ||| -(1#64 <<< startOff))
    let map := fillWords map (currIdx + 1) (~~~0#64) (endIdx - (currIdx + 1))
    update map endIdx (map endIdx ||| ((1#64 <<< endOff) - 1#64))

def mapFree (map : Map) (firstPage nrPages : Nat) : Map :=
  let currIdx := firstPage / ENTRIES_PER_MAPWORD
  let startOff := firstPage % ENTRIES_PER_MAPWORD
  let endIdx := (firstPage + nrPages) / ENTRIES_PER_MAPWORD
  let endOff := (firstPage + nrPages) % ENTRIES_PER_MAPWORD
  if currIdx = endIdx then
    update map currIdx (map currIdx &&& (-(1#64 <<< endOff) ||| ((1#64 <<< startOff) - 1#64)))
  else
    let map := update map currIdx (map currIdx &&& ((1#64 <<< startOff) - 1#64))
    let map := fillWords map (currIdx + 1) 0#64 (endIdx - (currIdx + 1))
    update map endIdx (map endIdx &&& -(1#64 <<< endOff))

/-! ## Masks -/

variable {map : Map} {word : BitVec 64} {i n off idx s firstPage nrPages : Nat}

theorem getLsbD_below (hoff : off < 64) :
    ((1#64 <<< off) - 1#64).getLsbD i = decide (i < off) := by
  have hpow : 2 ^ off < 2 ^ 64 := Nat.pow_lt_pow_right (by decide) hoff
  have hone : 1 ≤ 2 ^ off := Nat.one_le_two_pow
  have hval : ((1#64 <<< off) - 1#64).toNat = 2 ^ off - 1 := by
    rw [BitVec.toNat_sub, BitVec.toNat_shiftLeft, BitVec.toNat_ofNat, Nat.shiftLeft_eq]
    omega
  rw [BitVec.getLsbD, hval, Nat.testBit_two_pow_sub_one]

theorem neg_mask (word : BitVec 64) : -word = ~~~(word - 1#64) := by
  rw [BitVec.neg_eq_not_add, ← BitVec.not_sub_one_eq_not_add_one]

theorem getLsbD_from (hoff : off < 64) (hi : i < 64) :
    (-(1#64 <<< off)).getLsbD i = decide (off ≤ i) := by
  rw [neg_mask, BitVec.getLsbD_not, getLsbD_below hoff, decide_eq_true hi, Bool.true_and,
    ← decide_not]
  simp only [Nat.not_lt]

theorem allocatedInMap_eq : allocatedInMap map s = (map (s / 64)).getLsbD (s % 64) := by
  have hs : s % 64 < 64 := Nat.mod_lt s (by decide)
  have hone : BitVec.twoPow 64 (s % 64) ≠ 0#64 := by
    intro h
    have hbit := BitVec.getLsbD_twoPow (w := 64) (s % 64) (s % 64)
    rw [h] at hbit
    simp [hs] at hbit
  rw [allocatedInMap, ENTRIES_PER_MAPWORD, ← BitVec.twoPow_eq, BitVec.and_twoPow]
  cases (map (s / 64)).getLsbD (s % 64) with
  | false => rfl
  | true => simpa using hone

/-! ## Ranges -/

theorem fillWords_eq : fillWords map idx word n i = if idx ≤ i ∧
    i < idx + n then word else map i := by
  induction n generalizing map idx with
  | zero =>
    rw [fillWords, if_neg (by omega)]
  | succ n ih =>
    rw [fillWords, ih]
    by_cases hi : i = idx
    · rw [if_neg (by omega), if_pos (by omega), hi, update_self]
    · rw [update_of_ne hi]
      by_cases hin : idx + 1 ≤ i ∧ i < idx + 1 + n
      · rw [if_pos hin, if_pos (by omega)]
      · rw [if_neg hin, if_neg (by omega)]

theorem rangeWords (f g : BitVec 64 → BitVec 64) {start last : Nat} (h : start < last) {map' : Map}
    (hmap : map' = fillWords (update map start (f (map start))) (start + 1) word
      (last - (start + 1))) :
    update map' last (g (map' last)) i =
      if i = last then g (map i)
      else if start < i ∧ i < last then word
      else if i = start then f (map i)
      else map i := by
  subst hmap
  by_cases hi : i = last
  · rw [if_pos hi, hi, update_self, fillWords_eq, if_neg (by omega),
      update_of_ne (ne_of_gt h)]
  · rw [if_neg hi, update_of_ne hi, fillWords_eq]
    by_cases hin : start < i ∧ i < last
    · rw [if_pos hin, if_pos (by omega)]
    · rw [if_neg hin, if_neg (by omega)]
      by_cases hfirst : i = start
      · rw [if_pos hfirst, hfirst, update_self]
      · rw [if_neg hfirst, update_of_ne hfirst]

theorem mapAlloc_one (h : firstPage / 64 = (firstPage + nrPages) / 64) :
    mapAlloc map firstPage nrPages = update map (firstPage / 64)
      (map (firstPage / 64) |||
        ((1#64 <<< ((firstPage + nrPages) % 64)) - 1#64 &&& -(1#64 <<< (firstPage % 64)))) :=
  if_pos h

theorem mapAlloc_many (h : firstPage / 64 ≠ (firstPage + nrPages) / 64) :
    mapAlloc map firstPage nrPages i =
      if i = (firstPage + nrPages) / 64 then
        map i ||| ((1#64 <<< ((firstPage + nrPages) % 64)) - 1#64)
      else if firstPage / 64 < i ∧ i < (firstPage + nrPages) / 64 then ~~~0#64
      else if i = firstPage / 64 then map i ||| -(1#64 <<< (firstPage % 64))
      else map i := by
  have hlt : firstPage / 64 < (firstPage + nrPages) / 64 := by omega
  have hif : mapAlloc map firstPage nrPages = _ := if_neg h
  rw [hif]
  exact rangeWords (· ||| -(1#64 <<< (firstPage % 64)))
    (· ||| ((1#64 <<< ((firstPage + nrPages) % 64)) - 1#64)) hlt rfl

theorem allocated_mapAlloc : allocatedInMap (mapAlloc map firstPage nrPages) s =
    (allocatedInMap map s || decide (firstPage ≤ s ∧ s < firstPage + nrPages)) := by
  have hs : s % 64 < 64 := Nat.mod_lt s (by decide)
  have hstart : firstPage % 64 < 64 := Nat.mod_lt _ (by decide)
  have hend : (firstPage + nrPages) % 64 < 64 := Nat.mod_lt _ (by decide)
  rw [allocatedInMap_eq, allocatedInMap_eq]
  by_cases hone : firstPage / 64 = (firstPage + nrPages) / 64
  · rw [mapAlloc_one hone]
    by_cases hi : s / 64 = firstPage / 64
    · rw [hi, update_self, BitVec.getLsbD_or, BitVec.getLsbD_and, getLsbD_below hend,
        getLsbD_from hstart hs, ← Bool.decide_and]
      congr 2
      apply propext
      omega
    · rw [update_of_ne hi, decide_eq_false (by omega), Bool.or_false]
  · rw [mapAlloc_many hone]
    by_cases hlast : s / 64 = (firstPage + nrPages) / 64
    · rw [if_pos hlast, BitVec.getLsbD_or, getLsbD_below hend]
      congr 2
      apply propext
      omega
    · rw [if_neg hlast]
      by_cases hin : firstPage / 64 < s / 64 ∧ s / 64 < (firstPage + nrPages) / 64
      · rw [if_pos hin, decide_eq_true (by omega), Bool.or_true, BitVec.getLsbD_not]
        simp [hs]
      · rw [if_neg hin]
        by_cases hfirst : s / 64 = firstPage / 64
        · rw [if_pos hfirst, BitVec.getLsbD_or, getLsbD_from hstart hs]
          congr 2
          apply propext
          omega
        · rw [if_neg hfirst, decide_eq_false (by omega), Bool.or_false]

theorem mapFree_eq : mapFree map firstPage nrPages i =
    ~~~mapAlloc (fun idx => ~~~map idx) firstPage nrPages i := by
  simp only [mapFree, mapAlloc]
  split
  · by_cases hi : i = firstPage / 64
    · simp [hi, neg_mask, BitVec.not_or, BitVec.not_and]
    · simp [hi]
  · simp only [update_apply, fillWords_eq]
    split_ifs <;> simp [neg_mask, BitVec.not_or]

theorem allocated_mapFree : allocatedInMap (mapFree map firstPage nrPages) s =
    (allocatedInMap map s && !decide (firstPage ≤ s ∧ s < firstPage + nrPages)) := by
  have hs : s % 64 < 64 := Nat.mod_lt s (by decide)
  have halloc : allocatedInMap (mapAlloc (fun idx => ~~~map idx) firstPage nrPages) s = _ :=
    allocated_mapAlloc
  rw [allocatedInMap_eq, allocatedInMap_eq, BitVec.getLsbD_not, decide_eq_true hs,
    Bool.true_and] at halloc
  rw [allocatedInMap_eq, allocatedInMap_eq, mapFree_eq, BitVec.getLsbD_not, decide_eq_true hs,
    Bool.true_and, halloc, Bool.not_or, Bool.not_not]

theorem mapAlloc_outside (h : i < firstPage / 64 ∨ (firstPage + nrPages) / 64 < i) :
    mapAlloc map firstPage nrPages i = map i := by
  by_cases hone : firstPage / 64 = (firstPage + nrPages) / 64
  · rw [mapAlloc_one hone, update_of_ne (by omega)]
  · rw [mapAlloc_many hone, if_neg (by omega), if_neg (by omega), if_neg (by omega)]

/-- `map_alloc` and `map_free` change the bits of the range and no other, and they write no word but
those from that of `first_page` to that of `first_page + nr_pages`. -/
theorem map_range_exact (map : Map) (firstPage nrPages : Nat) :
    (∀ s, allocatedInMap (mapAlloc map firstPage nrPages) s =
      if firstPage ≤ s ∧ s < firstPage + nrPages then true else allocatedInMap map s) ∧
    (∀ s, allocatedInMap (mapFree map firstPage nrPages) s =
      if firstPage ≤ s ∧ s < firstPage + nrPages then false else allocatedInMap map s) ∧
    ∀ idx, idx < firstPage / ENTRIES_PER_MAPWORD ∨
      (firstPage + nrPages) / ENTRIES_PER_MAPWORD < idx →
      mapAlloc map firstPage nrPages idx = map idx ∧
        mapFree map firstPage nrPages idx = map idx := by
  refine ⟨fun s => ?_, fun s => ?_, fun idx h => ⟨mapAlloc_outside h, ?_⟩⟩
  · rw [allocated_mapAlloc]
    split <;> simp [*]
  · rw [allocated_mapFree]
    split <;> simp [*]
  · rw [mapFree_eq, mapAlloc_outside h, BitVec.not_not]

end Guk.Bitmap
