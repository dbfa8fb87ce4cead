import Guk.PagePoolBalloon
import Guk.PagePoolCount
import Guk.PagePoolSound

/-!
# Shrinking the pool

`guk_decrease_page_pool` goes down from the end of the pool and gives one run of free
pages after the other back to Xen, until it has the number it was asked for. What it
returns is the size of the last run.
-/
namespace Guk.PagePool

open Bitmap Runs List

/-! ## The functions -/

def decreaseableRun (s : Pool) : Nat → Nat → Nat → Nat × Nat
  | 0, page, n => (page, n)
  | fuel + 1, page, n =>
    if !allocated s page ∧ s.firstBulkPage ≤ page then decreaseableRun s fuel (page - 1) (n + 1)
    else (page, n)

def decreaseableLoop (s : Pool) : Nat → Nat → Nat → Nat
  | 0, _, n => n
  | fuel + 1, page, n =>
    if s.firstBulkPage ≤ page then
      let (page, n) := if !allocated s page then decreaseableRun s page page n else (page, n)
      decreaseableLoop s fuel (page - 1) n
    else n

def gukDecreaseablePagePool (s : Pool) : Nat :=
  decreaseableLoop s s.endAllocPage (s.endAllocPage - 1) 0

/-- What happens when the record of a hole is made, by the page that the loop is at: whether the
heap needs another page for it, and what Xen answers if that needs more memory. -/
abbrev Heap := Nat → Bool × Xen

def decreaseLoop (heap : Heap) : Nat → Pool → Decrease → List Hole → Option (Pool × Nat × List Hole)
  | 0, _, _, _ => none
  | fuel + 1, s, d, handed =>
    if d.more s then
      (decreaseRound s d (heap d.page).1 (heap d.page).2).bind fun (t, d') =>
        decreaseLoop heap fuel t d' (if allocated s d.page then handed else d.hole s :: handed)
    else some (s, d.rc, handed)

def gukDecreasePagePool (s : Pool) (n : Nat) (heap : Heap) : Option (Pool × Nat × List Hole) :=
  decreaseLoop heap s.endAllocPage s ⟨s.endAllocPage - 1, n, 0⟩ []

/-! ## What it should do -/

def Top (s : Pool) (k p : Nat) : Prop :=
  s.firstBulkPage ≤ p ∧ p < s.endAllocPage ∧ allocated s p = false ∧
    clearBits s (p + 1) s.endAllocPage < k

/-- The pool without the `k` pages and without the pages that the heap took for the records, which
are none of the `k`. -/
structure Accounts (s : Pool) (k : Nat) (t : Pool) (heapPages : List Nat) : Prop where
  live : t.live = heapPages.map (fun p => (p, 1)) ++ s.live
  apart : ∀ p ∈ heapPages, ¬ Top s k p
  bits : ∀ p, allocated t p = true ↔ allocated s p = true ∨ Top s k p ∨ p ∈ heapPages
  free : (t.numFreePages + k + heapPages.length) % 2 ^ 64 = s.numFreePages % 2 ^ 64
  freeBulk : (t.numFreeBulkPages + k + heapPages.countP (s.firstBulkPage ≤ ·)) % 2 ^ 64 =
    s.numFreeBulkPages % 2 ^ 64

/-- The highest `k` free pages of the bulk region, and no others, are handed to Xen, recorded as
holes, marked in the bitmap and taken off the counters, and `k` is returned. -/
structure Released (s : Pool) (k : Nat) (t : Pool) (rc : Nat) (handed : List Hole) : Prop where
  pages : ∀ p, (∃ h ∈ handed, h.Has p) ↔ Top s k p
  number : t.released = s.released + k
  kept : t.gained = s.gained
  holes : ∀ p, InHole t p ↔ InHole s p ∨ Top s k p
  accounts : ∃ heapPages, Accounts s k t heapPages
  returned : rc = k

/-- The highest `k` free pages of the bulk region are the pages from `start` on. -/
structure OneRun (s : Pool) (k start : Nat) : Prop where
  low : s.firstBulkPage ≤ start
  high : start + k ≤ s.endAllocPage
  free : ∀ p, start ≤ p → p < start + k → allocated s p = false
  above : ∀ p, start + k ≤ p → p < s.endAllocPage → allocated s p = true

/-- The first free page that the search in the bulk region finds lies below the run, and the record
that it is for stays: a hole right below the first hole is joined to it, the record is freed, and
`num_free_bulk_pages` does not get the page back. -/
def RoomBelow (s : Pool) (k start : Nat) : Prop :=
  (∃ p, s.firstFreeBulkPage ≤ p ∧ s.firstBulkPage ≤ p ∧ p < start ∧ allocated s p = false ∧
    ∀ q, s.firstFreeBulkPage ≤ q → q < p → allocated s q = true) ∧
  ∀ h ∈ s.memoryHoleList.head?, h.startPfn ≠ start + k

variable {s t u : Pool} {b newPage : Bool} {page n p q rc k nn start fuel result : Nat}
  {hole : Hole} {handed hs : List Hole} {xen : Xen} {r : Option Nat} {d d' : Decrease} {heap : Heap}

/-! ## `guk_decreaseable_page_pool` -/

theorem decreaseableRun_spec (h : decreaseableRun s fuel page n = (q, nn))
    (hpos : 1 ≤ s.firstBulkPage)
    (hfuel : page < fuel + s.firstBulkPage) (hpage : s.firstBulkPage ≤ page + 1) :
    nn = n + clearBits s (q + 1) (page + 1) ∧ q ≤ page ∧
      (q + 1 = s.firstBulkPage ∨ s.firstBulkPage ≤ q ∧ allocated s q = true) := by
  induction fuel generalizing page n with
  | zero =>
    cases h
    refine ⟨?_, le_rfl, .inl (by omega)⟩
    simp [clearBits, countIn]
  | succ fuel ih =>
    rw [decreaseableRun] at h
    split at h
    case isTrue hloop =>
      obtain ⟨hfree, hbulk⟩ := hloop
      obtain ⟨h₁, h₂, h₃⟩ := ih h (by omega) (by omega)
      refine ⟨?_, by omega, h₃⟩
      have hsplit :=
        clearBits_split (s := s) (show q + 1 ≤ page by omega) (show page ≤ page + 1 by omega)
      have hone : clearBits s page (page + 1) = page + 1 - page := by
        apply clearBits_of_free
        intro p hle hlt
        rw [show p = page by omega]
        simpa using hfree
      rw [Nat.sub_add_cancel (by omega)] at h₁
      omega
    case isFalse hstop =>
      cases h
      refine ⟨by simp [clearBits, countIn], le_rfl, ?_⟩
      by_cases hbulk : s.firstBulkPage ≤ q
      · cases hset : allocated s q with
        | true => exact .inr ⟨hbulk, rfl⟩
        | false => exact absurd ⟨by simp [hset], hbulk⟩ hstop
      · exact .inl (by omega)

theorem decreaseableLoop_eq (hpos : 1 ≤ s.firstBulkPage) (hfuel : page < fuel + s.firstBulkPage) :
    decreaseableLoop s fuel page n = n + clearBits s s.firstBulkPage (page + 1) := by
  have hnone : ∀ {lo hi}, hi ≤ lo → clearBits s lo hi = 0 :=
    fun hle => clearBits_eq_zero.mpr fun p h₁ h₂ => by omega
  induction fuel generalizing page n with
  | zero =>
    rw [hnone (by omega)]
    rfl
  | succ fuel ih =>
    rw [decreaseableLoop]
    split
    case isFalse hlow =>
      rw [hnone (by omega)]
      rfl
    case isTrue hbulk =>
      -- where the inner loop leaves off, and what is left of the region then
      have hrest : ∀ q m, q ≤ page → m = n + clearBits s (q + 1) (page + 1) →
          (q + 1 = s.firstBulkPage ∨ s.firstBulkPage ≤ q ∧ allocated s q = true) →
          decreaseableLoop s fuel (q - 1) m = n + clearBits s s.firstBulkPage (page + 1) := by
        intro q m hq hm hstop
        rw [ih (by omega), hm]
        rcases hstop with hstop | hstop
        · rw [hnone (by omega : q - 1 + 1 ≤ s.firstBulkPage), hstop]
          rfl
        · have hbelow := clearBits_split (s := s) hstop.1 (show q ≤ page + 1 by omega)
          have habove :=
            clearBits_split (s := s) (show q ≤ q + 1 by omega) (show q + 1 ≤ page + 1 by omega)
          have hzero : clearBits s q (q + 1) = 0 := by
            apply clearBits_eq_zero.mpr
            intro p hle hlt
            rw [show p = q by omega, hstop.2]
          rw [Nat.sub_add_cancel (by omega)]
          omega
      cases hset : allocated s page with
      | true =>
        apply hrest page n le_rfl _ (.inr ⟨hbulk, hset⟩)
        rw [hnone le_rfl]
        rfl
      | false =>
        rcases hrun : decreaseableRun s page page n with ⟨q, m⟩
        obtain ⟨hm, hq, hstop⟩ := decreaseableRun_spec hrun hpos (by omega) (by omega)
        exact hrest q m hq hm hstop

theorem gukDecreaseablePagePool_eq (h : Sound k s) :
    gukDecreaseablePagePool s = clearBits s s.firstBulkPage s.endAllocPage := by
  have hpos := h.pos
  have hle := h.bulk_le
  rw [gukDecreaseablePagePool, decreaseableLoop_eq hpos (by omega), Nat.sub_add_cancel (by omega),
    Nat.zero_add]

/-! ## A round -/

theorem holePages_append (a b : List Hole) : holePages (a ++ b) = holePages a + holePages b := by
  induction a with
  | nil => exact (Nat.zero_add _).symm
  | cons h a ih =>
    rw [cons_append, holePages, holePages, ih, Nat.add_assoc]

theorem afterRecord_released : (afterRecord t hole r).released = t.released + hole.size :=
  afterRecord_frame Pool.released fun _ _ => deallocate_released

theorem afterRecord_gained : (afterRecord t hole r).gained = t.gained :=
  afterRecord_frame Pool.gained fun _ _ => deallocate_gained

theorem afterRecord_firstBulkPage : (afterRecord t hole r).firstBulkPage = t.firstBulkPage :=
  afterRecord_frame Pool.firstBulkPage fun _ _ => deallocate_firstBulkPage

theorem afterRecord_numFreeBulkPages :
    (afterRecord t hole r).numFreeBulkPages = sub64 t.numFreeBulkPages hole.size :=
  afterRecord_frame Pool.numFreeBulkPages fun _ _ => deallocate_numFreeBulkPages

theorem decreaseRound_allocated (hset : allocated s d.page = true) :
    decreaseRound s d newPage xen = some (s, { d with page := d.page - 1 }) := by
  rw [decreaseRound, if_pos hset]

theorem decreaseRound_free (hpos : 1 ≤ s.firstBulkPage) (hmore : d.more s = true)
    (hfree : allocated s d.page = false) : decreaseRound s d newPage xen =
      (xmallocRecord { s with nextId := s.nextId + 1 } newPage xen).map fun (t, recordPage) =>
        (afterRecord t (d.hole s) recordPage,
          ⟨(d.hole s).startPfn - 2, d.n - (d.hole s).size, (d.hole s).size⟩) := by
  obtain ⟨hbulk, -⟩ := Decrease.more_iff.mp hmore
  rcases hrun : freeRunDown s d.n d.n d.page 0 with ⟨q, nn⟩
  obtain ⟨hsum, -⟩ := freeRunDown_spec hrun hpos (by omega)
  have hhole : d.hole s = ⟨s.nextId, q + 1, d.page + 1⟩ := by rw [Decrease.hole, hrun]
  have hsize : (d.hole s).size = nn := by
    simp only [hhole, Hole.size]
    omega
  have hstart : (d.hole s).startPfn - 2 = q - 1 := by
    simp only [hhole]
    omega
  rw [decreaseRound, if_neg (by simp [hfree]), hrun, hsize, hstart]
  simp only [hsize]
  cases xmallocRecord { s with nextId := s.nextId + 1 } newPage xen <;> rfl

theorem xmallocRecord_released {result : Pool × Option Nat}
    (hx : xmallocRecord s newPage xen = some result) :
    result.1.released = s.released ∧ result.1.firstBulkPage = s.firstBulkPage ∧
      s.gained ≤ result.1.gained := by
  have hsteady : Steady fun u => u.released = s.released ∧ u.firstBulkPage = s.firstBulkPage ∧
      s.gained ≤ u.gained := by
    refine ⟨fun _ _ h => h, ?_, ?_⟩
    · intro u b page n h
      rw [take_released, take_firstBulkPage, take_gained]
      exact h
    · intro u hole rest rc h hl _ _
      exact ⟨h.1, h.2.1, le_trans h.2.2 (Nat.le_add_right _ _)⟩
  exact hsteady.xmallocRecord ⟨rfl, rfl, le_rfl⟩ hx

/-! ## The loop -/

theorem decreaseLoop_descend (heap : Heap) (handed : List Hole) (hpos : 1 ≤ s.firstBulkPage)
    (hp : s.firstBulkPage ≤ p) (hle : p ≤ d.page)
    (hset : ∀ q, p < q → q ≤ d.page → allocated s q = true) (hn : 0 < d.n) (hfuel : d.page < fuel) :
    ∃ rest, p < rest ∧
      decreaseLoop heap fuel s d handed = decreaseLoop heap rest s { d with page := p } handed := by
  induction fuel generalizing d with
  | zero => omega
  | succ fuel ih =>
    by_cases heq : p = d.page
    · rw [heq]
      exact ⟨fuel + 1, hfuel, rfl⟩
    · have hmore : d.more s = true := Decrease.more_iff.mpr (by omega)
      have hhere := hset d.page (by omega) le_rfl
      obtain ⟨rest, hlt, hrest⟩ := ih (d := { d with page := d.page - 1 }) (by simp only; omega)
        (fun q hq hle => hset q hq (by simp only at hle; omega)) hn (by simp only; omega)
      refine ⟨rest, hlt, ?_⟩
      rw [decreaseLoop, if_pos hmore, decreaseRound_allocated hhere, Option.bind_some, if_pos hhere]
      exact hrest

section

variable (hpos : 1 ≤ s.firstBulkPage)

include hpos

theorem decreaseLoop_skip
    (hset : d.n = 0 ∨ ∀ q, s.firstBulkPage ≤ q → q ≤ d.page → allocated s q = true)
    (hfuel : d.page < fuel) :
    decreaseLoop heap fuel s d handed = some (s, d.rc, handed) := by
  induction fuel generalizing d with
  | zero => omega
  | succ fuel ih =>
    rw [decreaseLoop]
    split
    case isFalse => rfl
    case isTrue hmore =>
      obtain ⟨hbulk, hn⟩ := Decrease.more_iff.mp hmore
      have hall := hset.resolve_left (by omega)
      have hhere := hall d.page hbulk le_rfl
      rw [decreaseRound_allocated hhere, Option.bind_some, if_pos hhere]
      apply ih
      · apply Or.inr
        intro q hq hle
        simp only at hle
        exact hall q hq (by omega)
      · simp only
        omega

section

variable (h : decreaseLoop heap fuel s d handed = some (t, rc, hs))

include h

theorem decreaseLoop_first :
    (t = s ∧ rc = d.rc ∧ hs = handed) ∨ ∃ p rest u d', s.firstBulkPage ≤ p ∧ p ≤ d.page ∧ 0 < d.n ∧
      allocated s p = false ∧ (∀ q, p < q → q ≤ d.page → allocated s q = true) ∧
      decreaseRound s { d with page := p } (heap p).1 (heap p).2 = some (u, d') ∧
      decreaseLoop heap rest u d' (Decrease.hole s { d with page := p } :: handed) =
        some (t, rc, hs) := by
  induction fuel generalizing d with
  | zero => cases h
  | succ fuel ih =>
    rw [decreaseLoop] at h
    split at h
    case isFalse =>
      cases h
      exact .inl ⟨rfl, rfl, rfl⟩
    case isTrue hmore =>
      obtain ⟨hbulk, hn⟩ := Decrease.more_iff.mp hmore
      cases hset : allocated s d.page with
      | true =>
        rw [decreaseRound_allocated hset, Option.bind_some, if_pos hset] at h
        rcases ih h with h | h
        · exact .inl h
        · obtain ⟨p, rest, u, d', hp, hle, -, hfree, habove, hround, hloop⟩ := h
          refine .inr ⟨p, rest, u, d', hp, by simp only at hle; omega, hn, hfree, ?_, hround, hloop⟩
          intro q hq hqle
          by_cases heq : q = d.page
          · rw [heq]
            exact hset
          · exact habove q hq (by simp only; omega)
      | false =>
        obtain ⟨⟨u, d'⟩, hround, hloop⟩ := Option.bind_eq_some_iff.mp h
        rw [hset, if_neg Bool.false_ne_true] at hloop
        exact .inr ⟨d.page, fuel, u, d', hbulk, le_rfl, hn, hset, fun q _ _ => by omega, hround,
          hloop⟩

theorem decreaseLoop_handed :
    ∃ more, hs = more ++ handed ∧ t.released = s.released + holePages more ∧
      (∀ a ∈ more, 0 < a.size) ∧ (more = [] → t = s ∧ rc = d.rc) ∧
      ∀ a rest, more = a :: rest → rc = a.size := by
  induction fuel generalizing s d handed with
  | zero => cases h
  | succ fuel ih =>
    rw [decreaseLoop] at h
    split at h
    case isFalse =>
      cases h
      exact ⟨[], rfl, rfl, nofun, fun _ => ⟨rfl, rfl⟩, nofun⟩
    case isTrue hmore =>
      cases hset : allocated s d.page with
      | true =>
        rw [decreaseRound_allocated hset, Option.bind_some, if_pos hset] at h
        exact ih (d := { d with page := d.page - 1 }) hpos h
      | false =>
        obtain ⟨⟨u, d'⟩, hround, hloop⟩ := Option.bind_eq_some_iff.mp h
        rw [decreaseRound_free hpos hmore hset] at hround
        obtain ⟨⟨v, recordPage⟩, hx, heq⟩ := Option.map_eq_some_iff.mp hround
        obtain ⟨rfl, rfl⟩ := Prod.mk.inj heq
        obtain ⟨hreleased, hbulk, -⟩ := xmallocRecord_released hx
        rw [hset, if_neg Bool.false_ne_true] at hloop
        have hsize : 0 < (d.hole s).size := by
          obtain ⟨hle, hn⟩ := Decrease.more_iff.mp hmore
          rcases hrun : freeRunDown s d.n d.n d.page 0 with ⟨q, nn⟩
          have hsum := freeRunDown_spec hrun hpos (by omega)
          have hnn := freeRunDown_pos hrun hset hle hpos hn hn
          simp only [Decrease.hole, hrun, Hole.size]
          omega
        obtain ⟨more, hmore', hnumber, hsizes, hnil, hlast⟩ := ih
          (by rw [afterRecord_firstBulkPage, hbulk]; exact hpos) hloop
        have hnumber' : t.released = s.released + ((d.hole s).size + holePages more) := by
          rw [hnumber, afterRecord_released, hreleased, Nat.add_assoc]
        refine ⟨more ++ [d.hole s], ?_, ?_, ?_, by simp, ?_⟩
        · rw [hmore', append_assoc]
          rfl
        · rw [hnumber', holePages_append, holePages, holePages]
          omega
        · intro a ha
          rcases List.mem_append.mp ha with ha | ha
          · exact hsizes a ha
          · rw [List.mem_singleton.mp ha]
            exact hsize
        · intro a rest heq
          cases more with
          | nil =>
            cases heq
            exact (hnil rfl).2
          | cons b more =>
            cases heq
            exact hlast a more rfl

end

end

/-! ## A record that does not find room -/

theorem increaseReservation_gained (s : Pool) (n : Nat) (answer : Answer) :
    (increaseReservation s n answer).1.gained = s.gained := by
  apply increaseReservation_frames (P := fun t => t.gained = s.gained) _ rfl
  apply allocateFrames_rule (P := fun t => t.gained = s.gained) (fun _ _ h => h) _ rfl
  intro u b page h _
  rw [take_gained]
  exact h

theorem gained_increaseLoop (fuel : Nat) (s : Pool) (n result : Nat) (xen : Xen) :
    (increaseLoop fuel s n result xen).1.gained + result =
      s.gained + (increaseLoop fuel s n result xen).2.1 := by
  induction fuel generalizing s n result xen with
  | zero => rfl
  | succ fuel ih =>
    by_cases hn : n = 0
    · rw [increaseLoop_stop (.inl hn)]
    · cases hl : s.memoryHoleList with
      | nil => rw [increaseLoop_stop (.inr hl)]
      | cons hole rest =>
        have hgained := increaseReservation_gained s (min hole.size n) (xen 0)
        rw [increaseLoop_cons hn hl]
        generalize increaseReservation s (min hole.size n) (xen 0) = gain at hgained ⊢
        obtain ⟨u, rc⟩ := gain
        simp only at hgained ⊢
        split
        · simp only [hgained]
        · have hrest := ih (recordIncrease u hole hole.size rc) (n - rc) (result + rc) xen.rest
          have hadd : (recordIncrease u hole hole.size rc).gained = u.gained + rc := rfl
          omega

theorem gained_increaseMemory (s : Pool) (n : Nat) (xen : Xen) :
    (increaseMemory s n xen).1.gained = s.gained + (increaseMemory s n xen).2.1 := by
  unfold increaseMemory
  split
  · rfl
  · simp only
    split
    · exact gained_increaseLoop n { s with inIncreaseMemory := true } n 0 xen
    · rfl

theorem gained_allocateLoop (h : allocateLoop n fuel s true xen = some (t, r)) :
    s.gained ≤ t.gained := by
  have hsteady : Steady fun u => s.gained ≤ u.gained := by
    refine ⟨fun _ _ h => h, ?_, ?_⟩
    · intro u b page n h
      rw [take_gained]
      exact h
    · intro u hole rest rc h _ _ _
      exact le_trans h (Nat.le_add_right _ _)
  exact allocateLoop_rule (b := true) (hsteady.kept xen)
    (fun _ b page h _ _ => hsteady.take _ b page n h)
    (fun _ h => h) le_rfl nofun h

theorem xmallocRecord_cases (hx : xmallocRecord s newPage xen = some (t, r)) :
    newPage = false ∧ t = s ∧ r = none ∨
    (∃ b page, search s b 1 = some page ∧ t = take s b page 1 ∧ r = some page) ∨
      s.gained < t.gained := by
  cases newPage with
  | false =>
    cases hx
    exact .inl ⟨rfl, rfl, rfl⟩
  | true =>
    apply Or.inr
    have hsmall : isBulk 1 = false := rfl
    rw [xmallocRecord, if_pos rfl] at hx
    split at hx
    case h_2 => cases hx
    case h_1 u page hu =>
      cases hx
      rw [allocatePages, hsmall, allocateLoop] at hu
      cases hs : search s false 1 with
      | some q =>
        rw [hs] at hu
        cases hu
        exact .inl ⟨false, page, hs, rfl, rfl⟩
      | none =>
        rw [hs] at hu
        cases allocateLoop_round hu with
        | found q hs ht hr =>
          cases hr
          exact .inl ⟨true, page, hs, ht, rfl⟩
        | bulk _ hfalse => cases hfalse
        | refused _ _ _ _ hnone => cases hnone
        | gained _ _ v gain xen' hinc hgain hrest =>
          have hgained := gained_increaseMemory s 1 xen
          simp only [hinc] at hgained
          have hmono := gained_allocateLoop hrest
          exact .inr (by omega)

theorem handed_one (hpos : 1 ≤ s.firstBulkPage) (hk : 0 < k)
    (hr : gukDecreasePagePool s n heap = some (t, rc, handed)) (hrel : Released s k t rc handed) :
    ∃ a, handed = [a] := by
  have hrc := hrel.returned
  obtain ⟨more, hmore, hnumber, hsizes, hnil, hlast⟩ := decreaseLoop_handed hpos hr
  rw [hmore]
  rw [hrel.number] at hnumber
  cases more with
  | nil =>
    have hzero : rc = 0 := (hnil rfl).2
    omega
  | cons a rest =>
    have hsize := hlast a rest rfl
    rw [holePages] at hnumber
    cases rest with
    | nil => exact ⟨a, rfl⟩
    | cons c rest =>
      have hsize' := hsizes c (mem_cons_of_mem _ mem_cons_self)
      rw [holePages] at hnumber
      omega

theorem decrease_one (hpos : 1 ≤ s.firstBulkPage)
    (hr : gukDecreasePagePool s n heap = some (t, rc, [hole])) :
    ∃ p u r, hole = Decrease.hole s ⟨p, n, 0⟩ ∧ Decrease.more s ⟨p, n, 0⟩ = true ∧
      p ≤ s.endAllocPage - 1 ∧
      allocated s p = false ∧ (∀ q, p < q → q ≤ s.endAllocPage - 1 → allocated s q = true) ∧
      xmallocRecord { s with nextId := s.nextId + 1 } (heap p).1 (heap p).2 = some (u, r) ∧
      t = afterRecord u hole r ∧ rc = hole.size := by
  rcases decreaseLoop_first hpos hr with hfirst | hfirst
  · cases hfirst.2.2
  · obtain ⟨p, rest, v, d', hp, hle, hn, hfree, habove, hround, hloop⟩ := hfirst
    have hmore : Decrease.more s ⟨p, n, 0⟩ = true := Decrease.more_iff.mpr ⟨hp, hn⟩
    rw [decreaseRound_free hpos hmore hfree] at hround
    obtain ⟨⟨u, r⟩, hx, heq⟩ := Option.map_eq_some_iff.mp hround
    obtain ⟨rfl, rfl⟩ := Prod.mk.inj heq
    have hposu : 1 ≤ (afterRecord u (Decrease.hole s ⟨p, n, 0⟩) r).firstBulkPage := by
      rw [afterRecord_firstBulkPage, (xmallocRecord_released hx).2.1]
      exact hpos
    obtain ⟨more, hmore', -, -, hnil, -⟩ := decreaseLoop_handed hposu hloop
    cases more with
    | cons c more => simp at hmore'
    | nil =>
      obtain ⟨rfl, hrc⟩ := hnil rfl
      cases hmore'
      exact ⟨p, u, r, rfl, hmore, hle, hfree, habove, hx, rfl, hrc⟩

theorem oneRun_of_round (h : Sound nn s) (hmore : Decrease.more s ⟨p, n, 0⟩ = true)
    (hle : p ≤ s.endAllocPage - 1)
    (hfree : allocated s p = false)
    (habove : ∀ q, p < q → q ≤ s.endAllocPage - 1 → allocated s q = true) :
    OneRun s (Decrease.hole s ⟨p, n, 0⟩).size (Decrease.hole s ⟨p, n, 0⟩).startPfn ∧
      (Decrease.hole s ⟨p, n, 0⟩).startPfn + (Decrease.hole s ⟨p, n, 0⟩).size = p + 1 := by
  have hpos := h.pos
  have hbulk_le := h.bulk_le
  have hrun := freeHole_of_round hpos hmore (by simp only; omega) hfree
  have hend : (Decrease.hole s ⟨p, n, 0⟩).startPfn + (Decrease.hole s ⟨p, n, 0⟩).size = p + 1 :=
    hrun.end_eq
  refine ⟨⟨hrun.low, by omega, hrun.free, ?_⟩, hend⟩
  intro q hq hlt
  exact habove q (by omega) (by omega)

theorem top_iff (hrun : OneRun s k start) : Top s k p ↔ start ≤ p ∧ p < start + k := by
  have hlow := hrun.low
  have hhigh := hrun.high
  have habove : clearBits s (start + k) s.endAllocPage = 0 := clearBits_eq_zero.mpr hrun.above
  have hfree : ∀ lo, start ≤ lo → clearBits s lo (start + k) = start + k - lo :=
    fun lo hlo => clearBits_of_free fun p hle hlt => hrun.free p (by omega) hlt
  constructor
  · rintro ⟨-, hend, hclear, hfew⟩
    have hlt : p < start + k := by
      by_contra hge
      rw [hrun.above p (by omega) hend] at hclear
      cases hclear
    refine ⟨?_, hlt⟩
    by_contra hbelow
    have hsplit :=
      clearBits_split (s := s) (show p + 1 ≤ start by omega) (show start ≤ s.endAllocPage by omega)
    have hsplit' := clearBits_split (s := s) (Nat.le_add_right start k) hhigh
    have := hfree start le_rfl
    omega
  · rintro ⟨hle, hlt⟩
    refine ⟨by omega, by omega, hrun.free p hle hlt, ?_⟩
    have hsplit := clearBits_split (s := s) (show p + 1 ≤ start + k by omega) hhigh
    have := hfree (p + 1) (by omega)
    omega

theorem Hole.size_run {id : Nat} : Hole.size ⟨id, start, start + k⟩ = k :=
  Nat.add_sub_cancel_left ..

theorem recordDecrease_live : (recordDecrease s hole).live = s.live := rfl

theorem recorded_live {m : Nat} (b : Bool) (page : Nat) (hole : Hole) :
    (recordDecrease (take { s with nextId := m } b page 1) hole).live = (page, 1) :: s.live := by
  rw [recordDecrease_live, take_live]

theorem coalesces_eq_false :
    coalesces t hole = false ↔ ∀ h ∈ t.memoryHoleList.head?, h.startPfn ≠ hole.endPfn := by
  rw [coalesces]
  cases t.memoryHoleList with
  | nil => simp
  | cons head holes => simp [eq_comm]

/-- A record in the bulk region is no page of the run, and it is kept. -/
theorem roomBelow_of_accounts {id m : Nat} {heapPages : List Nat} (hrun : OneRun s k start)
    (hs : search { s with nextId := m } true 1 = some page)
    (hacc : Accounts s k
    (afterRecord (take { s with nextId := m } true page 1) ⟨id, start, start + k⟩ (some page))
      heapPages) : RoomBelow s k start := by
  have hcount := hacc.freeBulk
  have hlive := hacc.live
  rw [afterRecord_numFreeBulkPages, Hole.size_run, take_numFreeBulkPages, if_pos rfl] at hcount
  rw [afterRecord] at hlive
  obtain ⟨hle, -, hlt, hfree⟩ := search_sound hs
  cases hjoin : coalesces (take { s with nextId := m } true page 1) ⟨id, start, start + k⟩ with
  | true =>
    -- the page is free again, and missing in the number of free pages
    rw [if_pos hjoin, unlockedFree, deallocate_live, recorded_live, erase_cons_head] at hlive
    have hnil : heapPages = [] := by simpa using hlive
    rw [hnil] at hcount
    simp only [sub64, countP_nil] at hcount
    omega
  | false =>
    rw [if_neg (by simp [hjoin]), recorded_live] at hlive
    have hmap : heapPages.map (fun p => (p, 1)) = [(page, 1)] :=
      (append_cancel_right (hlive : [(page, 1)] ++ s.live = _)).symm
    have hone : heapPages = [page] := by
      cases heapPages with
      | nil => cases hmap
      | cons p rest => simpa using hmap
    have hclear : allocated s page = false := hfree page le_rfl (Nat.lt_succ_self _)
    have hstays := coalesces_eq_false.mp hjoin
    rw [take_memoryHoleList] at hstays
    refine ⟨⟨page, hle, ?_, ?_, hclear, ?_⟩, hstays⟩
    · by_contra hbelow
      rw [hone, countP_cons, if_neg (by simpa using hbelow)] at hcount
      simp only [sub64, countP_nil] at hcount
      omega
    · by_contra hge
      apply hacc.apart page (hone ▸ mem_singleton_self _)
      rw [top_iff hrun]
      refine ⟨by omega, ?_⟩
      by_contra habove
      have hlast : page < s.endAllocPage := hlt
      rw [hrun.above page (by omega) hlast] at hclear
      cases hclear
    · intro q hq hlt'
      by_contra hset
      obtain ⟨page', hs', hle'⟩ := search_one (b := true) (s := { s with nextId := m }) hq
        (lt_trans hlt' hlt) (Bool.eq_false_iff.mpr hset)
      rw [hs] at hs'
      cases hs'
      omega

theorem oneRun_of_released (h : Sound nn s) (hk : 0 < k)
    (hr : gukDecreasePagePool s n heap = some (t, rc, handed)) (hrel : Released s k t rc handed) :
    ∃ start, OneRun s k start ∧
      (RoomForRecord s (heap (start + k - 1)).1 ∨ RoomBelow s k start) := by
  obtain ⟨a, rfl⟩ := handed_one h.pos hk hr hrel
  obtain ⟨p, u, r, rfl, hmore, hle, hfree, habove, hx, rfl, hrc⟩ := decrease_one h.pos hr
  obtain ⟨hrun, hend⟩ := oneRun_of_round h hmore hle hfree habove
  rw [← hrc, hrel.returned] at hrun hend
  refine ⟨_, hrun, ?_⟩
  rw [hend, Nat.add_sub_cancel]
  rcases xmallocRecord_cases hx with ⟨hroomy, -⟩ | ⟨b, page, hs, rfl, rfl⟩ | hgained
  · exact .inl fun hnew => by simp [hroomy] at hnew
  · cases b with
    | false =>
      obtain ⟨hlow, -, hlt, hclear⟩ := search_sound hs
      exact .inl fun _ => ⟨page, hlow, hlt, hclear page le_rfl (Nat.lt_succ_self _)⟩
    | true =>
      obtain ⟨heapPages, hacc⟩ := hrel.accounts
      have hhole : Decrease.hole s ⟨p, n, 0⟩ = ⟨s.nextId, (Decrease.hole s ⟨p, n, 0⟩).startPfn,
          (Decrease.hole s ⟨p, n, 0⟩).startPfn + k⟩ := by
        rw [hend]
        rfl
      rw [hhole] at hacc
      exact .inr (roomBelow_of_accounts hrun hs hacc)
  · have hkept := hrel.kept
    rw [afterRecord_gained] at hkept
    simp only at hgained
    omega

/-! ## One run -/

theorem freeRunDown_stop (h : freeRunDown s n fuel page nn = (q, rc)) (hfuel : n ≤ fuel + nn)
    (hle : nn ≤ n) :
    rc ≤ n ∧ (rc = n ∨ allocated s q = true ∨ q < s.firstBulkPage) := by
  induction fuel generalizing page nn with
  | zero =>
    cases h
    exact ⟨hle, .inl (by omega)⟩
  | succ fuel ih =>
    rw [freeRunDown] at h
    split at h
    case isTrue hloop => exact ih h (by omega) hloop.2.2
    case isFalse hstop =>
      cases h
      refine ⟨hle, ?_⟩
      by_contra hno
      simp only [not_or, Bool.not_eq_true, Nat.not_lt] at hno
      apply hstop
      refine ⟨?_, hno.2.2, by omega⟩
      rw [hno.2.1]
      rfl

theorem hole_of_oneRun (hpos : 1 ≤ s.firstBulkPage) (hrun : OneRun s k start) (hk : 0 < k)
    (hmin : k = min n (clearBits s s.firstBulkPage s.endAllocPage)) :
    Decrease.hole s ⟨start + k - 1, n, 0⟩ = ⟨s.nextId, start, start + k⟩ := by
  have hlow := hrun.low
  have hhigh := hrun.high
  rcases hdown : freeRunDown s n n (start + k - 1) 0 with ⟨q, m⟩
  obtain ⟨hsum, -, hq, hall⟩ := freeRunDown_spec hdown hpos (by omega)
  obtain ⟨hle, hstop⟩ := freeRunDown_stop hdown le_rfl (Nat.zero_le _)
  have hmle : m ≤ clearBits s s.firstBulkPage s.endAllocPage := by
    have hsplit := clearBits_split (s := s) hq (show q + 1 ≤ s.endAllocPage by omega)
    have hsplit' := clearBits_split (s := s) (show q + 1 ≤ start + k by omega) hhigh
    have hfree : clearBits s (q + 1) (start + k) = start + k - (q + 1) :=
      clearBits_of_free fun p hle hlt => hall p (by omega) (by omega)
    omega
  have hm : m = k := by
    by_contra hne
    rw [hrun.free q (by omega) (by omega)] at hstop
    simp only [Bool.false_eq_true, false_or] at hstop
    omega
  simp only [Decrease.hole, hdown, Hole.mk.injEq, true_and]
  omega

theorem afterRecord_memoryHoleList :
    (afterRecord t hole r).memoryHoleList = (recordDecrease t hole).memoryHoleList :=
  afterRecord_frame Pool.memoryHoleList fun _ _ => deallocate_memoryHoleList

/-- What making the record of a hole at `start` does to the pool. -/
inductive Recorded (s : Pool) (k start : Nat) : Pool → Option Nat → Prop where
  | roomy : Recorded s k start s none
  | small {page : Nat} (hs : search s false 1 = some page) :
      Recorded s k start (take s false page 1) (some page)
  | bulk {page : Nat} (hs : search s true 1 = some page) (hlow : s.firstBulkPage ≤ page)
      (hlt : page < start) (hstays : ∀ h ∈ s.memoryHoleList.head?, h.startPfn ≠ start + k) :
      Recorded s k start (take s true page 1) (some page)

section Run

variable {id m : Nat} (hrun : OneRun s k start)
include hrun

theorem accounts_recordDecrease :
    Accounts s k (recordDecrease { s with nextId := m } ⟨id, start, start + k⟩) [] := by
  refine ⟨rfl, nofun, ?_, ?_, ?_⟩
  · intro p
    rw [allocated_recordDecrease, top_iff hrun, Hole.size_run]
    simp [allocated]
  · rw [recordDecrease_numFreePages, Hole.size_run]
    simp only [sub64, length_nil]
    omega
  · rw [recordDecrease_numFreeBulkPages, Hole.size_run]
    simp only [sub64, countP_nil]
    omega

theorem accounts_take (hside : b = true ↔ s.firstBulkPage ≤ page) (hlt : page < start) :
    Accounts s k (recordDecrease (take { s with nextId := m } b page 1) ⟨id, start, start + k⟩)
      [page] := by
  refine ⟨recorded_live b page _, ?_, ?_, ?_, ?_⟩
  · intro p hp
    rw [List.mem_singleton.mp hp, top_iff hrun]
    omega
  · intro p
    rw [allocated_recordDecrease, allocated_take, top_iff hrun, Hole.size_run, mem_singleton]
    have hone : page ≤ p ∧ p < page + 1 ↔ p = page := by omega
    simp only [Bool.or_eq_true, decide_eq_true_eq, hone, or_assoc]
    exact or_congr_right or_comm
  · rw [recordDecrease_numFreePages, Hole.size_run, take_numFreePages]
    simp only [sub64, length_singleton]
    omega
  · rw [recordDecrease_numFreeBulkPages, Hole.size_run, take_numFreeBulkPages, countP_cons,
      countP_nil]
    simp only [decide_eq_true_eq, ← hside, sub64]
    split <;> omega

theorem accounts_freed (hsmall : page < s.firstBulkPage) (hclear : allocated s page = false) :
    Accounts s k (giveBack (recordDecrease (take { s with nextId := m } false page 1)
      ⟨id, start, start + k⟩) page 1) [] := by
  have hlow := hrun.low
  refine ⟨?_, nofun, ?_, ?_, ?_⟩
  · rw [deallocate_live, recorded_live, erase_cons_head]
    rfl
  · intro p
    have hone : page ≤ p ∧ p < page + 1 ↔ p = page := by omega
    rw [allocated_deallocate, allocated_recordDecrease, allocated_take, top_iff hrun, Hole.size_run]
    by_cases hp : p = page
    · simp only [hp, hclear]
      simp
      omega
    · simp only [hone, hp, decide_false, Bool.or_false, Bool.not_false, Bool.and_true,
        Bool.or_eq_true, decide_eq_true_eq, not_mem_nil, or_false]
      rfl
  · rw [deallocate_numFreePages, recordDecrease_numFreePages, Hole.size_run, take_numFreePages]
    simp only [sub64, add64, length_nil]
    omega
  · rw [deallocate_numFreeBulkPages, recordDecrease_numFreeBulkPages, Hole.size_run,
      take_numFreeBulkPages,
      show isBulk 1 = false from rfl, if_neg Bool.false_ne_true, if_neg Bool.false_ne_true]
    simp only [sub64, countP_nil]
    omega

theorem accounts_afterRecord (hrec : Recorded { s with nextId := m } k start u r) :
    ∃ heapPages, Accounts s k (afterRecord u ⟨id, start, start + k⟩ r) heapPages := by
  have hlow := hrun.low
  rw [afterRecord]
  cases hrec with
  | roomy =>
    refine ⟨[], ?_⟩
    rw [unlockedFree, ite_self]
    exact accounts_recordDecrease hrun
  | @small page hs =>
    obtain ⟨-, -, hlt, hfree⟩ := search_sound hs
    have hlt : page < s.firstBulkPage := hlt
    split
    · exact ⟨[], accounts_freed hrun hlt (hfree page le_rfl (Nat.lt_succ_self _))⟩
    · exact ⟨[page], accounts_take hrun ⟨nofun, fun hge => by omega⟩ (by omega)⟩
  | @bulk page hs hge hlt hstays =>
    have hjoin : coalesces (take { s with nextId := m } true page 1) ⟨id, start, start + k⟩ =
        false := by
      rw [coalesces_eq_false, take_memoryHoleList]
      exact hstays
    rw [hjoin, if_neg Bool.false_ne_true]
    exact ⟨[page], accounts_take hrun ⟨fun _ => hge, fun _ => rfl⟩ hlt⟩

theorem released_afterRecord (h : Sound nn s) (hk : 0 < k)
    (hrec : Recorded { s with nextId := m } k start u r) :
    Released s k (afterRecord u ⟨id, start, start + k⟩ r) k [⟨id, start, start + k⟩] := by
  obtain ⟨hlist, hreleased, hgained⟩ : u.memoryHoleList = s.memoryHoleList ∧
    u.released = s.released ∧
      u.gained = s.gained := by
    cases hrec with
    | roomy => exact ⟨rfl, rfl, rfl⟩
    | small => exact ⟨take_memoryHoleList, take_released, take_gained⟩
    | bulk => exact ⟨take_memoryHoleList, take_released, take_gained⟩
  refine ⟨?_, ?_, ?_, ?_, accounts_afterRecord hrun hrec, rfl⟩
  · intro p
    rw [top_iff hrun]
    constructor
    · rintro ⟨a, ha, hhas⟩
      rw [List.mem_singleton.mp ha] at hhas
      exact hhas
    · intro hp
      exact ⟨_, mem_singleton_self _, hp⟩
  · rw [afterRecord_released, Hole.size_run, hreleased]
  · rw [afterRecord_gained, hgained]
  · intro p
    rw [top_iff hrun, InHole, afterRecord_memoryHoleList, InHole, ← hlist]
    apply inHole_recordDecrease _ (by simp only; omega)
    rw [hlist]
    exact fun a ha => (h.range a ha).1

end Run

theorem recorded_of_room (hhigh : start ≤ s.endAllocPage)
    (hroom : RoomForRecord s newPage ∨ RoomBelow s k start)
    (xen : Xen) : ∃ u r, xmallocRecord s newPage xen = some (u, r) ∧ Recorded s k start u r := by
  have hbulk : isBulk 1 = false := rfl
  cases newPage with
  | false => exact ⟨s, none, rfl, .roomy⟩
  | true =>
    rw [xmallocRecord, if_pos rfl, allocatePages, hbulk, allocateLoop]
    cases hsmall : search s false 1 with
    | some page => exact ⟨_, _, rfl, .small hsmall⟩
    | none =>
      rcases hroom with hroom | ⟨⟨p, hle, hlow, hlt, hfree, hfirst⟩, hstays⟩
      · obtain ⟨p, hle, hlt, hfree⟩ := hroom rfl
        obtain ⟨page, hs, -⟩ := search_one (b := false) hle hlt hfree
        rw [hsmall] at hs
        cases hs
      · obtain ⟨page, hs, hpage⟩ := search_one (b := true) hle
          (show p < s.endAllocPage by omega) hfree
        obtain ⟨hge, -, -, hclear⟩ := search_sound hs
        have heq : page = p := by
          by_contra hne
          have hset := hfirst page hge (by omega)
          rw [hclear page le_rfl (Nat.lt_succ_self _)] at hset
          cases hset
        subst heq
        refine ⟨_, _, ?_, .bulk hs hlow hlt hstays⟩
        simp only [Bool.not_false, if_true]
        rw [allocateLoop, hs]

theorem released_none (h : Sound nn s)
    (hmin : min n (clearBits s s.firstBulkPage s.endAllocPage) = 0) :
    gukDecreasePagePool s n heap = some (s, 0, []) ∧ Released s 0 s 0 [] := by
  have hpos := h.pos
  have hbulk_le := h.bulk_le
  constructor
  · apply decreaseLoop_skip hpos _ (by simp only; omega)
    by_cases hn : n = 0
    · exact .inl hn
    · apply Or.inr
      intro q hq hle
      simp only at hle
      exact clearBits_eq_zero.mp (show clearBits s s.firstBulkPage s.endAllocPage = 0 by omega) q hq
        (by omega)
  · have htop : ∀ p, ¬ Top s 0 p := fun p hp => Nat.not_lt_zero _ hp.2.2.2
    constructor
    · intro p
      exact ⟨nofun, fun hp => absurd hp (htop p)⟩
    · rfl
    · rfl
    · intro p
      exact ⟨.inl, fun hp => hp.resolve_right (htop p)⟩
    · refine ⟨[], rfl, nofun, ?_, rfl, rfl⟩
      intro p
      simp [htop p]
    · rfl

theorem below_oneRun (hrun : OneRun s k start)
    (hmin : k = min n (clearBits s s.firstBulkPage s.endAllocPage)) :
    n - k = 0 ∨ ∀ q, s.firstBulkPage ≤ q → q < start → allocated s q = true := by
  have hlow := hrun.low
  have hhigh := hrun.high
  have hfree := clearBits_of_free hrun.free
  have hsplit := clearBits_split (s := s) hlow (show start ≤ s.endAllocPage by omega)
  have hsplit' := clearBits_split (s := s) (Nat.le_add_right start k) hhigh
  by_cases hn : n - k = 0
  · exact .inl hn
  · apply Or.inr
    exact clearBits_eq_zero.mp (by omega)

theorem released_of_oneRun (h : Sound nn s) (hk : 0 < k) (hrun : OneRun s k start)
    (hmin : k = min n (clearBits s s.firstBulkPage s.endAllocPage))
    (hroom : RoomForRecord s (heap (start + k - 1)).1 ∨ RoomBelow s k start) :
    ∃ t rc handed, gukDecreasePagePool s n heap = some (t, rc, handed) ∧
      Released s k t rc handed := by
  have hpos := h.pos
  have hlow := hrun.low
  have hhigh := hrun.high
  obtain ⟨u, r, hx, hrec⟩ := recorded_of_room (s := { s with nextId := s.nextId + 1 }) (k := k)
    (by simp only; omega) hroom (heap (start + k - 1)).2
  have hrel :
      Released s k (afterRecord u ⟨s.nextId, start, start + k⟩ r) k
      [⟨s.nextId, start, start + k⟩] :=
    released_afterRecord hrun h hk hrec
  obtain ⟨heapPages, hacc⟩ := hrel.accounts
  refine ⟨_, k, _, ?_, hrel⟩
  -- down to the last page of the run
  have hset : ∀ q, start + k - 1 < q → q ≤ s.endAllocPage - 1 → allocated s q = true :=
    fun q hq hle => hrun.above q (by omega) (by omega)
  obtain ⟨fuel, hfuel, hdescend⟩ :=
    decreaseLoop_descend (d := ⟨s.endAllocPage - 1, n, 0⟩) heap [] hpos
    (by omega) (by simp only; omega) hset (by simp only; omega)
    (by omega : s.endAllocPage - 1 < s.endAllocPage)
  -- the round that takes it
  have hmore : Decrease.more s ⟨start + k - 1, n, 0⟩ = true :=
    Decrease.more_iff.mpr (by simp only; omega)
  have hfree : allocated s (start + k - 1) = false := hrun.free _ (by omega) (by omega)
  obtain ⟨fuel, rfl⟩ : ∃ f, fuel = f + 1 := ⟨fuel - 1, by omega⟩
  rw [gukDecreasePagePool, hdescend, decreaseLoop, if_pos hmore,
    decreaseRound_free hpos hmore hfree,
    hole_of_oneRun hpos hrun hk hmin, hx, hfree, if_neg Bool.false_ne_true, Hole.size_run]
  -- and on to the end of the region
  have hbulk : (afterRecord u ⟨s.nextId, start, start + k⟩ r).firstBulkPage = s.firstBulkPage := by
    rw [afterRecord_firstBulkPage, (xmallocRecord_released hx).2.1]
  apply decreaseLoop_skip
  · rw [hbulk]
    exact hpos
  · rcases below_oneRun hrun hmin with hn | hbelow
    · exact .inl hn
    · apply Or.inr
      intro q hq hle
      rw [hbulk] at hq
      simp only at hle
      exact (hacc.bits q).mpr (.inl (hbelow q hq (by omega)))
  · simp only
    omega

/-! ## The result -/

def fragment : List Label :=
  [.allocate 511 noMemory, .allocate 144 noMemory, .allocate 1 noMemory, .allocate 1 noMemory,
    .deallocate 659 1]

def roomyHeap : Heap := fun _ => (false, noMemory)

end Guk.PagePool
