import Guk.PagePoolGrow
import Guk.PagePoolHints
import Guk.PagePoolShrink

/-!
# The records of holes (`mm.c`)

`guk_decrease_page_pool` allocates a record for every run of pages that it gives back.
When a hole is refilled completely, `increase_memory_holding_lock` takes its record off
the list.
-/
namespace Guk.PagePool

open Runs List Option

/-- `records` are the blocks of the heap that hold the record of a hole. -/
structure Balloon where
  sys : Sys
  records : List Nat

/-- The record is linked into `memory_hole_list`, or freed again if the run is joined to the first
hole. -/
def roundRecords (s : Pool) (d : Decrease) (newPage : Bool) (xen : Xen) (records : List Nat) :
    List Nat :=
  if d.more s ∧ allocated s d.page = false then
    let hole := d.hole s
    let records := hole.id :: records
    match xmallocRecord { s with nextId := s.nextId + 1 } newPage xen with
    | none => records
    | some (t, _) => if coalesces t hole then records.erase hole.id else records
  else records

def Balloon.recordsAfter (b : Balloon) : Label → List Nat
  | .round newPage xen =>
    match b.sys.decreasing with
    | none => b.records
    | some d => roundRecords b.sys.pool d newPage xen b.records
  | .resize _ _ => b.sys.pool.nextId :: b.records
  | _ => b.records

def balloonStep (b : Balloon) (l : Label) : Option Balloon :=
  (step b.sys l).map fun t => ⟨t, b.recordsAfter l⟩

def AfterResize (b : Balloon) : Prop :=
  ∃ c newPage xen, balloonStep ⟨⟨initPageAllocator c, none⟩, []⟩ (.resize newPage xen) = some b

def holeIds (s : Pool) : List Nat := s.memoryHoleList.map Hole.id

/-- The live records are those of the list, each there once. -/
structure Exact (b : Balloon) : Prop where
  listed : b.records.Perm (holeIds b.sys.pool)
  once : (holeIds b.sys.pool).Nodup

variable {s t u : Pool} {b c : Balloon} {isBulkAlloc newPage : Bool} {n page k rc fuel result : Nat}
  {hole new : Hole} {rest : List Hole} {xen : Xen} {d d' : Decrease} {r : Option Nat} {l : Label}
  {records : List Nat}

/-! ## Where the records are -/

def owned (s : Pool) : List Nat := (s.memoryHoleList ++ s.leaked).map Hole.id

@[simp] theorem take_leaked : (take s isBulkAlloc page n).leaked = s.leaked := by
  cases isBulkAlloc <;> rfl

@[simp] theorem deallocate_leaked : (giveBack s page n).leaked = s.leaked := by
  rw [giveBack_eq]

theorem owned_take : owned (take s isBulkAlloc page n) = owned s := by
  rw [owned, take_memoryHoleList, take_leaked, owned]

theorem owned_recordIncrease (h : Sound k s) (hl : s.memoryHoleList = hole :: rest) :
    (owned (recordIncrease s hole hole.size rc)).Perm (owned s) := by
  have hleaked : (recordIncrease s hole hole.size rc).leaked =
      if hole.size = rc then hole :: s.leaked else s.leaked := rfl
  unfold owned
  rw [recordIncrease_records h hl, hleaked, hl]
  split
  · exact List.perm_middle.map _
  · exact List.Perm.refl _

theorem steady_owned (k : Nat) (ids : List Nat) :
    Steady fun t => Sound k t ∧ (owned t).Perm ids where
  flag s f h := ⟨sound_flag h.1, h.2⟩
  take s isBulkAlloc page n h := by
    rw [owned_take]
    exact ⟨sound_take h.1, h.2⟩
  grow s hole rest rc h hl _ hle :=
    ⟨sound_recordIncrease h.1 hl hle, (owned_recordIncrease h.1 hl).trans h.2⟩

theorem owned_xmallocRecord (h : Sound k s) (hr : xmallocRecord s newPage xen = some (t, r)) :
    (owned t).Perm (owned s) :=
  ((steady_owned k (owned s)).xmallocRecord ⟨h, List.Perm.refl _⟩ hr).2

theorem recordDecrease_memoryHoleList (s : Pool) (new : Hole) :
    (coalesces s new = true ∧ ∃ head rest, s.memoryHoleList = head :: rest ∧
      new.endPfn = head.startPfn ∧
        (recordDecrease s new).memoryHoleList = { head with startPfn := new.startPfn } :: rest) ∨
      (coalesces s new = false ∧
        (recordDecrease s new).memoryHoleList = memoryHoleAdd new s.memoryHoleList) := by
  simp only [coalesces, recordDecrease, removePages]
  cases s.memoryHoleList with
  | nil => exact .inr ⟨rfl, rfl⟩
  | cons head rest =>
    simp only
    by_cases hend : new.endPfn = head.startPfn
    · rw [if_neg (not_not_intro hend)]
      exact .inl ⟨decide_eq_true hend, head, rest, rfl, hend, rfl⟩
    · rw [if_pos hend]
      exact .inr ⟨decide_eq_false hend, rfl⟩

theorem owned_recordDecrease (s : Pool) (new : Hole) :
    (owned (recordDecrease s new)).Perm
      (if coalesces s new then owned s else new.id :: owned s) := by
  have hleaked : (recordDecrease s new).leaked = s.leaked := rfl
  unfold owned
  rw [hleaked]
  rcases recordDecrease_memoryHoleList s new with ⟨hjoin, head, rest, hl, -, hlist⟩ | ⟨hjoin, hlist⟩
  · rw [if_pos hjoin, hlist, hl]
    exact List.Perm.refl _
  · rw [if_neg (by simp [hjoin]), hlist, map_append, map_append]
    exact (ids_memoryHoleAdd new s.memoryHoleList).append_right _

theorem owned_afterRecord : owned (afterRecord s new r) = owned (recordDecrease s new) :=
  afterRecord_frame owned fun _ _ => by
    rw [owned, deallocate_memoryHoleList, deallocate_leaked, owned]

theorem steady_nextId (k : Nat) : Steady fun t => t.nextId = k where
  flag _ _ h := h
  take s isBulkAlloc page n h := by
    rw [take_nextId]
    exact h
  grow _ _ _ _ h _ _ _ := h

theorem sound_nextId (h : Sound k s) : Sound k { s with nextId := s.nextId + 1 } :=
  { h with next := Nat.le_succ_of_le h.next }

theorem owned_resize (h : Sound s.nextId s)
    (hr : resizePhysToMachineMappingTable s newPage xen = some t) :
    (owned t).Perm (s.nextId :: owned s) := by
  have hsteady := (steady_owned s.nextId (owned s)).and (steady_nextId s.nextId)
  obtain ⟨u, v, r, ⟨⟨hsound, hperm⟩, hnext⟩, hv, rfl⟩ := resize_rule (hsteady.kept xen)
    (fun s b page n h _ _ => hsteady.take s b page n h) ⟨⟨h, List.Perm.refl _⟩, rfl⟩ hr
  have hrecord := (owned_xmallocRecord (sound_nextId hsound) hv).trans hperm
  rw [← hnext]
  exact hrecord.cons _

def Tallied (b : Balloon) : Prop := b.records.Perm (owned b.sys.pool)

theorem roundRecords_free (hmore : d.more s = true) (hfree : allocated s d.page = false)
    (hx : xmallocRecord { s with nextId := s.nextId + 1 } newPage xen = some (u, r)) :
    roundRecords s d newPage xen records =
      if coalesces u (d.hole s) then records else (d.hole s).id :: records := by
  unfold roundRecords
  rw [if_pos ⟨hmore, hfree⟩, hx]
  simp only [erase_cons_head]

theorem roundRecords_perm (h : Sound s.nextId s) (hmore : d.more s = true)
    (hr : decreaseRound s d newPage xen = some (t, d')) (hrec : records.Perm (owned s)) :
    (roundRecords s d newPage xen records).Perm (owned t) := by
  rcases decreaseRound_cases hr with ⟨hset, rfl, -⟩ | ⟨hset, u, r, hx, rfl, -⟩
  · unfold roundRecords
    rw [if_neg (by simp [hset])]
    exact hrec
  · have hu := hrec.trans (owned_xmallocRecord (sound_nextId h) hx).symm
    rw [roundRecords_free hmore hset hx, owned_afterRecord]
    refine List.Perm.trans ?_ (owned_recordDecrease u (d.hole s)).symm
    split
    · exact hu
    · exact hu.cons _

theorem recordsAfter_round (hd : b.sys.decreasing = some d) :
    b.recordsAfter (.round newPage xen) = roundRecords b.sys.pool d newPage xen b.records := by
  simp only [Balloon.recordsAfter, hd]

theorem recordsAfter_done (hd : b.sys.decreasing = some d) (hmore : ¬ d.more b.sys.pool = true) :
    b.recordsAfter (.round newPage xen) = b.records := by
  rw [recordsAfter_round hd]
  exact if_neg fun hand => hmore hand.1

theorem tallied_step (hs : Holds (fun s => Sound s.nextId s) b.sys) (h : Tallied b)
    (hstep : balloonStep b l = some c) : Tallied c := by
  obtain ⟨t, ht, rfl⟩ := map_eq_some_iff.mp hstep
  have hpool := hs.pool
  unfold Tallied at h ⊢
  cases step_performed ht with
  | allocate _ hr =>
    exact h.trans ((steady_owned _ _).allocatePages ⟨hpool, List.Perm.refl _⟩ hr).2.symm
  | deallocate =>
    rw [owned, deallocate_memoryHoleList, deallocate_leaked]
    exact h
  | increase =>
    exact h.trans (((steady_owned _ _).kept _).increaseMemory ⟨hpool, List.Perm.refl _⟩).1.2.symm
  | decrease => exact h
  | round hd hmore hr =>
    rw [recordsAfter_round hd]
    exact roundRecords_perm hpool hmore hr h
  | done hd hmore =>
    rw [recordsAfter_done hd hmore]
    exact h
  | resize _ _ hr => exact (h.cons _).trans (owned_resize hpool hr).symm

/-! ## Holes that are not refilled completely -/

def supply : Nat → Xen → Nat
  | 0, _ => 0
  | k + 1, xen => (xen 0).populated + supply k xen.rest

/-- Xen refuses before it has given `pages` pages. -/
def Refuses (xen : Xen) (pages : Nat) : Prop := ∃ k, (xen k).populated = 0 ∧ supply k xen < pages

def FreePage (s : Pool) : Prop :=
  ∃ p, (s.firstFreePage ≤ p ∧ p < s.firstBulkPage ∨ s.firstFreeBulkPage ≤ p ∧ p < s.endAllocPage) ∧
    allocated s p = false

def SparesIncrease (s : Pool) (n : Nat) (xen : Xen) : Prop :=
  canIncrease s.memoryHoleList n = 0 ∨ ∀ head ∈ s.memoryHoleList.head?, n < head.size ∨
    Refuses xen head.size

def SparesRecord (s : Pool) (newPage : Bool) (xen : Xen) : Prop :=
  newPage = true → FreePage s ∨ canIncrease s.memoryHoleList 1 = 0 ∨
    ∀ head ∈ s.memoryHoleList.head?, Refuses xen head.size

/-- No step refills a hole completely. -/
def spares (b : Balloon) : Label → Prop
  | .allocate n _ => Found b.sys.pool n ∨ canIncrease b.sys.pool.memoryHoleList n = 0
  | .deallocate _ _ => True
  | .increase n xen => SparesIncrease b.sys.pool n xen
  | .decrease _ => True
  | .round newPage xen => SparesRecord b.sys.pool newPage xen
  | .resize _ _ => False

/-- Pages came back to the first hole only, as long as there are fewer than it has. -/
structure Shortened (s t : Pool) : Prop where
  le : s.gained ≤ t.gained
  same : t.gained = s.gained → t.memoryHoleList = s.memoryHoleList ∧ t.leaked = s.leaked
  first : ∀ head rest, s.memoryHoleList = head :: rest → t.gained < s.gained + head.size →
    t.memoryHoleList = { head with startPfn := head.startPfn + (t.gained - s.gained) } :: rest ∧
      t.leaked = s.leaked

theorem Shortened.refl (s : Pool) : Shortened s s := by
  refine ⟨le_rfl, fun _ => ⟨rfl, rfl⟩, ?_⟩
  intro head rest hl _
  rw [Nat.sub_self, Nat.add_zero]
  exact ⟨hl, rfl⟩

theorem shortened_take (h : Shortened s t) : Shortened s (take t isBulkAlloc page n) := by
  obtain ⟨hle, hsame, hfirst⟩ := h
  constructor
  · rw [take_gained]
    exact hle
  · rw [take_gained, take_memoryHoleList, take_leaked]
    exact hsame
  · rw [take_gained, take_memoryHoleList, take_leaked]
    exact hfirst

theorem shortened_recordIncrease (ht : Sound k t) (h : Shortened s t)
    (hl : t.memoryHoleList = hole :: rest) (hrc : 0 < rc) :
    Shortened s (recordIncrease t hole hole.size rc) := by
  have hgained : (recordIncrease t hole hole.size rc).gained = t.gained + rc := rfl
  have hle := h.le
  constructor
  · omega
  · intro heq
    omega
  · intro head tail hs hlt
    rw [hgained] at hlt ⊢
    obtain ⟨hlist, hleaked⟩ := h.first head tail hs (by omega)
    obtain ⟨rfl, rfl⟩ := List.cons.inj (hl.symm.trans hlist)
    have hpart : Hole.size { head with startPfn := head.startPfn + (t.gained - s.gained) } ≠
        rc := by
      unfold Hole.size at hlt ⊢
      simp only
      omega
    have hleft : (recordIncrease t { head with startPfn := head.startPfn + (t.gained - s.gained) }
        (Hole.size { head with startPfn := head.startPfn + (t.gained - s.gained) }) rc).leaked =
          t.leaked :=
      if_neg hpart
    rw [recordIncrease_records ht hl, if_neg hpart, hleft]
    refine ⟨?_, hleaked⟩
    simp only
    rw [Nat.add_assoc, ← Nat.sub_add_comm hle]

theorem steady_shortened (k : Nat) (s : Pool) : Steady fun t => Sound k t ∧ Shortened s t where
  flag _ _ h := ⟨sound_flag h.1, { h.2 with }⟩
  take _ _ _ _ h := ⟨sound_take h.1, shortened_take h.2⟩
  grow _ _ _ _ h hl hrc hle :=
    ⟨sound_recordIncrease h.1 hl hle, shortened_recordIncrease h.1 h.2 hl hrc⟩

/-! ### How many pages are gained -/

theorem increaseReservation_populated (s : Pool) (n : Nat) (answer : Answer) :
    (increaseReservation s n answer).2 ≤ answer.populated := by
  unfold increaseReservation
  simp only
  split
  · exact Nat.zero_le _
  · split
    · exact Nat.min_le_left _ _
    · exact Nat.zero_le _

/-- At most `n` pages have come from Xen, and no more than it gave before it refused. -/
def GainsAtMost (s t : Pool) (n : Nat) (xen : Xen) : Prop :=
  t.gained ≤ s.gained + n ∧ ∀ k, (xen k).populated = 0 → t.gained ≤ s.gained + supply k xen

theorem gainsAtMost_same (h : t.gained = s.gained) : GainsAtMost s t n xen := by
  rw [GainsAtMost, h]
  exact ⟨Nat.le_add_right _ _, fun _ _ => Nat.le_add_right _ _⟩

theorem increaseLoop_gained : GainsAtMost s (increaseLoop fuel s n result xen).1 n xen := by
  induction fuel generalizing s n result xen with
  | zero => exact gainsAtMost_same rfl
  | succ fuel ih =>
    by_cases hn : n = 0
    · rw [increaseLoop_stop (.inl hn)]
      exact gainsAtMost_same rfl
    · cases hl : s.memoryHoleList with
      | nil =>
        rw [increaseLoop_stop (.inr hl)]
        exact gainsAtMost_same rfl
      | cons hole rest =>
        have hgained := increaseReservation_gained s (min hole.size n) (xen 0)
        have hpopulated := increaseReservation_populated s (min hole.size n) (xen 0)
        have hle := increaseReservation_le s (min hole.size n) (xen 0)
        rw [increaseLoop_cons hn hl]
        generalize increaseReservation s (min hole.size n) (xen 0) = gain
          at hgained hpopulated hle ⊢
        obtain ⟨t, rc⟩ := gain
        simp only at hgained hpopulated hle ⊢
        split
        case isTrue => exact gainsAtMost_same hgained
        case isFalse hrc =>
          have hgrown : (recordIncrease t hole hole.size rc).gained = t.gained + rc := rfl
          refine ⟨le_trans ih.1 (by omega), ?_⟩
          intro k hk
          cases k with
          | zero => omega
          | succ k =>
            refine le_trans (ih.2 k hk) ?_
            rw [supply]
            omega

theorem increaseMemory_gained (s : Pool) (n : Nat) (xen : Xen) :
    GainsAtMost s (increaseMemory s n xen).1 n xen := by
  unfold increaseMemory
  split
  · exact gainsAtMost_same rfl
  · simp only
    split
    · exact increaseLoop_gained
    · exact gainsAtMost_same rfl

theorem increaseMemory_cannot (h : canIncrease s.memoryHoleList n = 0) :
    (increaseMemory s n xen).2.1 = 0 := by
  unfold increaseMemory
  split
  · rfl
  · simp only
    rw [if_neg (not_not_intro h)]

theorem increaseLoop_one (s : Pool) (xen : Xen) : (increaseLoop 1 s 1 0 xen).2.1 = 0 ∨
    1 ≤ (xen 0).populated ∧ (increaseLoop 1 s 1 0 xen).2.1 = 1 ∧
      (increaseLoop 1 s 1 0 xen).2.2 = xen.rest := by
  cases hl : s.memoryHoleList with
  | nil =>
    rw [increaseLoop_stop (.inr hl)]
    exact .inl rfl
  | cons hole rest =>
    have hpopulated := increaseReservation_populated s (min hole.size 1) (xen 0)
    have hle := increaseReservation_le s (min hole.size 1) (xen 0)
    rw [increaseLoop_cons Nat.one_ne_zero hl]
    generalize increaseReservation s (min hole.size 1) (xen 0) = gain at hpopulated hle ⊢
    split
    case isTrue => exact .inl rfl
    case isFalse hrc =>
      refine .inr ⟨by omega, ?_, rfl⟩
      change 0 + gain.2 = 1
      omega

theorem increaseMemory_one (s : Pool) (xen : Xen) : (increaseMemory s 1 xen).2.1 = 0 ∨
    1 ≤ (xen 0).populated ∧ (increaseMemory s 1 xen).2.1 = 1 ∧
      (increaseMemory s 1 xen).2.2 = xen.rest := by
  unfold increaseMemory
  split
  · exact .inl rfl
  · simp only
    split
    · exact increaseLoop_one _ xen
    · exact .inl rfl

theorem allocateLoop_gained (hk : (xen k).populated = 0)
    (hr : allocateLoop 1 fuel s isBulkAlloc xen = some (t, r)) :
    t.gained ≤ s.gained + supply k xen := by
  induction fuel generalizing s isBulkAlloc xen k with
  | zero => cases hr
  | succ fuel ih =>
    have hgained := gained_increaseMemory s 1 xen
    have hone := increaseMemory_one s xen
    cases allocateLoop_round hr with
    | found page _ ht =>
      rw [ht, take_gained]
      exact Nat.le_add_right _ _
    | bulk _ _ hrest => exact ih hk hrest
    | refused _ _ xen' hinc =>
      simp only [hinc] at hgained
      omega
    | gained _ _ u result xen' hinc hne hrest =>
      simp only [hinc] at hgained hone
      obtain ⟨hpopulated, hresult, rfl⟩ := hone.resolve_left hne
      cases k with
      | zero => omega
      | succ k =>
        have hleft : (xen.rest k).populated = 0 := hk
        have hlater := ih hleft hrest
        rw [supply]
        omega

theorem allocatePages_gained (h : Found s n ∨ canIncrease s.memoryHoleList n = 0)
    (hr : allocatePages s n xen = some (t, r)) : t.gained = s.gained := by
  rcases h with hfound | hcannot
  · obtain ⟨_, page, -, -, heq⟩ := allocatePages_found xen hfound
    cases hr.symm.trans heq
    exact take_gained
  · unfold allocatePages at hr
    generalize holePages s.memoryHoleList + 3 = fuel at hr
    generalize isBulk n = isBulkAlloc at hr
    induction fuel generalizing isBulkAlloc with
    | zero => cases hr
    | succ fuel ih =>
      have hgained := gained_increaseMemory s n xen
      have hzero : (increaseMemory s n xen).2.1 = 0 := increaseMemory_cannot hcannot
      cases allocateLoop_round hr with
      | found page _ ht =>
        rw [ht]
        exact take_gained
      | bulk _ _ hrest => exact ih true hrest
      | refused _ _ xen' hinc =>
        simp only [hinc] at hgained
        omega
      | gained _ _ u result xen' hinc hne =>
        rw [hinc] at hzero
        exact absurd hzero hne

/-! ### The list -/

def fixedPart (holes : List Hole) : Option (Nat × Nat) × List Hole :=
  (holes.head?.map fun h => (h.id, h.endPfn), holes.tail)

structure Spared (s t : Pool) : Prop where
  leaked : t.leaked = s.leaked
  fixed : fixedPart t.memoryHoleList = fixedPart s.memoryHoleList

/-- Fewer pages have come back than the first hole has. -/
def Within (s t : Pool) : Prop :=
  t.gained = s.gained ∨ ∃ head rest, s.memoryHoleList = head :: rest ∧
    t.gained < s.gained + head.size

theorem Shortened.spared (h : Shortened s t) (hlt : Within s t) : Spared s t := by
  rcases hlt with heq | ⟨head, rest, hl, hlt⟩
  · obtain ⟨hlist, hleaked⟩ := h.same heq
    exact ⟨hleaked, congrArg fixedPart hlist⟩
  · obtain ⟨hlist, hleaked⟩ := h.first head rest hl hlt
    refine ⟨hleaked, ?_⟩
    rw [hlist, hl]
    rfl

theorem increaseMemory_spares (h : SparesIncrease s n xen) :
    Within s (increaseMemory s n xen).1 := by
  have hgained := gained_increaseMemory s n xen
  by_cases hcannot : canIncrease s.memoryHoleList n = 0
  · have hzero : (increaseMemory s n xen).2.1 = 0 := increaseMemory_cannot hcannot
    exact .inl (by omega)
  · cases hl : s.memoryHoleList with
    | nil =>
      rw [hl] at hcannot
      exact absurd rfl hcannot
    | cons head rest =>
      have hfirst := h.resolve_left hcannot head (by rw [hl]; rfl)
      obtain ⟨hrequest, hsupply⟩ := increaseMemory_gained s n xen
      refine .inr ⟨head, rest, hl, ?_⟩
      rcases hfirst with hsmall | ⟨i, hi, hless⟩
      · omega
      · have := hsupply i hi
        omega

theorem spared_increase (h : Sound k s) (hspares : SparesIncrease s n xen) :
    Spared s (increaseMemory s n xen).1 :=
  (((steady_shortened k s).kept xen).increaseMemory ⟨h, Shortened.refl s⟩).1.2.spared
    (increaseMemory_spares hspares)

theorem spared_allocate (h : Sound k s) (hspares : Found s n ∨ canIncrease s.memoryHoleList n = 0)
    (hr : allocatePages s n xen = some (t, r)) : Spared s t :=
  ((steady_shortened k s).allocatePages ⟨h, Shortened.refl s⟩ hr).2.spared
    (.inl (allocatePages_gained hspares hr))

theorem found_of_freePage (h : FreePage s) : Found s 1 := by
  obtain ⟨p, hregion, hfree⟩ := h
  have hrun : FreePages s p 1 := by
    intro q hle hlt
    obtain rfl : q = p := by omega
    exact hfree
  rcases hregion with ⟨hlow, hhigh⟩ | ⟨hlow, hhigh⟩
  · obtain ⟨page, hs, -⟩ := search_one (b := false) hlow hhigh hfree
    exact .inl ⟨rfl, page, hs⟩
  · refine .inr (ne_none_iff_exists'.mp ?_)
    intro hnone
    exact search_complete hnone (le_refl 1) hlow hhigh hrun

theorem spared_record (h : Sound k s) (hspares : SparesRecord s newPage xen)
    (hx : xmallocRecord s newPage xen = some (t, r)) : Spared s t := by
  unfold xmallocRecord at hx
  split at hx
  case isFalse =>
    cases hx
    exact ⟨rfl, rfl⟩
  case isTrue hnew =>
    split at hx
    case h_2 => cases hx
    case h_1 u page hu =>
      cases hx
      have hshort := ((steady_shortened k s).allocatePages ⟨h, Shortened.refl s⟩ hu).2
      rcases hspares hnew with hfree | hrest
      · exact spared_allocate h (.inl (found_of_freePage hfree)) hu
      · by_cases hcannot : canIncrease s.memoryHoleList 1 = 0
        · exact spared_allocate h (.inr hcannot) hu
        · apply hshort.spared
          cases hl : s.memoryHoleList with
          | nil =>
            rw [hl] at hcannot
            exact absurd rfl hcannot
          | cons head rest =>
            obtain ⟨i, hi, hless⟩ := hrest.resolve_left hcannot head (by rw [hl]; rfl)
            have hgained := allocateLoop_gained hi hu
            exact .inr ⟨head, rest, hl, by omega⟩

/-! ## Runs that spare the first hole -/

theorem afterRecord_leaked : (afterRecord s new r).leaked = s.leaked :=
  afterRecord_frame Pool.leaked fun _ _ => deallocate_leaked

structure Tracked (b : Balloon) : Prop where
  sound : Holds (fun s => Sound s.nextId s) b.sys
  tallied : Tallied b
  leaked : b.sys.pool.leaked = []

theorem Tracked.exact (h : Tracked b) : Exact b := by
  have hrecords := h.tallied
  rw [Tallied, owned, h.leaked, append_nil] at hrecords
  exact ⟨hrecords, h.sound.pool.ids⟩

theorem leaked_step (hs : Holds (fun s => Sound s.nextId s) b.sys) (hok : spares b l)
    (hstep : balloonStep b l = some c) : c.sys.pool.leaked = b.sys.pool.leaked := by
  obtain ⟨t, ht, rfl⟩ := map_eq_some_iff.mp hstep
  have hpool := hs.pool
  cases step_performed ht with
  | allocate _ hr => exact (spared_allocate hpool hok hr).leaked
  | deallocate => exact deallocate_leaked
  | increase => exact (spared_increase hpool hok).leaked
  | decrease | done => rfl
  | round _ _ hr =>
    rcases decreaseRound_cases hr with ⟨-, rfl, -⟩ | ⟨-, v, r, hx, rfl, -⟩
    · rfl
    · exact afterRecord_leaked.trans (spared_record (sound_nextId hpool) hok hx).leaked
  | resize => cases hok

theorem tracked_step (h : Tracked b) (hok : spares b l) (hstep : balloonStep b l = some c) :
    Tracked c := by
  obtain ⟨t, ht, hc⟩ := map_eq_some_iff.mp hstep
  have hsound : Holds (fun s => Sound s.nextId s) c.sys := by
    rw [← hc]
    exact sound_step h.sound ht
  exact ⟨hsound, tallied_step h.sound h.tallied hstep,
    (leaked_step h.sound hok hstep).trans h.leaked⟩

theorem settled_leaked : Settled fun s => s.leaked = [] where
  flag _ _ h := h
  nextId _ _ h := h
  take _ _ _ _ h _ _ := take_leaked.trans h
  hole _ _ h _ := h

theorem tracked_afterResize (h : AfterResize b) : Tracked b := by
  obtain ⟨config, newPage, xen, hstep⟩ := h
  have hsound : Sound (initPageAllocator config).nextId (initPageAllocator config) :=
    sound_of_reach
      (.start ⟨config, rfl⟩ : Reach step anyStep Initial ⟨initPageAllocator config, none⟩)
  have hstart : Holds (fun s => Sound s.nextId s) ⟨initPageAllocator config, none⟩ :=
    holds_idle hsound rfl
  have htallied : Tallied ⟨⟨initPageAllocator config, none⟩, []⟩ := List.Perm.refl []
  have hnext := tallied_step hstart htallied hstep
  obtain ⟨t, ht, rfl⟩ := map_eq_some_iff.mp hstep
  refine ⟨sound_step hstart ht, hnext, ?_⟩
  cases step_performed ht with
  | resize _ hholes hr => exact settled_leaked.resize rfl hholes hr

theorem tracked_run (h : Reach balloonStep spares AfterResize b) : Tracked b := by
  apply h.invariant
  · exact fun b hb => tracked_afterResize hb
  · exact fun b l c hb hok hstep => tracked_step hb hok hstep

/-! ## Shrinking and growing back -/

/-- A step of a run that only shrinks the pool and lets it grow: new pages need no frames for page
tables, the record of a hole comes from the small region, and what goes lies right below the first
hole. -/
def regrows (b : Balloon) : Label → Prop
  | .increase n xen => SparesIncrease b.sys.pool n xen ∧ ∀ k, (xen k).frames = 0
  | .decrease _ => True
  | .round newPage _ => RoomForRecord b.sys.pool newPage ∧ ∀ d, b.sys.decreasing = some d →
      d.more b.sys.pool = true → allocated b.sys.pool d.page = false →
        ∃ head rest, b.sys.pool.memoryHoleList = head :: rest ∧ head.startPfn = d.page + 1
  | _ => False

/-- The heap's records and the pool are as they were. The counters are an `unsigned long`; of the
bitmap the bits of the pool's pages matter. -/
structure Restored (b c : Balloon) : Prop where
  holes : c.sys.pool.memoryHoleList = b.sys.pool.memoryHoleList
  records : c.records = b.records
  live : c.sys.pool.live = b.sys.pool.live
  free : c.sys.pool.numFreePages % 2 ^ 64 = b.sys.pool.numFreePages % 2 ^ 64
  freeBulk : c.sys.pool.numFreeBulkPages % 2 ^ 64 = b.sys.pool.numFreeBulkPages % 2 ^ 64
  last : c.sys.pool.endAllocPage = b.sys.pool.endAllocPage
  bits : ∀ p, p < b.sys.pool.endAllocPage → allocated c.sys.pool p = allocated b.sys.pool p
  hint : c.sys.pool.firstFreePage = b.sys.pool.firstFreePage
  bulkHint : c.sys.pool.firstFreeBulkPage = b.sys.pool.firstFreeBulkPage

/-! ### The first hole moves -/

/-- What stays as it is when the first hole gets longer or shorter. -/
def fixedState (s : Pool) :=
  (s.live, s.firstFreePage, s.firstFreeBulkPage, fixedPart s.memoryHoleList,
    (s.numFreePages + holePages s.memoryHoleList) % 2 ^ 64,
    (s.numFreeBulkPages + holePages s.memoryHoleList) % 2 ^ 64)

/-- The first page of the first hole, 0 if there is none. -/
def holeStart (s : Pool) : Nat := (s.memoryHoleList.head?.map Hole.startPfn).getD 0

theorem holeStart_cons (hl : s.memoryHoleList = hole :: rest) : holeStart s = hole.startPfn := by
  rw [holeStart, hl]
  rfl

/-- The pool since it was `s`: pages went to the first hole and came back from it. -/
structure Moved (s t : Pool) : Prop where
  fixed : fixedState t = fixedState s
  gone : ∀ p, InHole t p → ¬ InHole s p → allocated s p = false
  back : ∀ p, ¬ InHole t p → InHole s p → allocated t p = false
  bits : ∀ p, ¬ InHole t p → ¬ InHole s p → allocated t p = allocated s p
  ends : s.endAllocPage = holeStart s ∧ t.endAllocPage = holeStart t ∨
    holeStart t < t.endAllocPage ∧ t.endAllocPage = s.endAllocPage

theorem moved_refl (hwf : Wf s) : Moved s s := by
  refine ⟨rfl, fun p h h' => absurd h h', fun p h h' => absurd h' h, fun _ _ _ => rfl, ?_⟩
  cases hl : s.memoryHoleList with
  | nil =>
    have hstart : holeStart s = 0 := by
      rw [holeStart, hl]
      rfl
    have h₁ := hwf.pos
    have h₂ := hwf.bulk_le
    omega
  | cons head rest =>
    have hstart := holeStart_cons hl
    have hle := hwf.head_le hl
    omega

/-- The pages right below the first hole go. -/
theorem moved_recordDecrease (h : Moved s t) (hwf : Wf t) (hf : FreeHole t new)
    (hl : t.memoryHoleList = hole :: rest) (hend : new.endPfn = hole.startPfn) :
    Moved s (recordDecrease t new) := by
  have hrange := (hwf.range hole (hl ▸ mem_cons_self)).2.1
  have hpos := hf.pos
  have hsize := hf.end_eq
  have hlist :
      (recordDecrease t new).memoryHoleList = { hole with startPfn := new.startPfn } :: rest := by
    simp only [recordDecrease, removePages, hl, hend, ne_eq, not_true_eq_false, if_false]
  have hpages :
      holePages (recordDecrease t new).memoryHoleList = holePages t.memoryHoleList + new.size := by
    rw [hlist, hl]
    simp only [holePages, Hole.size]
    omega
  have hin : ∀ p, InHole (recordDecrease t new) p ↔ InHole t p ∨ new.Has p :=
    fun p => inHole_recordDecrease (fun a ha => (hwf.range a ha).2.1) hpos
  have hclear : ∀ p, new.Has p → allocated t p = false ∧ ¬ InHole t p := by
    intro p hp
    refine ⟨hf.free p hp.1 (hsize ▸ hp.2), ?_⟩
    rintro ⟨a, ha, hge, hlt⟩
    have := hf.apart hwf ha
    have := hp.1
    have := hp.2
    omega
  have hsame : ∀ p, ¬ InHole (recordDecrease t new) p →
      ¬ InHole t p ∧ allocated (recordDecrease t new) p = allocated t p := by
    intro p hp
    rw [hin, not_or] at hp
    have hout : ¬ (new.startPfn ≤ p ∧ p < new.endPfn) := hp.2
    rw [allocated_recordDecrease, hsize, decide_eq_false hout, Bool.or_false]
    exact ⟨hp.1, rfl⟩
  refine ⟨?_, ?_, ?_, ?_, ?_⟩
  · rw [← h.fixed]
    simp only [fixedState, Prod.mk.injEq]
    refine ⟨rfl, rfl, rfl, ?_, ?_, ?_⟩
    · rw [hlist, hl]
      rfl
    · rw [recordDecrease_numFreePages, hpages, sub64]
      omega
    · rw [recordDecrease_numFreeBulkPages, hpages, sub64]
      omega
  · intro p hp hout
    rcases (hin p).mp hp with hp | hp
    · exact h.gone p hp hout
    · rw [← h.bits p (hclear p hp).2 hout]
      exact (hclear p hp).1
  · intro p hp hin'
    rw [(hsame p hp).2]
    exact h.back p (hsame p hp).1 hin'
  · intro p hp hout
    rw [(hsame p hp).2]
    exact h.bits p (hsame p hp).1 hout
  · have hends := h.ends
    have hstart : holeStart (recordDecrease t new) = new.startPfn := by rw [holeStart_cons hlist]
    rw [holeStart_cons hl, ← hend] at hends
    rw [hf.endAllocPage, hstart]
    split <;> omega

/-- Pages at the start of the first hole come back. -/
theorem moved_recordIncrease (h : Moved s t) (hwf : Wf t) (hl : t.memoryHoleList = hole :: rest)
    (hrc : 0 < rc) (hlt : rc < hole.size) : Moved s (recordIncrease t hole hole.size rc) := by
  have hsize : rc < hole.endPfn - hole.startPfn := hlt
  have hmem : hole ∈ t.memoryHoleList := hl ▸ mem_cons_self
  have hlist := recordIncrease_memoryHoleList hwf hl hrc (le_of_lt hlt)
  rw [if_neg (ne_of_gt hlt)] at hlist
  have hpages : holePages (recordIncrease t hole hole.size rc).memoryHoleList + rc =
      holePages t.memoryHoleList := by
    rw [hlist, hl]
    simp only [holePages, Hole.size]
    omega
  have hin : ∀ p, InHole (recordIncrease t hole hole.size rc) p ↔ InHole t p ∧
      hole.startPfn + rc ≤ p :=
    fun p => inHole_recordIncrease hwf hl hrc (le_of_lt hlt)
  have hclear : ∀ p, ¬ InHole (recordIncrease t hole hole.size rc) p → InHole t p →
      allocated (recordIncrease t hole hole.size rc) p = false := by
    intro p hp hold
    have hge := inHole_ge hwf hl hold
    have hbelow : ¬ hole.startPfn + rc ≤ p := fun hle => hp ((hin p).mpr ⟨hold, hle⟩)
    rw [allocated_recordIncrease, decide_eq_true (by omega), Bool.not_true, Bool.and_false]
  have hsame : ∀ p, ¬ InHole t p → allocated (recordIncrease t hole hole.size rc) p =
      allocated t p := by
    intro p hp
    have hout : ¬ (hole.startPfn ≤ p ∧ p < hole.startPfn + rc) :=
      fun hhas => hp ⟨hole, hmem, hhas.1, by omega⟩
    rw [allocated_recordIncrease, decide_eq_false hout, Bool.not_false, Bool.and_true]
  refine ⟨?_, ?_, ?_, ?_, ?_⟩
  · rw [← h.fixed]
    simp only [fixedState, Prod.mk.injEq]
    refine ⟨rfl, rfl, rfl, ?_, ?_, ?_⟩
    · rw [hlist, hl]
      rfl
    · change (add64 t.numFreePages rc + _) % _ = _
      rw [add64]
      omega
    · change (add64 t.numFreeBulkPages rc + _) % _ = _
      rw [add64]
      omega
  · intro p hp
    exact h.gone p ((hin p).mp hp).1
  · intro p hp hin'
    by_cases hold : InHole t p
    · exact hclear p hp hold
    · rw [hsame p hold]
      exact h.back p hold hin'
  · intro p hp hout
    by_cases hold : InHole t p
    · rw [hclear p hp hold, h.gone p hold hout]
    · rw [hsame p hold]
      exact h.bits p hold hout
  · have hends := h.ends
    have hside := hwf.holeSide hole hmem
    have hstart : holeStart (recordIncrease t hole hole.size rc) = hole.startPfn + rc := by
      rw [holeStart_cons hlist]
    rw [holeStart_cons hl] at hends
    rw [recordIncrease_endAllocPage, hstart]
    omega

theorem moved_increase (h : Moved s t) (hsound : Sound k t) (hfit : Fit t)
    (hspares : SparesIncrease t n xen) (hframes : ∀ i, (xen i).frames = 0) :
    Moved s (increaseMemory t n xen).1 := by
  have hkept :
      Kept (fun u => Sound k u ∧ Fit u ∧ Shortened t u ∧ (Within t u → Moved s u)) xen := by
    refine ⟨?_, ?_, ?_⟩
    · intro u f hu
      exact ⟨sound_flag hu.1, fit_flag hu.2.1, { hu.2.2.1 with }, fun hlt => { hu.2.2.2 hlt with }⟩
    · intro i u hu
      rw [hframes i]
      exact hu
    · rintro u hole rest rc ⟨hsound, hfit, hshort, hmoved⟩ hl hrc hle
      refine ⟨sound_recordIncrease hsound hl hle,
        (kept_fit xen).grow u hole rest rc hfit hl hrc hle,
        shortened_recordIncrease hsound hshort hl hrc, ?_⟩
      have hgained : (recordIncrease u hole hole.size rc).gained = u.gained + rc := rfl
      have hmono := hshort.le
      rintro (heq | ⟨head, tail, hs, hlt⟩)
      · omega
      · rw [hgained] at hlt
        have hwithin : u.gained < t.gained + head.size := by omega
        obtain ⟨hlist, -⟩ := hshort.first head tail hs hwithin
        obtain ⟨rfl, rfl⟩ := List.cons.inj (hl.symm.trans hlist)
        refine moved_recordIncrease (hmoved (.inr ⟨head, rest, hs, hwithin⟩)) hfit.wf hl hrc ?_
        unfold Hole.size at hlt ⊢
        simp only
        omega
  exact (hkept.increaseMemory ⟨hsound, hfit, Shortened.refl t, fun _ => h⟩).1.2.2.2
    (increaseMemory_spares hspares)

/-- A page of the small region that is taken for the record and freed at once leaves no trace. -/
theorem moved_freed (h : Moved s (recordDecrease t new)) (hs : search t false 1 = some page)
    (hlow : t.firstBulkPage ≤ new.startPfn) (hle : t.firstBulkPage ≤ t.endAllocPage)
    (hfits : t.endAllocPage < 2 ^ 31) :
    Moved s (giveBack (recordDecrease (take t false page 1) new) page 1) := by
  obtain ⟨hge, -, hlt, hfree⟩ := search_sound hs
  have hge : t.firstFreePage ≤ page := hge
  have hlt : page + 1 ≤ t.firstBulkPage := hlt
  have hclear := hfree page le_rfl (Nat.lt_succ_self _)
  have hbulk : isBulk 1 = false := rfl
  have hnext := (nextFree_spec hfits (show page + 1 ≤ t.endAllocPage by omega)).1
  have hlist : (giveBack (recordDecrease (take t false page 1) new) page 1).memoryHoleList =
      (recordDecrease t new).memoryHoleList := by
    rw [deallocate_memoryHoleList]
    simp only [recordDecrease, removePages, take_memoryHoleList]
  have hbits : ∀ p, allocated (giveBack (recordDecrease (take t false page 1) new) page 1) p =
      allocated (recordDecrease t new) p := by
    intro p
    rw [allocated_deallocate, allocated_recordDecrease, allocated_recordDecrease, allocated_take]
    by_cases hp : p = page
    · rw [hp, hclear,
        decide_eq_false (by omega : ¬ (new.startPfn ≤ page ∧ page < new.startPfn + new.size)),
        decide_eq_true (by omega : page ≤ page ∧ page < page + 1)]
      rfl
    · rw [decide_eq_false (by omega : ¬ (page ≤ p ∧ p < page + 1)), Bool.or_false, Bool.not_false,
        Bool.and_true]
  have hfixed : fixedState (giveBack (recordDecrease (take t false page 1) new) page 1) =
      fixedState (recordDecrease t new) := by
    simp only [fixedState, hlist, Prod.mk.injEq, true_and]
    refine ⟨?_, ?_, ?_, ?_, ?_⟩
    · rw [deallocate_live, recordDecrease_live, take_live, erase_cons_head]
      rfl
    · rw [deallocate_firstFreePage, hbulk, if_neg Bool.false_ne_true]
      change min page (take t false page 1).firstFreePage = t.firstFreePage
      rw [take_firstFreePage]
      simp only [true_and]
      split <;> omega
    · rw [deallocate_firstFreeBulkPage, hbulk, if_neg Bool.false_ne_true]
      rfl
    · rw [deallocate_numFreePages, recordDecrease_numFreePages, take_numFreePages,
        recordDecrease_numFreePages]
      simp only [add64, sub64]
      omega
    · rw [deallocate_numFreeBulkPages]
      rfl
  refine ⟨hfixed.trans h.fixed, ?_, ?_, ?_, ?_⟩
  · simpa only [InHole, hlist] using h.gone
  · simpa only [InHole, hlist, hbits] using h.back
  · simpa only [InHole, hlist, hbits] using h.bits
  · have hlast : (recordDecrease (take t false page 1) new).endAllocPage =
        (recordDecrease t new).endAllocPage := rfl
    simpa only [deallocate_endAllocPage, hlast, holeStart, hlist] using h.ends

theorem moved_round (h : Moved s t) (hfit : Fit t) (hmore : d.more t = true)
    (hpage : d.page < t.endAllocPage) (hfree : allocated t d.page = false)
    (hroom : RoomForRecord t newPage)
    (hl : t.memoryHoleList = hole :: rest) (hbelow : hole.startPfn = d.page + 1)
    (hx : xmallocRecord { t with nextId := t.nextId + 1 } newPage xen = some (u, r)) :
    coalesces u (d.hole t) = true ∧ Moved s (afterRecord u (d.hole t) r) := by
  have hrun := freeHole_of_round hfit.wf.pos hmore hpage hfree
  have hend : (d.hole t).endPfn = hole.startPfn := hbelow.symm
  have hstart : Moved s { t with nextId := t.nextId + 1 } := { h with }
  have hfit' : Fit { t with nextId := t.nextId + 1 } := closed_fit.nextId t _ hfit
  have hrun' : FreeHole { t with nextId := t.nextId + 1 } (d.hole t) := { hrun with }
  have hmoved := moved_recordDecrease hstart hfit'.wf hrun' hl hend
  have hroom' : RoomForRecord { t with nextId := t.nextId + 1 } newPage := hroom
  have hcase := xmallocRecord_small hroom' hx
  have hlist : u.memoryHoleList = hole :: rest := by
    rcases hcase with ⟨rfl, -⟩ | ⟨page, -, rfl, -⟩
    · exact hl
    · rw [take_memoryHoleList]
      exact hl
  have hjoin : coalesces u (d.hole t) = true := by
    rw [coalesces, hlist]
    exact decide_eq_true hend
  refine ⟨hjoin, ?_⟩
  rw [afterRecord, if_pos hjoin]
  rcases hcase with ⟨rfl, rfl⟩ | ⟨page, hs, rfl, rfl⟩
  · exact hmoved
  · exact moved_freed hmoved hs hrun.low hfit.wf.bulk_le (lt_of_le_of_lt hfit.wf.end_le hfit.fits)

/-! ### Runs -/

theorem spares_of_regrows (h : regrows b l) : spares b l ∧ recordStep b.sys l := by
  cases l with
  | increase => exact ⟨h.1, trivial⟩
  | decrease => exact ⟨trivial, trivial⟩
  | round newPage xen =>
    refine ⟨?_, h.1⟩
    intro hnew
    obtain ⟨p, hlow, hhigh, hfree⟩ := h.1 hnew
    exact .inl ⟨p, .inl ⟨hlow, hhigh⟩, hfree⟩
  | allocate | deallocate | resize => cases h

theorem moved_step (h : Moved s b.sys.pool) (hsound : Holds (fun s => Sound s.nextId s) b.sys)
    (hfit : Fit b.sys.pool) (hok : regrows b l) (hstep : balloonStep b l = some c) :
    Moved s c.sys.pool ∧ c.records = b.records := by
  obtain ⟨t, ht, rfl⟩ := map_eq_some_iff.mp hstep
  cases step_performed ht with
  | allocate | deallocate | resize => cases hok
  | increase => exact ⟨moved_increase h hsound.pool hfit hok.1 hok.2, rfl⟩
  | decrease => exact ⟨h, rfl⟩
  | round hd hmore hr =>
    rw [recordsAfter_round hd]
    rcases decreaseRound_cases hr with ⟨hset, rfl, -⟩ | ⟨hfree, u, r, hx, rfl, -⟩
    · exact ⟨h, if_neg (by simp [hset])⟩
    · obtain ⟨head, rest, hl, hbelow⟩ := hok.2 _ hd hmore hfree
      obtain ⟨hjoin, hmoved⟩ := moved_round h hfit hmore (hsound.page _ hd) hfree hok.1 hl hbelow hx
      refine ⟨hmoved, ?_⟩
      rw [roundRecords_free hmore hfree hx, if_pos hjoin]
  | done hd hmore => exact ⟨h, recordsAfter_done hd hmore⟩

theorem eq_of_fixedPart {holes holes' : List Hole} (hfixed : fixedPart holes = fixedPart holes')
    (hpages : holePages holes = holePages holes') (hrange : ∀ h ∈ holes, h.startPfn ≤ h.endPfn)
    (hrange' : ∀ h ∈ holes', h.startPfn ≤ h.endPfn) : holes = holes' := by
  obtain ⟨hhead, htail⟩ := Prod.mk.inj hfixed
  cases holes with
  | nil =>
    cases holes' with
    | nil => rfl
    | cons => cases hhead
  | cons h rest =>
    cases holes' with
    | nil => cases hhead
    | cons h' rest' =>
      have htail' : rest = rest' := htail
      have hkey := some.inj hhead
      obtain ⟨hid, hend⟩ := Prod.mk.inj hkey
      have hle := hrange h mem_cons_self
      have hle' := hrange' h' mem_cons_self
      rw [htail', holePages, holePages] at hpages
      unfold Hole.size at hpages
      have hstart : h.startPfn = h'.startPfn := by omega
      rw [htail']
      congr 1
      cases h
      cases h'
      simp only at hid hend hstart
      rw [hid, hend, hstart]

theorem restored_of_moved (hb : Tracked b) (hc : Tracked c) (hwf : Wf b.sys.pool)
    (hwf' : Wf c.sys.pool) (h : Moved b.sys.pool c.sys.pool) (hrecords : c.records = b.records)
    (hpages : holePages c.sys.pool.memoryHoleList = holePages b.sys.pool.memoryHoleList) :
    Restored b c := by
  have hstays := h.fixed
  simp only [fixedState, Prod.mk.injEq] at hstays
  obtain ⟨hlive, hhint, hbulkHint, hfixed, hfree, hbulk⟩ := hstays
  have hholes := eq_of_fixedPart hfixed hpages (fun a ha => (hc.sound.pool.range a ha).1)
    (fun a ha => (hb.sound.pool.range a ha).1)
  have hstart : holeStart c.sys.pool = holeStart b.sys.pool := by rw [holeStart, hholes, holeStart]
  have hends := h.ends
  refine ⟨hholes, hrecords, hlive, by omega, by omega, by omega, ?_, hhint, hbulkHint⟩
  intro p hp
  by_cases hin : InHole b.sys.pool p
  · obtain ⟨a, ha, hhas⟩ := hin
    rw [hwf.holeSet a ha p hhas hp, hwf'.holeSet a (hholes ▸ ha) p hhas (by omega)]
  · refine h.bits p ?_ hin
    rw [InHole, hholes]
    exact hin

/-- The states in which the records of holes came from the small region so far. -/
def SmallRecords (b : Balloon) : Prop :=
  Reach balloonStep (fun b l => spares b l ∧ recordStep b.sys l)
    (fun b => AfterResize b ∧ b.sys.pool.maxEndAllocPage < 2 ^ 31) b

theorem fit_run (h : SmallRecords b) : Holds Fit b.sys := by
  apply h.invariant
  · rintro b ⟨⟨config, newPage, xen, hstep⟩, hfits⟩
    obtain ⟨t, ht, rfl⟩ := map_eq_some_iff.mp hstep
    refine fit_step (l := .resize newPage xen) (holds_idle ⟨wf_initPageAllocator config, ?_⟩ rfl)
      trivial ht
    cases step_performed ht with
    | resize _ hholes hr =>
      have hmax :=
        settled_max.resize (rfl : _ = (initPageAllocator config).maxEndAllocPage) hholes hr
      rw [← hmax]
      exact hfits
  · intro b l c hb hok hstep
    obtain ⟨t, ht, rfl⟩ := map_eq_some_iff.mp hstep
    exact fit_step hb hok.2 ht

/-- In every run in which no hole is refilled completely the live records are those of the list, and
growing back to the same size leaves everything as it was. -/
theorem hole_records_listed (b : Balloon) (h : Reach balloonStep spares AfterResize b) :
    Exact b ∧ (SmallRecords b → ∀ c, Reach balloonStep regrows (· = b) c →
      holePages c.sys.pool.memoryHoleList = holePages b.sys.pool.memoryHoleList →
        Restored b c) := by
  have hb := tracked_run h
  refine ⟨hb.exact, ?_⟩
  intro hsmall c hc hpages
  have hfit := fit_run hsmall
  have hrun : Tracked c ∧ Holds Fit c.sys ∧ Moved b.sys.pool c.sys.pool ∧
      c.records = b.records := by
    apply hc.invariant
      (I := fun c => Tracked c ∧ Holds Fit c.sys ∧ Moved b.sys.pool c.sys.pool ∧
        c.records = b.records)
    · rintro c rfl
      exact ⟨hb, hfit, moved_refl hfit.pool.wf, rfl⟩
    · rintro c l e ⟨htracked, hfit, hmoved, hrecords⟩ hok hstep
      obtain ⟨hspares, hrecord⟩ := spares_of_regrows hok
      obtain ⟨hmoved', hsame⟩ := moved_step hmoved htracked.sound hfit.pool hok hstep
      have hfit' : Holds Fit e.sys := by
        obtain ⟨t, ht, rfl⟩ := map_eq_some_iff.mp hstep
        exact fit_step hfit hrecord ht
      exact ⟨tracked_step htracked hspares hstep, hfit', hmoved', hsame.trans hrecords⟩
  obtain ⟨htracked, hfit', hmoved, hrecords⟩ := hrun
  exact restored_of_moved hb htracked hfit.pool.wf hfit'.pool.wf hmoved hrecords hpages

def wholeDomain : Config := { smallDomain with max := 32768, fits := by decide, le := le_rfl }

def shrink (n : Nat) : List Label := [.decrease n, .round false noMemory, .round false noMemory]

def resized : Option Balloon :=
  balloonStep ⟨⟨initPageAllocator wholeDomain, none⟩, []⟩ (.resize false noMemory)

theorem spares_shrink (n : Nat) : ∀ l ∈ shrink n, ∀ b, spares b l ∧ recordStep b.sys l := by
  have hround : ∀ b, spares b (.round false noMemory) ∧ recordStep b.sys (.round false noMemory) :=
    fun _ => ⟨nofun, nofun⟩
  simp only [shrink, mem_cons, not_mem_nil, or_false]
  rintro l (rfl | rfl | rfl)
  · exact fun _ => ⟨trivial, trivial⟩
  · exact hround
  · exact hround

/-- After five pages another three go, and three come back. The record for the three takes a page
from the small region and gives it back. -/
theorem hole_records_listed_shrunk : ∃ b c, b.records = [0] ∧ c.records = [0] ∧ Exact b ∧
    Restored b c := by
  have heval : (resized.bind fun a => (run balloonStep a (shrink 5)).bind fun b =>
      (balloonStep b (.decrease 3)).bind fun b₁ =>
        (balloonStep b₁ (.round true noMemory)).bind fun b₂ =>
        (balloonStep b₂ (.round true noMemory)).bind fun m =>
          (balloonStep m (.increase 3 allMemory)).map fun c =>
          decide ((a.sys.pool.maxEndAllocPage = 32768 ∧ b.records = [0] ∧ c.records = [0]) ∧
            (b.sys.pool.memoryHoleList = [⟨0, 32763, 32768⟩] ∧
              b₁.sys.pool.memoryHoleList = [⟨0, 32763, 32768⟩] ∧
              m.sys.pool.memoryHoleList = [⟨0, 32760, 32768⟩] ∧
              c.sys.pool.memoryHoleList = [⟨0, 32763, 32768⟩]) ∧
            (b₁.sys.decreasing.map Decrease.page = some 32762 ∧
              b₂.sys.decreasing.map Decrease.n = some 0) ∧
            ∀ e ∈ [b₁, b₂], e.sys.pool.firstFreePage < e.sys.pool.firstBulkPage ∧
              allocated e.sys.pool e.sys.pool.firstFreePage = false)) =
                some true := by decide +kernel
  obtain ⟨a, ha, heval⟩ := bind_eq_some_iff.mp heval
  obtain ⟨b, hb, heval⟩ := bind_eq_some_iff.mp heval
  obtain ⟨b₁, hb₁, heval⟩ := bind_eq_some_iff.mp heval
  obtain ⟨b₂, hb₂, heval⟩ := bind_eq_some_iff.mp heval
  obtain ⟨m, hm, heval⟩ := bind_eq_some_iff.mp heval
  obtain ⟨c, hc, hview⟩ := map_eq_some_iff.mp heval
  obtain ⟨⟨hmax, hrecords, hrecords'⟩, ⟨hholes, hholes₁, hholes', hholes''⟩, ⟨hpage, hn⟩,
      hsmallPage⟩ :=
    of_decide_eq_true hview
  have hroom : ∀ e ∈ [b₁, b₂], RoomForRecord e.sys.pool true :=
    fun e he _ => ⟨_, le_rfl, hsmallPage e he⟩
  have hstart : Reach balloonStep spares AfterResize a := .start ⟨wholeDomain, false, noMemory, ha⟩
  have hfirst := hstart.runOk (shrink 5) (fun l hl s => (spares_shrink 5 l hl s).1) hb
  have hsmall : SmallRecords b :=
    Reach.runOk (.start ⟨⟨wholeDomain, false, noMemory, ha⟩, by rw [hmax]; decide⟩) (shrink 5)
      (spares_shrink 5) hb
  obtain ⟨hexact, hrestored⟩ := hole_records_listed b hfirst
  have hround₁ : regrows b₁ (.round true noMemory) := by
    refine ⟨hroom b₁ (by simp), ?_⟩
    intro d hd _ _
    rw [hd] at hpage
    exact ⟨_, _, hholes₁, by rw [some.inj hpage]⟩
  have hround₂ : regrows b₂ (.round true noMemory) := by
    refine ⟨hroom b₂ (by simp), ?_⟩
    intro d hd hmore
    rw [hd] at hn
    simp [Decrease.more, some.inj hn] at hmore
  have hgrow : regrows m (.increase 3 allMemory) := by
    refine ⟨.inr ?_, fun _ => rfl⟩
    rw [hholes']
    rintro head ⟨⟩
    exact .inl (by decide)
  have hdecrease : Reach balloonStep regrows (· = b) b₁ :=
    .next (.decrease 3) (.start rfl) trivial hb₁
  have hrun : Reach balloonStep regrows (· = b) c :=
    .next _ (.next _ (.next _ hdecrease hround₁ hb₂) hround₂ hm) hgrow hc
  refine ⟨b, c, hrecords, hrecords', hexact, hrestored hsmall c hrun ?_⟩
  rw [hholes, hholes'']

/-- Five pages go and come back. The record of the hole is still allocated, and it is on no list. -/
theorem hole_record_lost : ∃ b, Reach balloonStep anyStep AfterResize b ∧ ¬ Exact b := by
  have heval :
    (resized.bind fun a => (run balloonStep a (shrink 5 ++ [.increase 5 allMemory])).map fun b =>
      (b.records, holeIds b.sys.pool)) = some ([0], []) := by decide +kernel
  obtain ⟨a, ha, heval⟩ := bind_eq_some_iff.mp heval
  obtain ⟨b, hb, hview⟩ := map_eq_some_iff.mp heval
  obtain ⟨hrecords, hids⟩ := Prod.mk.inj hview
  have hstart : Reach balloonStep anyStep AfterResize a := .start ⟨wholeDomain, false, noMemory, ha⟩
  refine ⟨b, hstart.run _ hb, ?_⟩
  intro hexact
  have hlisted := hexact.listed
  rw [hrecords, hids] at hlisted
  exact absurd hlisted (by decide)

end Guk.PagePool
