import Guk.Radix
import Guk.Runs

/-!
# The tree of p2m frames (`arch/x86/p2m.c`)

Xen's tools find the pages of `phys_to_machine_mapping` through a tree of two levels:
the root page holds the machine frames of list pages, and these hold the machine
frames of the successive pages of the table. `arch_init_p2m` allocates the pages and
builds the tree for the maximum reservation, `arch_rebuild_p2m` fills the same pages
again on resume, when all machine frames have changed.

A pointer to a page is the number of the page. `frame` is the assignment of machine
frames to pages.
-/
namespace Guk.P2m

open Radix Runs Function Option

def PAGE_SIZE : Nat := 4096

def MAX_L2_PAGES : Nat := 32

def ENTRIES_PER_L2_PAGE : Nat := PAGE_SIZE / 8

def PFNS_PER_L3_PAGE : Nat := 256 * 1024

structure Setting where
  mapping : Nat
  aligned : mapping % PAGE_SIZE = 0
  supply : Nat → Nat
  distinct : Function.Injective supply

structure State where
  mem : Nat → Nat → Nat
  allocated : Nat
  pfnToMfnTable : Nat
  l2ListPages : Nat → Nat
  numL2Pages : Nat
  maxPfnTable : Nat
  maxmemPfnTable : Nat
  frameListList : Nat
  sharedMaxPfn : Nat

def virtToMfn (frame : Nat → Nat) (addr : Nat) : Nat := frame (addr / PAGE_SIZE)

section

variable (e : Setting) (frame : Nat → Nat)

def mappingMfn (pfn : Nat) : Nat := virtToMfn frame (e.mapping + 8 * pfn)

def setEntry (l2List l1Offset l2Offset : Nat) (s : State) : State :=
  { s with
    mem := write s.mem l2List (l2Offset % ENTRIES_PER_L2_PAGE) (mappingMfn e frame l1Offset) }

def setRoot (l3Offset l2List : Nat) (s : State) : State :=
  { s with mem := write s.mem s.pfnToMfnTable l3Offset (frame l2List) }

def newL2Page (l3Offset i : Nat) (s : State) : Option (Nat × State) :=
  if MAX_L2_PAGES ≤ s.numL2Pages + i then none
  else
    let l2List := e.supply s.allocated
    some (l2List, setRoot frame (s.numL2Pages + l3Offset) l2List
      { s with
        allocated := s.allocated + 1
        l2ListPages := update s.l2ListPages (s.numL2Pages + i) l2List })

def updateLoop (endPfn l1Offset l2Offset l3Offset i l2List : Nat) (s : State) : Option State :=
  if l1Offset < endPfn then
    if l2Offset % ENTRIES_PER_L2_PAGE = 0 then
      match newL2Page e frame l3Offset i s with
      | none => none
      | some (l2List, s) =>
        updateLoop endPfn (l1Offset + ENTRIES_PER_L2_PAGE) (l2Offset + 1) (l3Offset + 1) (i + 1)
          l2List
          (setEntry e frame l2List l1Offset l2Offset s)
    else
      updateLoop endPfn (l1Offset + ENTRIES_PER_L2_PAGE) (l2Offset + 1) l3Offset i l2List
        (setEntry e frame l2List l1Offset l2Offset s)
  else some { s with numL2Pages := s.numL2Pages + i }
termination_by endPfn - l1Offset
decreasing_by
  all_goals
    simp only [ENTRIES_PER_L2_PAGE, PAGE_SIZE]
    omega

def archUpdateP2m (startPfn endPfn : Nat) (adding : Bool) (s : State) : Option State :=
  let s? :=
    if adding then
      (if startPfn = 0 then updateLoop e frame endPfn startPfn (startPfn / ENTRIES_PER_L2_PAGE) 0 0
        0 s
        else some s).map fun s =>
          if s.maxPfnTable < endPfn then { s with maxPfnTable := endPfn } else s
    else some (if endPfn = s.maxPfnTable then { s with maxPfnTable := startPfn } else s)
  s?.map fun s => { s with sharedMaxPfn := s.maxPfnTable }

def archInitP2m (maxPfn maxmemPfn : Nat) (s : State) : Option State :=
  let root := e.supply s.allocated
  let s := { s with
    numL2Pages := 0
    pfnToMfnTable := root
    allocated := s.allocated + 1
    frameListList := frame root
    maxPfnTable := 0
    maxmemPfnTable := maxmemPfn }
  (archUpdateP2m e frame 0 maxmemPfn true s).map fun s =>
    { s with maxPfnTable := maxPfn, sharedMaxPfn := maxPfn }

def rebuildLoop (maxmemPfn l1Offset l2Offset l3Offset i l2List : Nat) (s : State) : Option State :=
  if l1Offset < maxmemPfn then
    if l2Offset % ENTRIES_PER_L2_PAGE = 0 then
      let l2List := s.l2ListPages i
      if s.numL2Pages < i + 1 then none
      else
        rebuildLoop maxmemPfn (l1Offset + ENTRIES_PER_L2_PAGE) (l2Offset + 1) (l3Offset + 1) (i + 1)
          l2List
          (setEntry e frame l2List l1Offset l2Offset (setRoot frame l3Offset l2List s))
    else
      rebuildLoop maxmemPfn (l1Offset + ENTRIES_PER_L2_PAGE) (l2Offset + 1) l3Offset i l2List
        (setEntry e frame l2List l1Offset l2Offset s)
  else some s
termination_by maxmemPfn - l1Offset
decreasing_by
  all_goals
    simp only [ENTRIES_PER_L2_PAGE, PAGE_SIZE]
    omega

def archRebuildP2m (s : State) : Option State :=
  (rebuildLoop e frame s.maxmemPfnTable 0 0 0 0 0 s).map fun s =>
    { s with frameListList := frame s.pfnToMfnTable, sharedMaxPfn := s.maxPfnTable }

end

def lookup (machine : Nat → Nat → Nat) (frameListList pfn : Nat) : Nat :=
  machine (machine frameListList (pfn / PFNS_PER_L3_PAGE))
    (pfn / ENTRIES_PER_L2_PAGE % ENTRIES_PER_L2_PAGE)

def Correct (e : Setting) (frame : Nat → Nat) (maxmem : Nat) (s : State) : Prop :=
  ∀ machine : Nat → Nat → Nat, (∀ p, machine (frame p) = s.mem p) →
    ∀ pfn < maxmem, lookup machine s.frameListList pfn = virtToMfn frame (e.mapping + 8 * pfn)

structure SameTree (maxmem : Nat) (s t : State) : Prop where
  root : t.pfnToMfnTable = s.pfnToMfnTable ∧ t.frameListList = s.frameListList
  lists : ∀ pfn < maxmem,
    t.l2ListPages (pfn / PFNS_PER_L3_PAGE) = s.l2ListPages (pfn / PFNS_PER_L3_PAGE) ∧
    t.mem t.pfnToMfnTable (pfn / PFNS_PER_L3_PAGE) = s.mem s.pfnToMfnTable (pfn / PFNS_PER_L3_PAGE)
  entries : ∀ pfn < maxmem,
    t.mem (t.l2ListPages (pfn / PFNS_PER_L3_PAGE))
      (pfn / ENTRIES_PER_L2_PAGE % ENTRIES_PER_L2_PAGE) =
      s.mem (s.l2ListPages (pfn / PFNS_PER_L3_PAGE))
        (pfn / ENTRIES_PER_L2_PAGE % ENTRIES_PER_L2_PAGE)

variable {e : Setting} {frame : Nat → Nat} {s t : State} {k n maxmem l2List : Nat}

/-! ## The tree up to an entry -/

def Filled (e : Setting) (frame : Nat → Nat) (s : State) (k : Nat) : Prop :=
  ∀ j < k, s.mem s.pfnToMfnTable (j / ENTRIES_PER_L2_PAGE) =
    frame (s.l2ListPages (j / ENTRIES_PER_L2_PAGE)) ∧
    s.mem (s.l2ListPages (j / ENTRIES_PER_L2_PAGE)) (j % ENTRIES_PER_L2_PAGE) =
      mappingMfn e frame (ENTRIES_PER_L2_PAGE * j)

structure Laid (s : State) (n : Nat) : Prop where
  notRoot : ∀ j < n, s.l2ListPages j ≠ s.pfnToMfnTable
  inj : ∀ i < n, ∀ j < n, s.l2ListPages i = s.l2ListPages j → i = j

theorem Laid.mono (h : Laid s n) (hle : k ≤ n) : Laid s k where
  notRoot j hj := h.notRoot j (Nat.lt_of_lt_of_le hj hle)
  inj i hi j hj := h.inj i (Nat.lt_of_lt_of_le hi hle) j (Nat.lt_of_lt_of_le hj hle)

def fillNext (e : Setting) (frame : Nat → Nat) (k : Nat) (s : State) : State :=
  setEntry e frame (s.l2ListPages (k / ENTRIES_PER_L2_PAGE)) (ENTRIES_PER_L2_PAGE * k) k
    (if k % ENTRIES_PER_L2_PAGE = 0 then
      setRoot frame (k / ENTRIES_PER_L2_PAGE) (s.l2ListPages (k / ENTRIES_PER_L2_PAGE)) s
    else s)

structure SamePages (s t : State) : Prop where
  root : t.pfnToMfnTable = s.pfnToMfnTable
  pages : t.l2ListPages = s.l2ListPages
  num : t.numL2Pages = s.numL2Pages
  maxmem : t.maxmemPfnTable = s.maxmemPfnTable

theorem SamePages.trans {u : State} (h : SamePages s t) (h' : SamePages t u) : SamePages s u where
  root := h'.root.trans h.root
  pages := h'.pages.trans h.pages
  num := h'.num.trans h.num
  maxmem := h'.maxmem.trans h.maxmem

theorem SamePages.laid (h : SamePages s t) (hlaid : Laid s n) : Laid t n where
  notRoot j hj := by
    rw [h.pages, h.root]
    exact hlaid.notRoot j hj
  inj i hi j hj := by
    rw [h.pages]
    exact hlaid.inj i hi j hj

theorem samePages_setRoot (i l : Nat) : SamePages s (setRoot frame i l s) := ⟨rfl, rfl, rfl, rfl⟩

theorem samePages_fillNext : SamePages s (fillNext e frame k s) := by
  simp only [fillNext]
  split <;> exact ⟨rfl, rfl, rfl, rfl⟩

section

variable (h : Filled e frame s k)

include h

theorem filled_setEntry (hlaid : Laid s (k / ENTRIES_PER_L2_PAGE + 1))
    (hroot : s.mem s.pfnToMfnTable (k / ENTRIES_PER_L2_PAGE) =
    frame (s.l2ListPages (k / ENTRIES_PER_L2_PAGE))) :
    Filled e frame
      (setEntry e frame (s.l2ListPages (k / ENTRIES_PER_L2_PAGE)) (ENTRIES_PER_L2_PAGE * k) k s)
      (k + 1) := by
  have hne := hlaid.notRoot (k / ENTRIES_PER_L2_PAGE) (Nat.lt_succ_self _)
  intro j hj
  simp only [setEntry]
  rw [write_other (.inl hne.symm)]
  by_cases hjk : j = k
  · subst hjk
    exact ⟨hroot, write_self⟩
  · obtain ⟨hlist, hentry⟩ := h j (by omega)
    refine ⟨hlist, ?_⟩
    rw [write_other]
    · exact hentry
    · by_cases hquot : j / ENTRIES_PER_L2_PAGE = k / ENTRIES_PER_L2_PAGE
      · refine .inr fun hmod => hjk ?_
        rw [← Nat.div_add_mod j ENTRIES_PER_L2_PAGE, hquot, hmod, Nat.div_add_mod]
      · refine .inl fun hpage => hquot ?_
        have hle : j / ENTRIES_PER_L2_PAGE ≤ k / ENTRIES_PER_L2_PAGE :=
          Nat.div_le_div_right (by omega)
        exact hlaid.inj _ (Nat.lt_succ_of_le hle) _ (Nat.lt_succ_self _) hpage

theorem filled_setRoot (hlaid : Laid s (k / ENTRIES_PER_L2_PAGE + 1))
    (hnew : k % ENTRIES_PER_L2_PAGE = 0) (l : Nat) :
    Filled e frame (setRoot frame (k / ENTRIES_PER_L2_PAGE) l s) k := by
  intro j hj
  obtain ⟨hlist, hentry⟩ := h j hj
  have hlt : j / ENTRIES_PER_L2_PAGE < k / ENTRIES_PER_L2_PAGE := by
    simp only [ENTRIES_PER_L2_PAGE, PAGE_SIZE] at hnew ⊢
    omega
  simp only [setRoot]
  rw [write_other (.inr (Nat.ne_of_lt hlt)),
    write_other (.inl (hlaid.notRoot _ (Nat.lt_succ_of_lt hlt)))]
  exact ⟨hlist, hentry⟩

theorem filled_root (hold : k % ENTRIES_PER_L2_PAGE ≠ 0) :
    s.mem s.pfnToMfnTable (k / ENTRIES_PER_L2_PAGE) =
      frame (s.l2ListPages (k / ENTRIES_PER_L2_PAGE)) := by
  have hquot : (k - 1) / ENTRIES_PER_L2_PAGE = k / ENTRIES_PER_L2_PAGE := by
    simp only [ENTRIES_PER_L2_PAGE, PAGE_SIZE] at hold ⊢
    omega
  have hpos : 0 < k := by
    apply Nat.pos_of_ne_zero
    rintro rfl
    exact hold (Nat.zero_mod _)
  rw [← hquot]
  exact (h (k - 1) (by omega)).1

theorem filled_fillNext (hlaid : Laid s (k / ENTRIES_PER_L2_PAGE + 1)) :
    Filled e frame (fillNext e frame k s) (k + 1) := by
  unfold fillNext
  split
  case isTrue hnew =>
    exact filled_setEntry (filled_setRoot h hlaid hnew _) ((samePages_setRoot _ _).laid hlaid)
      write_self
  case isFalse hold => exact filled_setEntry h hlaid (filled_root h hold)

end

/-! ## The loops -/

def pagesFor (n : Nat) : Nat := (n + ENTRIES_PER_L2_PAGE - 1) / ENTRIES_PER_L2_PAGE

theorem pagesFor_of_mod_eq_zero (h : k % ENTRIES_PER_L2_PAGE = 0) :
    pagesFor k = k / ENTRIES_PER_L2_PAGE := by
  simp only [pagesFor, ENTRIES_PER_L2_PAGE, PAGE_SIZE] at h ⊢
  omega

theorem pagesFor_of_mod_ne_zero (h : k % ENTRIES_PER_L2_PAGE ≠ 0) :
    pagesFor k = k / ENTRIES_PER_L2_PAGE + 1 := by
  simp only [pagesFor, ENTRIES_PER_L2_PAGE, PAGE_SIZE] at h ⊢
  omega

theorem pagesFor_succ (k : Nat) : pagesFor (k + 1) = k / ENTRIES_PER_L2_PAGE + 1 := by
  simp only [pagesFor, ENTRIES_PER_L2_PAGE, PAGE_SIZE]
  omega

theorem lt_pagesFor : k < pagesFor n ↔ ENTRIES_PER_L2_PAGE * k < n := by
  simp only [pagesFor, ENTRIES_PER_L2_PAGE, PAGE_SIZE]
  omega

theorem pagesFor_mono (h : k ≤ n) : pagesFor k ≤ pagesFor n := by
  simp only [pagesFor, ENTRIES_PER_L2_PAGE, PAGE_SIZE]
  omega

theorem div_lt_pagesFor (h : k < n) : k / ENTRIES_PER_L2_PAGE < pagesFor n := by
  have hmono := pagesFor_mono h
  rwa [pagesFor_succ] at hmono

theorem div_succ_of_mod_ne_zero (h : (k + 1) % ENTRIES_PER_L2_PAGE ≠ 0) :
    (k + 1) / ENTRIES_PER_L2_PAGE = k / ENTRIES_PER_L2_PAGE := by
  simp only [ENTRIES_PER_L2_PAGE, PAGE_SIZE] at h ⊢
  omega

def Holds (s : State) (k l2List : Nat) : Prop :=
  k % ENTRIES_PER_L2_PAGE ≠ 0 → l2List = s.l2ListPages (k / ENTRIES_PER_L2_PAGE)

theorem holds_succ (k : Nat) : Holds s (k + 1) (s.l2ListPages (k / ENTRIES_PER_L2_PAGE)) := by
  intro hmod
  rw [div_succ_of_mod_ne_zero hmod]

theorem rebuildLoop_step (hlt : k < pagesFor maxmem)
    (hnum : k / ENTRIES_PER_L2_PAGE < s.numL2Pages) (hlist : Holds s k l2List) :
    rebuildLoop e frame maxmem (ENTRIES_PER_L2_PAGE * k) k (pagesFor k) (pagesFor k) l2List s =
      rebuildLoop e frame maxmem (ENTRIES_PER_L2_PAGE * (k + 1)) (k + 1) (pagesFor (k + 1))
        (pagesFor (k + 1))
        (s.l2ListPages (k / ENTRIES_PER_L2_PAGE)) (fillNext e frame k s) := by
  rw [rebuildLoop, if_pos (lt_pagesFor.mp hlt), pagesFor_succ, Nat.mul_succ]
  by_cases hnew : k % ENTRIES_PER_L2_PAGE = 0
  · simp only [hnew, pagesFor_of_mod_eq_zero hnew, fillNext, if_pos, Nat.not_lt.mpr hnum, if_false]
  · simp only [hnew, pagesFor_of_mod_ne_zero hnew, fillNext, if_false, hlist hnew]

theorem rebuildLoop_done {l1 l2 l3 i : Nat} (h : ¬l1 < maxmem) :
    rebuildLoop e frame maxmem l1 l2 l3 i l2List s = some s := by
  rw [rebuildLoop, if_neg h]

theorem rebuildLoop_filled (d : Nat) (hd : k + d = pagesFor maxmem)
    (hlaid : Laid s s.numL2Pages) (hnum : pagesFor (pagesFor maxmem) ≤ s.numL2Pages)
    (h : Filled e frame s k) (hlist : Holds s k l2List) :
    ∃ t, rebuildLoop e frame maxmem (ENTRIES_PER_L2_PAGE * k) k (pagesFor k) (pagesFor k) l2List s =
      some t ∧
      SamePages s t ∧ Filled e frame t (pagesFor maxmem) := by
  induction d generalizing k s l2List with
  | zero =>
    subst hd
    rw [rebuildLoop_done fun hlt => Nat.lt_irrefl _ (lt_pagesFor.mpr hlt)]
    exact ⟨s, rfl, ⟨rfl, rfl, rfl, rfl⟩, h⟩
  | succ d ih =>
    have hlt : k < pagesFor maxmem := by omega
    have hk := Nat.le_trans (div_lt_pagesFor hlt) hnum
    have hsame : SamePages s (fillNext e frame k s) := samePages_fillNext
    rw [rebuildLoop_step hlt hk hlist]
    obtain ⟨t, ht, hsame', hfilled⟩ :=
      ih (by omega) (hsame.num ▸ hsame.laid hlaid) (hsame.num ▸ hnum)
      (filled_fillNext h (hlaid.mono hk)) (hsame.pages ▸ holds_succ k)
    exact ⟨t, ht, hsame.trans hsame', hfilled⟩

def allocNext (e : Setting) (k : Nat) (s : State) : State :=
  if k % ENTRIES_PER_L2_PAGE = 0 then
    { s with
      allocated := s.allocated + 1
      l2ListPages := update s.l2ListPages (k / ENTRIES_PER_L2_PAGE) (e.supply s.allocated) }
  else s

theorem updateLoop_step (hlt : k < pagesFor maxmem)
    (hcap : k / ENTRIES_PER_L2_PAGE < MAX_L2_PAGES) (hnum : s.numL2Pages = 0)
    (hlist : Holds s k l2List) :
    updateLoop e frame maxmem (ENTRIES_PER_L2_PAGE * k) k (pagesFor k) (pagesFor k) l2List s =
      updateLoop e frame maxmem (ENTRIES_PER_L2_PAGE * (k + 1)) (k + 1) (pagesFor (k + 1))
        (pagesFor (k + 1))
        ((allocNext e k s).l2ListPages (k / ENTRIES_PER_L2_PAGE))
          (fillNext e frame k (allocNext e k s)) := by
  rw [updateLoop, if_pos (lt_pagesFor.mp hlt), pagesFor_succ, Nat.mul_succ]
  by_cases hnew : k % ENTRIES_PER_L2_PAGE = 0
  · simp only [hnew, pagesFor_of_mod_eq_zero hnew, newL2Page, hnum, Nat.zero_add,
      Nat.not_le.mpr hcap, fillNext, allocNext, if_pos, if_false, update_self]
  · simp only [hnew, pagesFor_of_mod_ne_zero hnew, fillNext, allocNext, if_false, hlist hnew]

theorem updateLoop_done {l1 l2 l3 i : Nat} (h : ¬l1 < maxmem) :
    updateLoop e frame maxmem l1 l2 l3 i l2List s =
      some { s with numL2Pages := s.numL2Pages + i } := by
  rw [updateLoop, if_neg h]

structure Shape (e : Setting) (a n : Nat) (s : State) : Prop where
  root : s.pfnToMfnTable = e.supply a
  pages : ∀ j < n, s.l2ListPages j = e.supply (a + 1 + j)

variable {a : Nat}

theorem Shape.laid (h : Shape e a n s) : Laid s n where
  notRoot j hj heq := by
    rw [h.pages j hj, h.root] at heq
    have := e.distinct heq
    omega
  inj i hi j hj heq := by
    rw [h.pages i hi, h.pages j hj] at heq
    have := e.distinct heq
    omega

theorem SamePages.shape (h : SamePages s t) (hs : Shape e a n s) : Shape e a n t where
  root := h.root.trans hs.root
  pages := by
    rw [h.pages]
    exact hs.pages

theorem filled_allocNext (h : Filled e frame s k) : Filled e frame (allocNext e k s) k := by
  unfold allocNext
  split
  case isTrue hnew =>
    intro j hj
    have hne : j / ENTRIES_PER_L2_PAGE ≠ k / ENTRIES_PER_L2_PAGE := by
      simp only [ENTRIES_PER_L2_PAGE, PAGE_SIZE] at hnew ⊢
      omega
    simp only [update_of_ne hne]
    exact h j hj
  case isFalse => exact h

theorem shape_allocNext (h : Shape e a (pagesFor k) s) (ha : s.allocated = a + 1 + pagesFor k) :
    Shape e a (pagesFor (k + 1)) (allocNext e k s) ∧
      (allocNext e k s).allocated = a + 1 + pagesFor (k + 1) := by
  rw [pagesFor_succ]
  unfold allocNext
  split
  case isTrue hnew =>
    rw [pagesFor_of_mod_eq_zero hnew] at h ha
    refine ⟨⟨h.root, fun j hj => ?_⟩, by rw [ha]; rfl⟩
    by_cases hj' : j = k / ENTRIES_PER_L2_PAGE
    · simp only [hj', update_self, ha]
    · simp only [update_of_ne hj']
      exact h.pages j (by omega)
  case isFalse hold =>
    rw [pagesFor_of_mod_ne_zero hold] at h ha
    exact ⟨h, ha⟩

structure SameRest (s t : State) : Prop where
  num : t.numL2Pages = s.numL2Pages
  maxmem : t.maxmemPfnTable = s.maxmemPfnTable
  frameListList : t.frameListList = s.frameListList

theorem SameRest.trans {u : State} (h : SameRest s t) (h' : SameRest t u) : SameRest s u where
  num := h'.num.trans h.num
  maxmem := h'.maxmem.trans h.maxmem
  frameListList := h'.frameListList.trans h.frameListList

theorem sameRest_step : SameRest s (fillNext e frame k (allocNext e k s)) := by
  simp only [fillNext, allocNext]
  split <;> exact ⟨rfl, rfl, rfl⟩

structure Building (e : Setting) (frame : Nat → Nat) (a k : Nat) (s : State) : Prop where
  shape : Shape e a (pagesFor k) s
  allocated : s.allocated = a + 1 + pagesFor k
  filled : Filled e frame s k

theorem building_step (h : Building e frame a k s) :
    Building e frame a (k + 1) (fillNext e frame k (allocNext e k s)) := by
  obtain ⟨hshape, halloc⟩ := shape_allocNext h.shape h.allocated
  refine ⟨samePages_fillNext.shape hshape, ?_, ?_⟩
  · rw [← halloc]
    simp only [fillNext]
    split <;> rfl
  · apply filled_fillNext (filled_allocNext h.filled)
    rw [← pagesFor_succ]
    exact hshape.laid

theorem updateLoop_building (d : Nat) (hd : k + d = pagesFor maxmem)
    (hcap : pagesFor (pagesFor maxmem) ≤ MAX_L2_PAGES) (hnum : s.numL2Pages = 0)
    (h : Building e frame a k s) (hlist : Holds s k l2List) :
    ∃ t, updateLoop e frame maxmem (ENTRIES_PER_L2_PAGE * k) k (pagesFor k) (pagesFor k) l2List s =
        some { t with numL2Pages := pagesFor (pagesFor maxmem) } ∧
      Building e frame a (pagesFor maxmem) t ∧ SameRest s t := by
  induction d generalizing k s l2List with
  | zero =>
    subst hd
    rw [updateLoop_done fun hlt => Nat.lt_irrefl _ (lt_pagesFor.mpr hlt), hnum, Nat.zero_add]
    exact ⟨s, rfl, h, ⟨rfl, rfl, rfl⟩⟩
  | succ d ih =>
    have hlt : k < pagesFor maxmem := by omega
    have hrest : SameRest s (fillNext e frame k (allocNext e k s)) := sameRest_step
    rw [updateLoop_step hlt (Nat.lt_of_lt_of_le (div_lt_pagesFor hlt) hcap) hnum hlist]
    obtain ⟨t, ht, hbuilt, hrest'⟩ := ih (by omega) (hrest.num.trans hnum) (building_step h)
      (samePages_fillNext.pages ▸ holds_succ k)
    exact ⟨t, ht, hbuilt, hrest.trans hrest'⟩

/-! ## The tree -/

structure Pages (e : Setting) (a maxmem : Nat) (s : State) : Prop where
  shape : Shape e a (pagesFor (pagesFor maxmem)) s
  num : s.numL2Pages = pagesFor (pagesFor maxmem)
  reserved : s.maxmemPfnTable = maxmem

structure Tree (e : Setting) (frame : Nat → Nat) (a maxmem : Nat) (s : State) : Prop
    extends Pages e a maxmem s where
  filled : Filled e frame s (pagesFor maxmem)
  frameListList : s.frameListList = frame s.pfnToMfnTable

theorem pagesFor_capacity (h : maxmem ≤ MAX_L2_PAGES * PFNS_PER_L3_PAGE) :
    pagesFor (pagesFor maxmem) ≤ MAX_L2_PAGES := by
  simp only [pagesFor, ENTRIES_PER_L2_PAGE, PAGE_SIZE, MAX_L2_PAGES, PFNS_PER_L3_PAGE] at h ⊢
  omega

theorem archInitP2m_tree (frame : Nat → Nat) (maxPfn : Nat)
    (hmax : maxmem ≤ MAX_L2_PAGES * PFNS_PER_L3_PAGE) :
    ∃ t, archInitP2m e frame maxPfn maxmem s = some t ∧ Tree e frame s.allocated maxmem t := by
  have hstart : Building e frame s.allocated 0 { s with
      numL2Pages := 0
      pfnToMfnTable := e.supply s.allocated
      allocated := s.allocated + 1
      frameListList := frame (e.supply s.allocated)
      maxPfnTable := 0
      maxmemPfnTable := maxmem } :=
    ⟨⟨rfl, fun j hj => absurd hj (Nat.not_lt_zero j)⟩, rfl, fun j hj =>
      absurd hj (Nat.not_lt_zero j)⟩
  have hlist : Holds s 0 0 := fun hmod => absurd (Nat.zero_mod _) hmod
  obtain ⟨t, ht, hbuilt, hrest⟩ :=
    updateLoop_building (pagesFor maxmem) (Nat.zero_add _) (pagesFor_capacity hmax) rfl hstart hlist
  refine ⟨{ t with
    numL2Pages := pagesFor (pagesFor maxmem), maxPfnTable := maxPfn, sharedMaxPfn := maxPfn }, ?_,
      ?_⟩
  · have hloop : updateLoop e frame maxmem 0 (0 / ENTRIES_PER_L2_PAGE) 0 0 0 _ = some _ := ht
    simp only [archInitP2m, archUpdateP2m, if_true, hloop, map_some]
    split <;> rfl
  · exact ⟨⟨⟨hbuilt.shape.root, hbuilt.shape.pages⟩, rfl, hrest.maxmem⟩, hbuilt.filled,
      hrest.frameListList.trans (congrArg frame hbuilt.shape.root.symm)⟩

theorem archRebuildP2m_tree (frame : Nat → Nat) (h : Pages e a maxmem s) :
    ∃ t, archRebuildP2m e frame s = some t ∧ Tree e frame a maxmem t := by
  have hlist : Holds s 0 0 := fun hmod => absurd (Nat.zero_mod _) hmod
  have hempty : Filled e frame s 0 := fun j hj => absurd hj (Nat.not_lt_zero j)
  obtain ⟨t, ht, hsame, hfilled⟩ :=
    rebuildLoop_filled (pagesFor maxmem) (Nat.zero_add _) (h.num ▸ h.shape.laid)
    (Nat.le_of_eq h.num.symm) hempty hlist
  refine ⟨{ t with frameListList := frame t.pfnToMfnTable, sharedMaxPfn := t.maxPfnTable }, ?_, ?_⟩
  · have hloop : rebuildLoop e frame maxmem 0 0 0 0 0 s = some t := ht
    simp only [archRebuildP2m, h.reserved, hloop, map_some]
  · have hshape := hsame.shape h.shape
    exact ⟨⟨⟨hshape.root, hshape.pages⟩, hsame.num.trans h.num, hsame.maxmem.trans h.reserved⟩,
      hfilled, rfl⟩

theorem mappingMfn_page (e : Setting) (frame : Nat → Nat) (pfn : Nat) :
    mappingMfn e frame (ENTRIES_PER_L2_PAGE * (pfn / ENTRIES_PER_L2_PAGE)) =
      virtToMfn frame (e.mapping + 8 * pfn) := by
  have haligned := e.aligned
  unfold mappingMfn virtToMfn
  congr 1
  simp only [ENTRIES_PER_L2_PAGE, PAGE_SIZE] at haligned ⊢
  omega

theorem div_PFNS_PER_L3_PAGE (pfn : Nat) :
    pfn / PFNS_PER_L3_PAGE = pfn / ENTRIES_PER_L2_PAGE / ENTRIES_PER_L2_PAGE := by
  rw [Nat.div_div_eq_div_mul]
  rfl

theorem Tree.correct (h : Tree e frame a maxmem s) : Correct e frame maxmem s := by
  intro machine hmachine pfn hpfn
  obtain ⟨hlist, hentry⟩ := h.filled _ (div_lt_pagesFor hpfn)
  unfold lookup
  rw [h.frameListList, hmachine, div_PFNS_PER_L3_PAGE, hlist, hmachine, hentry, mappingMfn_page]

theorem Tree.sameTree (h : Tree e frame a maxmem s) (h' : Tree e frame a maxmem t) :
    SameTree maxmem s t := by
  have hroot := h'.shape.root.trans h.shape.root.symm
  have hpages : ∀ pfn < maxmem,
      t.l2ListPages (pfn / PFNS_PER_L3_PAGE) = s.l2ListPages (pfn / PFNS_PER_L3_PAGE) := by
    intro pfn hpfn
    rw [div_PFNS_PER_L3_PAGE]
    have hlt := div_lt_pagesFor (div_lt_pagesFor hpfn)
    exact (h'.shape.pages _ hlt).trans (h.shape.pages _ hlt).symm
  refine ⟨⟨hroot, ?_⟩, fun pfn hpfn => ⟨hpages pfn hpfn, ?_⟩, fun pfn hpfn => ?_⟩
  · rw [h.frameListList, h'.frameListList, hroot]
  · have hlist := (h.filled _ (div_lt_pagesFor hpfn)).1
    have hlist' := (h'.filled _ (div_lt_pagesFor hpfn)).1
    rw [← div_PFNS_PER_L3_PAGE] at hlist hlist'
    rw [hlist, hlist', hpages pfn hpfn]
  · have hentry := (h.filled _ (div_lt_pagesFor hpfn)).2
    have hentry' := (h'.filled _ (div_lt_pagesFor hpfn)).2
    rw [← div_PFNS_PER_L3_PAGE] at hentry hentry'
    rw [hentry, hentry']

/-! ## Runs -/

inductive Label where
  | update (frame : Nat → Nat) (startPfn endPfn : Nat) (adding : Bool)
  | write (page index value : Nat)
  | resume (frameListList maxPfn : Nat)
  | rebuild (frame : Nat → Nat)

def step (e : Setting) (s : State) : Label → Option State
  | .update frame startPfn endPfn adding =>
    if adding ∧ startPfn = 0 then none else archUpdateP2m e frame startPfn endPfn adding s
  | .write page index value => some { s with mem := write s.mem page index value }
  | .resume frameListList maxPfn =>
      some { s with frameListList := frameListList, sharedMaxPfn := maxPfn }
  | .rebuild frame => archRebuildP2m e frame s

theorem Pages.of_samePages (h : Pages e a maxmem s) (hsame : SamePages s t) :
    Pages e a maxmem t where
  shape := hsame.shape h.shape
  num := hsame.num.trans h.num
  reserved := hsame.maxmem.trans h.reserved

theorem samePages_archUpdateP2m {startPfn endPfn : Nat} {adding : Bool}
    (hguard : ¬(adding = true ∧ startPfn = 0))
    (h : archUpdateP2m e frame startPfn endPfn adding s = some t) : SamePages s t := by
  cases adding with
  | true =>
    have hstart : startPfn ≠ 0 := fun hzero => hguard ⟨rfl, hzero⟩
    simp only [archUpdateP2m, if_true, if_neg hstart, map_some, some.injEq] at h
    subst h
    split <;> exact ⟨rfl, rfl, rfl, rfl⟩
  | false =>
    simp only [archUpdateP2m, Bool.false_eq_true, if_false, map_some, some.injEq] at h
    subst h
    split <;> exact ⟨rfl, rfl, rfl, rfl⟩

theorem pages_step {l : Label} (h : Pages e a maxmem s) (hs : step e s l = some t) :
    Pages e a maxmem t := by
  cases l with
  | update frame startPfn endPfn adding =>
    simp only [step] at hs
    split at hs
    · cases hs
    · next hguard => exact h.of_samePages (samePages_archUpdateP2m hguard hs)
  | write page index value | resume frameListList maxPfn =>
    obtain rfl := some.inj hs
    exact h.of_samePages ⟨rfl, rfl, rfl, rfl⟩
  | rebuild frame =>
    obtain ⟨u, hu, htree⟩ := archRebuildP2m_tree frame h
    obtain rfl := some.inj (hs.symm.trans hu)
    exact htree.toPages

/-- For a maximum reservation within the capacity `arch_init_p2m` returns with a tree in which
every lookup is right. Whatever happens to the pages later, `arch_rebuild_p2m` returns with such a
tree for the machine frames of that time, the one that `arch_init_p2m` would have built with them.
-/
theorem p2m_index (e : Setting) (s₀ : State) (maxPfn maxmem : Nat)
    (hmax : maxmem ≤ MAX_L2_PAGES * PFNS_PER_L3_PAGE) (frame : Nat → Nat) :
    ∃ s, archInitP2m e frame maxPfn maxmem s₀ = some s ∧ Correct e frame maxmem s ∧
      ∀ s', Reach (step e) anyStep (· = s) s' → ∀ frame' : Nat → Nat,
        ∃ t, archRebuildP2m e frame' s' = some t ∧ Correct e frame' maxmem t ∧
          ∃ u, archInitP2m e frame' maxPfn maxmem s₀ = some u ∧ SameTree maxmem u t := by
  obtain ⟨s, hs, htree⟩ := archInitP2m_tree frame maxPfn hmax
  refine ⟨s, hs, htree.correct, fun s' hreach frame' => ?_⟩
  have hpages : Pages e s₀.allocated maxmem s' := by
    refine Reach.invariant ?_ ?_ hreach
    · rintro _ rfl
      exact htree.toPages
    · intro s l t h _ hstep
      exact pages_step h hstep
  obtain ⟨t, ht, htree'⟩ := archRebuildP2m_tree frame' hpages
  obtain ⟨u, hu, hutree⟩ := archInitP2m_tree frame' maxPfn hmax
  exact ⟨t, ht, htree'.correct, u, hu, hutree.sameTree htree'⟩

def lowTable : Setting where
  mapping := 0x100000
  aligned := rfl
  supply n := 0x1000 + n
  distinct m n h := by
    simp only at h
    omega

def blank : State where
  mem _ _ := 0
  allocated := 0
  pfnToMfnTable := 0
  l2ListPages _ := 0
  numL2Pages := 0
  maxPfnTable := 0
  maxmemPfnTable := 0
  frameListList := 0
  sharedMaxPfn := 0

theorem p2m_index_two_lists : 300000 ≤ MAX_L2_PAGES * PFNS_PER_L3_PAGE ∧
    ∃ s, archInitP2m lowTable (· + 7) 65536 300000 blank = some s ∧
      Correct lowTable (· + 7) 300000 s ∧
      ∀ s', Reach (step lowTable) anyStep (· = s) s' → ∀ frame' : Nat → Nat,
        ∃ t, archRebuildP2m lowTable frame' s' = some t ∧ Correct lowTable frame' 300000 t ∧
          ∃ u, archInitP2m lowTable frame' 65536 300000 blank = some u ∧ SameTree 300000 u t :=
  ⟨by decide, p2m_index lowTable blank 65536 300000 (by decide) (· + 7)⟩

end Guk.P2m
