import Mathlib.Data.List.Basic
import Mathlib.Data.Nat.Basic

/-!
# Requests to a block device (`blk_front.c`)

`guk_blk_read` and `guk_blk_write` enter the pages of a buffer into a `blk_request`,
and `guk_blk_do_io` makes the segments of a ring request from them. The arrays of both
have room for `BLKIF_MAX_SEGMENTS_PER_REQUEST` entries; the indices that are written are
recorded, and an entry behind the end of an array keeps what was written to it.
-/
namespace Guk.BlkRequest

open Function List

def PAGE_SIZE : Nat := 4096
def SECTOR_SIZE : Nat := 512
def SECTORS_PER_PAGE : Nat := 8

def MAX_PAGES_PER_REQUEST : Nat := 11

inductive Operation where
  | read
  | write
  deriving DecidableEq, Repr

/-- `struct blk_request`, as far as it says what is read or written. -/
structure Request where
  pages : Nat → Nat
  numPages : Nat
  startSector : Int
  endSector : Int
  address : Nat
  operation : Operation

/-- The loop that enters the pages, with the indices it has written to. -/
structure Filling where
  pages : Nat → Nat
  size : Nat
  i : Nat
  written : List Nat

def enterPage (base : Nat) (f : Filling) : Filling :=
  { f with pages := update f.pages f.i (base + f.i * PAGE_SIZE), written := f.written ++ [f.i] }

def pageLoop (base : Nat) : Nat → Filling → Filling
  | 0, f => f
  | fuel + 1, f =>
    if PAGE_SIZE < f.size then
      pageLoop base fuel { enterPage base f with size := f.size - PAGE_SIZE, i := f.i + 1 }
    else f

def fillPages (pages : Nat → Nat) (base size : Nat) : Filling :=
  enterPage base (pageLoop base size ⟨pages, size, 0, []⟩)

def buildRequest (operation : Operation) (pages : Nat → Nat) (base size address : Nat) : Request :=
  let f := fillPages pages base size
  { pages := f.pages
    numPages := f.i + 1
    startSector := 0
    endSector := (f.size / SECTOR_SIZE : Nat) - 1
    address, operation }

/-- `struct blkif_request_segment` -/
structure Segment where
  gref : Nat
  firstSect : Nat
  lastSect : Nat
  deriving DecidableEq, Repr

/-- `struct blkif_request`, the request in a slot of the ring. -/
structure XenRequest where
  id : Nat
  seg : Nat → Segment
  nrSegments : Nat
  sectorNumber : Nat
  handle : Nat
  operation : Operation

def u8 (v : Int) : Nat := (v % 256).toNat

/-- The segments and grant references of a request, with the indices written to. -/
structure Segments where
  seg : Nat → Segment
  segWritten : List Nat
  grefWritten : List Nat

def middleSegment (pages : Nat → Nat) (g : Segments) (i : Nat) : Segments :=
  { seg := update g.seg i ⟨pages i, 0, SECTORS_PER_PAGE - 1⟩
    segWritten := g.segWritten ++ [i]
    grefWritten := g.grefWritten ++ [i] }

def fillSegments (seg : Nat → Segment) (req : Request) : Segments :=
  let first := u8 req.startSector
  if req.numPages = 1 then
    ⟨update seg 0 ⟨req.pages 0, first, u8 req.endSector⟩, [0], [0]⟩
  else
    let g : Segments := ⟨update seg 0 ⟨req.pages 0, first, SECTORS_PER_PAGE - 1⟩, [0], [0]⟩
    let g := (List.range' 1 (req.numPages - 1)).foldl (middleSegment req.pages) g
    -- the loop ends with `i = num_pages`
    let i := req.numPages
    { g with
      seg := update g.seg i { g.seg i with lastSect := u8 req.endSector }
      segWritten := g.segWritten ++ [i] }

def boundsCheck (sectors : Nat) (req : Request) : Bool :=
  (req.address / SECTOR_SIZE : Nat) + req.endSector ≤ sectors

def gukBlkDoIo (sectors id : Nat) (seg : Nat → Segment) (req : Request) :
    Option (XenRequest × Segments) :=
  if boundsCheck sectors req then
    let g := fillSegments seg req
    some ({
      id
      seg := g.seg
      nrSegments := req.numPages % 256
      sectorNumber := req.address / SECTOR_SIZE
      handle := 0x12
      operation := req.operation }, g)
  else none

def Segment.sectors (s : Segment) : List Nat :=
  (List.range' s.firstSect (s.lastSect + 1 - s.firstSect)).map fun k => s.gref + k * SECTOR_SIZE

def covered (x : XenRequest) : List Nat :=
  (List.range x.nrSegments).flatMap fun i => (x.seg i).sectors

def bufferSectors (base size : Nat) : List Nat :=
  (List.range (size / SECTOR_SIZE)).map fun k => base + k * SECTOR_SIZE

/-- The request stays inside its arrays, and its sectors are those of the buffer. -/
structure Describes (base size : Nat) (written : List Nat) (x : XenRequest) (g : Segments) :
    Prop where
  few : x.nrSegments ≤ MAX_PAGES_PER_REQUEST
  pages : ∀ i ∈ written, i < MAX_PAGES_PER_REQUEST
  seg : ∀ i ∈ g.segWritten, i < MAX_PAGES_PER_REQUEST
  gref : ∀ i ∈ g.grefWritten, i < MAX_PAGES_PER_REQUEST
  covers : covered x = bufferSectors base size

variable {operation : Operation} {pages : Nat → Nat} {seg : Nat → Segment}
  {base size address sectors id : Nat} {x : XenRequest} {g : Segments}

def lastPage (size : Nat) : Nat := (size - 1) / PAGE_SIZE

theorem lastPage_sub (h : PAGE_SIZE < size) : lastPage (size - PAGE_SIZE) + 1 = lastPage size := by
  unfold lastPage PAGE_SIZE at *
  omega

theorem lastPage_small (h : size ≤ PAGE_SIZE) : lastPage size = 0 := by
  unfold lastPage PAGE_SIZE at *
  omega

theorem pageLoop_spec (pages : Nat → Nat) (base fuel size i : Nat) (written : List Nat)
    (hfuel : size ≤ fuel) :
    let f := pageLoop base fuel ⟨pages, size, i, written⟩
    f.i = i + lastPage size ∧ f.size = size - lastPage size * PAGE_SIZE ∧
      f.written = written ++ List.range' i (lastPage size) ∧
      ∀ j, f.pages j = if i ≤ j ∧ j < i + lastPage size then base + j * PAGE_SIZE else pages j := by
  induction fuel generalizing pages size i written with
  | zero =>
    obtain rfl : size = 0 := by omega
    refine ⟨rfl, rfl, (append_nil _).symm, fun j => (if_neg ?_).symm⟩
    simp [lastPage]
  | succ fuel ih =>
    rw [pageLoop]
    by_cases hmore : PAGE_SIZE < size
    · rw [if_pos hmore]
      have hpage : 0 < PAGE_SIZE := by decide
      have hlast := lastPage_sub hmore
      obtain ⟨hi, hsize, hwritten, hpages⟩ := ih (update pages i (base + i * PAGE_SIZE))
        (size - PAGE_SIZE) (i + 1) (written ++ [i]) (by omega)
      refine ⟨?_, ?_, ?_, ?_⟩
      · rw [← hlast, ← Nat.add_assoc, Nat.add_right_comm]
        exact hi
      · refine hsize.trans ?_
        rw [← hlast, Nat.add_mul, Nat.one_mul, Nat.sub_sub, Nat.add_comm]
      · rw [← hlast, range'_succ, ← singleton_append, ← append_assoc]
        exact hwritten
      · intro j
        refine (hpages j).trans ?_
        by_cases hj : j = i
        · rw [if_neg (by omega), if_pos (by omega), hj, update_self]
        · rw [update_of_ne hj]
          by_cases hin : i ≤ j ∧ j < i + lastPage size
          · rw [if_pos hin, if_pos (by omega)]
          · rw [if_neg hin, if_neg (by omega)]
    · rw [if_neg hmore, lastPage_small (not_lt.mp hmore)]
      refine ⟨rfl, ?_, (append_nil _).symm, fun j => (if_neg (by omega)).symm⟩
      rw [Nat.zero_mul, Nat.sub_zero]

theorem fillPages_spec (pages : Nat → Nat) (base size : Nat) :
    (fillPages pages base size).i = lastPage size ∧
      (fillPages pages base size).size = size - lastPage size * PAGE_SIZE ∧
      (fillPages pages base size).written = List.range (lastPage size + 1) ∧
      ∀ j ≤ lastPage size, (fillPages pages base size).pages j = base + j * PAGE_SIZE := by
  obtain ⟨hi, hsize, hwritten, hpages⟩ :=
    pageLoop_spec pages base size size 0 [] (le_refl size)
  rw [Nat.zero_add] at hi
  refine ⟨hi, hsize, ?_, ?_⟩
  · simp only [fillPages, enterPage]
    rw [hwritten, hi, nil_append, ← range_eq_range', ← range_succ]
  · intro j hj
    simp only [fillPages, enterPage]
    rw [hi]
    by_cases hjl : j = lastPage size
    · rw [hjl, update_self]
    · rw [update_of_ne hjl, hpages, if_pos (by omega)]

theorem foldl_middleSegment (pages : Nat → Nat) (l : List Nat) (g : Segments) :
    let t := l.foldl (middleSegment pages) g
    t.segWritten = g.segWritten ++ l ∧ t.grefWritten = g.grefWritten ++ l ∧
      ∀ j, t.seg j = if j ∈ l then ⟨pages j, 0, SECTORS_PER_PAGE - 1⟩ else g.seg j := by
  induction l generalizing g with
  | nil => simp
  | cons i l ih =>
    obtain ⟨hseg, hgref, hentry⟩ := ih (middleSegment pages g i)
    refine ⟨?_, ?_, ?_⟩
    · rw [foldl_cons, hseg, ← singleton_append, ← append_assoc]
      rfl
    · rw [foldl_cons, hgref, ← singleton_append, ← append_assoc]
      rfl
    · intro j
      rw [foldl_cons, hentry]
      by_cases hj : j ∈ l
      · rw [if_pos hj, if_pos (mem_cons_of_mem i hj)]
      · rw [if_neg hj]
        by_cases hji : j = i
        · rw [hji, if_pos mem_cons_self]
          exact update_self ..
        · rw [if_neg (by simp [hji, hj])]
          exact update_of_ne hji ..

/-! ## What is submitted -/

def submit (operation : Operation) (pages : Nat → Nat) (seg : Nat → Segment)
    (base size address sectors id : Nat) : Option (XenRequest × Segments) :=
  gukBlkDoIo sectors id seg (buildRequest operation pages base size address)

theorem endSector_eq : (buildRequest operation pages base size address).endSector =
    ((size - lastPage size * PAGE_SIZE) / SECTOR_SIZE : Nat) - 1 := by
  simp only [buildRequest, (fillPages_spec pages base size).2.1]

theorem numPages_eq :
    (buildRequest operation pages base size address).numPages = lastPage size + 1 := by
  simp only [buildRequest, (fillPages_spec pages base size).1]

theorem submit_some (h : submit operation pages seg base size address sectors id = some (x, g)) :
    boundsCheck sectors (buildRequest operation pages base size address) = true ∧
      g = fillSegments seg (buildRequest operation pages base size address) ∧
      x.seg = g.seg ∧ x.nrSegments = (lastPage size + 1) % 256 ∧
        x.sectorNumber = address / SECTOR_SIZE := by
  obtain ⟨hcheck, h⟩ := Option.ite_none_right_eq_some.mp h
  cases h
  exact ⟨hcheck, rfl, rfl, by rw [numPages_eq], rfl⟩

theorem fillSegments_one (operation : Operation) (pages : Nat → Nat) (seg : Nat → Segment)
    (base address : Nat) (hone : lastPage size = 0) :
    let g := fillSegments seg (buildRequest operation pages base size address)
    g.segWritten = [0] ∧ g.grefWritten = [0] ∧
      g.seg 0 = ⟨base, 0, u8 ((size / SECTOR_SIZE : Nat) - 1)⟩ := by
  have hpage : (buildRequest operation pages base size address).pages 0 = base := by
    have := (fillPages_spec pages base size).2.2.2 0 (Nat.zero_le _)
    rwa [Nat.zero_mul, Nat.add_zero] at this
  unfold fillSegments
  rw [numPages_eq, hone, if_pos rfl, hpage, endSector_eq, hone, Nat.zero_mul, Nat.sub_zero]
  refine ⟨rfl, rfl, ?_⟩
  simp only [update_self]
  rfl

theorem fillSegments_many (operation : Operation) (pages : Nat → Nat) (seg : Nat → Segment)
    (base address : Nat) (hmany : 0 < lastPage size) :
    let g := fillSegments seg (buildRequest operation pages base size address)
    g.segWritten = List.range (lastPage size + 2) ∧ g.grefWritten = List.range (lastPage size + 1) ∧
      ∀ j ≤ lastPage size, g.seg j = ⟨base + j * PAGE_SIZE, 0, SECTORS_PER_PAGE - 1⟩ := by
  have hpages : ∀ j ≤ lastPage size,
      (buildRequest operation pages base size address).pages j = base + j * PAGE_SIZE :=
    (fillPages_spec pages base size).2.2.2
  have hrange : 0 :: List.range' 1 (lastPage size) = List.range (lastPage size + 1) := by
    rw [range_eq_range', range'_succ]
  unfold fillSegments
  rw [numPages_eq, if_neg (by omega), Nat.add_sub_cancel]
  obtain ⟨hseg, hgref, hentry⟩ := foldl_middleSegment
    (buildRequest operation pages base size address).pages (List.range' 1 (lastPage size))
    ⟨update seg 0 ⟨(buildRequest operation pages base size address).pages 0,
      u8 (buildRequest operation pages base size address).startSector, SECTORS_PER_PAGE - 1⟩, [0],
        [0]⟩
  refine ⟨?_, ?_, ?_⟩
  · simp only [hseg]
    rw [singleton_append, hrange, ← range_succ]
  · simp only [hgref]
    rw [singleton_append, hrange]
  · intro j hj
    simp only
    rw [update_of_ne (by omega), hentry]
    by_cases hj0 : j = 0
    · rw [if_neg (by simp [hj0]), hj0]
      simp only [update_self]
      rw [hpages 0 (Nat.zero_le _)]
      rfl
    · rw [if_pos (mem_range'_1.mpr (by omega)), hpages j hj]

/-! ## The sectors of a request -/

theorem range_pages {α : Type} (f : Nat → α) (n : Nat) :
    (List.range n).flatMap (fun i => (List.range SECTORS_PER_PAGE).map fun k =>
      f (i * SECTORS_PER_PAGE + k)) =
      (List.range (n * SECTORS_PER_PAGE)).map f := by
  induction n with
  | zero => simp
  | succ n ih =>
    rw [range_succ, flatMap_append, ih, Nat.add_mul, Nat.one_mul, range_add]
    simp [Function.comp_def]

theorem wholePage_sectors (page : Nat) : Segment.sectors ⟨page, 0, SECTORS_PER_PAGE - 1⟩ =
    (List.range SECTORS_PER_PAGE).map fun k => page + k * SECTOR_SIZE := by
  rw [range_eq_range']
  rfl

theorem length_bufferSectors : (bufferSectors base size).length = size / SECTOR_SIZE := by
  simp [bufferSectors]

theorem lt_max_of_range {entries : List Nat} {k : Nat} (h : entries = List.range k)
    (hk : k ≤ MAX_PAGES_PER_REQUEST) : ∀ i ∈ entries, i < MAX_PAGES_PER_REQUEST := by
  rw [h]
  exact fun i hi => lt_of_lt_of_le (List.mem_range.mp hi) hk

def reach (size : Nat) : Nat :=
  if size ≤ PAGE_SIZE then size / SECTOR_SIZE else (lastPage size + 1) % 256 * SECTORS_PER_PAGE

section Submitted

variable (h : submit operation pages seg base size address sectors id = some (x, g))
include h

theorem covered_many (hmany : 0 < lastPage size) : covered x =
      (List.range ((lastPage size + 1) % 256 * SECTORS_PER_PAGE)).map fun k =>
        base + k * SECTOR_SIZE := by
  obtain ⟨-, rfl, hseg, hnr, -⟩ := submit_some h
  obtain ⟨-, -, hentry⟩ := fillSegments_many operation pages seg base address hmany
  rw [covered, hnr, ← range_pages fun k => base + k * SECTOR_SIZE]
  apply flatMap_congr
  intro i hi
  have hle : i ≤ lastPage size := by
    have := List.mem_range.mp hi
    have := Nat.mod_le (lastPage size + 1) 256
    omega
  rw [hseg, hentry i hle, wholePage_sectors]
  apply map_congr_left
  intro k _
  unfold PAGE_SIZE SECTORS_PER_PAGE SECTOR_SIZE
  omega

theorem covered_one (hle : size ≤ PAGE_SIZE) (hpos : SECTOR_SIZE ≤ size) :
    covered x = bufferSectors base size := by
  have hone := lastPage_small hle
  obtain ⟨-, rfl, hseg, hnr, -⟩ := submit_some h
  obtain ⟨-, -, hentry⟩ := fillSegments_one operation pages seg base address hone
  have hlast : u8 ((size / SECTOR_SIZE : Nat) - 1) = size / SECTOR_SIZE - 1 := by
    unfold u8 PAGE_SIZE SECTOR_SIZE at *
    omega
  have hcount : size / SECTOR_SIZE - 1 + 1 = size / SECTOR_SIZE := by
    unfold SECTOR_SIZE at *
    omega
  rw [covered, hnr, hone]
  change (List.range 1).flatMap _ = _
  rw [range_one, flatMap_singleton, hseg, hentry, hlast, bufferSectors, range_eq_range',
    Segment.sectors]
  simp only [hcount, Nat.sub_zero]

theorem describes_one (hpos : 0 < size) (hsize : SECTOR_SIZE ∣ size) (hle : size ≤ PAGE_SIZE) :
    Describes base size (fillPages pages base size).written x g := by
  have hwritten := (fillPages_spec pages base size).2.2.1
  obtain ⟨-, hg, -, hnr, -⟩ := submit_some h
  have hone := lastPage_small hle
  obtain ⟨hseg, hgref, -⟩ := fillSegments_one operation pages seg base address hone
  refine ⟨?_, ?_, ?_, ?_, covered_one h hle (Nat.le_of_dvd hpos hsize)⟩
  · rw [hnr, hone]
    decide
  · rw [hwritten, hone]
    decide
  · rw [hg, hseg]
    decide
  · rw [hg, hgref]
    decide

theorem describes_many_iff (hsize : SECTOR_SIZE ∣ size) (hmore : ¬ size ≤ PAGE_SIZE) :
    Describes base size (fillPages pages base size).written x g ↔ PAGE_SIZE ∣ size ∧
      size ≤ 10 * PAGE_SIZE := by
  have hwritten := (fillPages_spec pages base size).2.2.1
  obtain ⟨-, hg, -, hnr, -⟩ := submit_some h
  have hmany : 0 < lastPage size := by
    unfold lastPage PAGE_SIZE at *
    omega
  obtain ⟨hseg, hgref, -⟩ := fillSegments_many operation pages seg base address hmany
  have hcovered := covered_many h hmany
  rw [← hg] at hseg hgref
  constructor
  · intro hd
    -- the entry behind the last segment is the one that goes furthest
    have hlast : lastPage size + 1 < MAX_PAGES_PER_REQUEST := by
      apply hd.seg
      rw [hseg, mem_range]
      omega
    have hlength : (lastPage size + 1) % 256 * SECTORS_PER_PAGE = size / SECTOR_SIZE := by
      have := congrArg List.length (hcovered.symm.trans hd.covers)
      rwa [length_map, length_range, length_bufferSectors] at this
    unfold lastPage MAX_PAGES_PER_REQUEST SECTORS_PER_PAGE SECTOR_SIZE PAGE_SIZE at *
    omega
  · rintro ⟨hdvd, hten⟩
    have hlast : lastPage size + 1 ≤ 10 ∧
        (lastPage size + 1) * SECTORS_PER_PAGE = size / SECTOR_SIZE := by
      unfold lastPage SECTORS_PER_PAGE SECTOR_SIZE PAGE_SIZE at *
      omega
    have hmod : (lastPage size + 1) % 256 = lastPage size + 1 := by omega
    have hmax := Nat.succ_le_succ hlast.1
    refine ⟨?_, ?_, ?_, ?_, ?_⟩
    · rw [hnr, hmod]
      exact Nat.le_of_succ_le hmax
    · exact lt_max_of_range hwritten (Nat.le_of_succ_le hmax)
    · exact lt_max_of_range hseg hmax
    · exact lt_max_of_range hgref (Nat.le_of_succ_le hmax)
    · rw [hcovered, hmod, hlast.2]
      rfl

theorem covered_eq (hpos : 0 < size) (hsize : SECTOR_SIZE ∣ size) :
    covered x = (List.range (reach size)).map fun k => base + k * SECTOR_SIZE := by
  unfold reach
  split
  case isTrue hle => exact covered_one h hle (Nat.le_of_dvd hpos hsize)
  case isFalse hle =>
    have hmany : 0 < lastPage size := by
      unfold lastPage PAGE_SIZE at *
      omega
    exact covered_many h hmany

theorem length_covered (hpos : 0 < size) (hsize : SECTOR_SIZE ∣ size) :
    (covered x).length = reach size := by
  rw [covered_eq h hpos hsize, length_map, length_range]

end Submitted

/-- A request describes its buffer if and only if it has one page, or up to ten that are all used
to their end. -/
theorem request_describes_iff (operation : Operation) (pages : Nat → Nat) (seg : Nat → Segment)
    (base size address sectors id : Nat) (hpos : 0 < size) (hsize : SECTOR_SIZE ∣ size)
    (x : XenRequest) (g : Segments)
    (h : submit operation pages seg base size address sectors id = some (x, g)) :
    Describes base size (fillPages pages base size).written x g ↔
      size ≤ PAGE_SIZE ∨ (PAGE_SIZE ∣ size ∧ size ≤ 10 * PAGE_SIZE) := by
  by_cases hle : size ≤ PAGE_SIZE
  · exact iff_of_true (describes_one h hpos hsize hle) (.inl hle)
  · rw [describes_many_iff h hsize hle, or_iff_right hle]

def noSegments : Nat → Segment := fun _ => ⟨0, 0, 0⟩

theorem request_describes_two_pages : ∃ x g,
    submit .write (fun _ => 0) noSegments 0x10000 8192 512 100 1 = some (x, g) ∧
      Describes 0x10000 8192 (fillPages (fun _ => 0) 0x10000 8192).written x g := by
  obtain ⟨⟨x, g⟩, h⟩ := Option.isSome_iff_exists.mp
    (show (submit .write (fun _ => 0) noSegments 0x10000 8192 512 100 1).isSome =
      true by decide +kernel)
  refine ⟨x, g, h,
    (request_describes_iff .write (fun _ => 0) noSegments 0x10000 8192 512 100 1 (by decide)
    (by decide) x g h).mpr ?_⟩
  exact .inr ⟨by decide, by decide⟩

theorem request_not_describing : ∃ x g,
    submit .write (fun _ => 0) noSegments 0x10000 4608 512 100 1 = some (x, g) ∧
      ¬ Describes 0x10000 4608 (fillPages (fun _ => 0) 0x10000 4608).written x g := by
  refine ⟨_, _, rfl, ?_⟩
  intro h
  have hlength := congrArg List.length h.covers
  exact absurd hlength (by decide +kernel)

def deviceSectors (x : XenRequest) : List Nat :=
  (List.range (covered x).length).map fun k => x.sectorNumber + k

/-- Only sectors of the device are asked for, and a request that fits on it is submitted. -/
structure StaysOnDevice (sectors size address : Nat) (r : Option (XenRequest × Segments)) :
    Prop where
  sound : ∀ x g, r = some (x, g) → ∀ d ∈ deviceSectors x, d < sectors
  complete : address / SECTOR_SIZE + size / SECTOR_SIZE ≤ sectors → r.isSome = true

theorem boundsCheck_iff (operation : Operation) (pages : Nat → Nat) (base address sectors : Nat)
    (hpos : 0 < size) (hsize : SECTOR_SIZE ∣ size) :
    boundsCheck sectors (buildRequest operation pages base size address) = true ↔
      address / SECTOR_SIZE + (size / SECTOR_SIZE - 1) % SECTORS_PER_PAGE ≤ sectors := by
  have haddress : (buildRequest operation pages base size address).address = address := rfl
  rw [boundsCheck, decide_eq_true_iff, endSector_eq, haddress]
  unfold lastPage PAGE_SIZE SECTOR_SIZE SECTORS_PER_PAGE at *
  omega

/-- No request goes over the end of the device and none that fits is refused, if and only if the
check stops the request, or it is on the device with all the sectors it goes over. -/
theorem request_on_device_iff (operation : Operation) (pages : Nat → Nat) (seg : Nat → Segment)
    (base size address sectors id : Nat) (hpos : 0 < size) (hsize : SECTOR_SIZE ∣ size) :
    StaysOnDevice sectors size address (submit operation pages seg base size address sectors id) ↔
      sectors < address / SECTOR_SIZE + (size / SECTOR_SIZE - 1) % SECTORS_PER_PAGE ∨
        address / SECTOR_SIZE + reach size ≤ sectors := by
  have hcheck := boundsCheck_iff operation pages base address sectors hpos hsize
  constructor
  · intro h
    by_cases hpass : address / SECTOR_SIZE + (size / SECTOR_SIZE - 1) % SECTORS_PER_PAGE ≤ sectors
    · refine .inr ?_
      have hsome : (submit operation pages seg base size address sectors id).isSome = true := by
        rw [submit, gukBlkDoIo, if_pos (hcheck.mpr hpass)]
        rfl
      obtain ⟨⟨x, g⟩, hx⟩ := Option.isSome_iff_exists.mp hsome
      by_contra hover
      have hlast : address / SECTOR_SIZE + (reach size - 1) ∈ deviceSectors x := by
        apply List.mem_map.mpr
        refine ⟨reach size - 1, ?_, by rw [(submit_some hx).2.2.2.2]⟩
        rw [mem_range, length_covered hx hpos hsize]
        omega
      have := h.sound x g hx _ hlast
      omega
    · exact .inl (not_le.mp hpass)
  · intro h
    constructor
    · intro x g hx d hd
      have hpass := hcheck.mp (submit_some hx).1
      have hreach := h.resolve_left (not_lt.mpr hpass)
      obtain ⟨k, hk, rfl⟩ := List.mem_map.mp hd
      rw [mem_range, length_covered hx hpos hsize] at hk
      rw [(submit_some hx).2.2.2.2]
      omega
    · intro hon
      have hle := Nat.mod_le (size / SECTOR_SIZE - 1) SECTORS_PER_PAGE
      have hone := Nat.div_pos (Nat.le_of_dvd hpos hsize) (by decide)
      rw [submit, gukBlkDoIo, if_pos (hcheck.mpr (by omega))]
      rfl

theorem request_on_device_last_sector :
    StaysOnDevice 100 512 50688 (submit .read (fun _ => 0) noSegments 0x10000 512 50688 100 1) :=
  (request_on_device_iff .read (fun _ => 0) noSegments 0x10000 512 50688 100 1 (by decide)
    (by decide)).mpr
    (.inr (by decide))

theorem request_off_device :
    ¬ StaysOnDevice 100 512 51200
      (submit .read (fun _ => 0) noSegments 0x10000 512 51200 100 1) := by
  intro h
  exact absurd (h.sound _ _ rfl 100 (by decide +kernel)) (by decide)

end Guk.BlkRequest
