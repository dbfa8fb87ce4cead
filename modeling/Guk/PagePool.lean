import Guk.Bitmap

/-!
# The page pool (`mm.c`)

The allocator of physical pages. Pages below `first_bulk_page` are for small requests,
those above for requests of `BULK_ALLOCATION` pages and more; small requests fall over
to the bulk region. Memory can be given back to Xen and obtained again: the pages that
Xen has back are holes, kept in `memory_hole_list`.

Every function here is the code between taking and releasing `bitmap_lock`. What is
called with the lock released is at the end of the module, composed in the way one
thread runs it without interference.
-/
namespace Guk.PagePool

open Bitmap

def BULK_ALLOCATION : Nat := 512
def BITS_PER_PAGE : Nat := 4096 * 8
def DEFAULT_SMALL_PERCENTAGE : Nat := 2

def isBulk (n : Nat) : Bool := BULK_ALLOCATION ≤ n

structure Hole where
  id : Nat
  startPfn : Nat
  endPfn : Nat
  deriving DecidableEq, Repr

def Hole.size (h : Hole) : Nat := h.endPfn - h.startPfn

/-- The static variables of `mm.c`, and `max_pfn_table` of `p2m.c`. Not in the code: `live`, the
allocations that have not been freed (start page and number of pages; the pages of the heap and of
page tables are among them), `leaked`, the hole records that were taken off the list, `gained` and
`released`, the numbers of pages that came from Xen and went back to it since the start, and
`nextId` for the address of the next record. -/
structure Pool where
  allocBitmap : Map
  firstAllocPage : Nat
  endAllocPage : Nat
  maxEndAllocPage : Nat
  firstFreePage : Nat
  firstBulkPage : Nat
  firstFreeBulkPage : Nat
  numFreePages : Nat
  numFreeBulkPages : Nat
  memoryHoleList : List Hole
  inIncreaseMemory : Bool
  maxPfnTable : Nat
  live : List (Nat × Nat)
  leaked : List Hole
  gained : Nat
  released : Nat
  nextId : Nat

variable (s : Pool)

def allocated (page : Nat) : Bool := allocatedInMap s.allocBitmap page

def add64 (a b : Nat) : Nat := (a + b) % 2 ^ 64
def sub64 (a b : Nat) : Nat := (a + (2 ^ 64 - b % 2 ^ 64)) % 2 ^ 64

/-! ## Allocation -/

def asInt (page : Nat) : Nat :=
  if page % 2 ^ 32 < 2 ^ 31 then page % 2 ^ 32 else page % 2 ^ 32 + (2 ^ 64 - 2 ^ 32)

def nextFreeLoop : Nat → Nat → Nat
  | 0, page => page
  | fuel + 1, page =>
    if page < s.endAllocPage then
      if !allocated s page then page else nextFreeLoop fuel (asInt (page + 1))
    else page

def nextFree (page : Nat) : Nat := nextFreeLoop s s.endAllocPage (asInt page)

def freeRun (endPage : Nat) : Nat → Nat → Nat → Nat × Option Nat
  | 0, nn, _ => (nn, none)
  | fuel + 1, nn, npage =>
    if 1 < nn ∧ npage < endPage then
      if !allocated s npage then freeRun endPage fuel (nn - 1) (npage + 1) else (nn, some npage)
    else (nn, none)

def searchLoop (endPage n : Nat) : Nat → Nat → Option Nat
  | 0, _ => none
  | fuel + 1, page =>
    if page < endPage then
      if !allocated s page then
        let (nn, stop) := freeRun s endPage n n (page + 1)
        if nn = 1 then some page else searchLoop endPage n fuel (stop.getD page + 1)
      else searchLoop endPage n fuel (page + 1)
    else none

def search (isBulkAlloc : Bool) (n : Nat) : Option Nat :=
  let endPage := if isBulkAlloc then s.endAllocPage else s.firstBulkPage
  let page := if isBulkAlloc then s.firstFreeBulkPage else s.firstFreePage
  searchLoop s endPage n (endPage - page) page

def takeFound (isBulkAlloc : Bool) (page n : Nat) : Pool :=
  let t :=
    if isBulkAlloc then
      { s with
        numFreeBulkPages := sub64 s.numFreeBulkPages n
        firstFreeBulkPage :=
          if page = s.firstFreeBulkPage then nextFree s (page + n) else s.firstFreeBulkPage }
    else
      { s with
        firstFreePage := if page = s.firstFreePage then nextFree s (page + n) else s.firstFreePage }
  { t with
    numFreePages := sub64 t.numFreePages n
    allocBitmap := mapAlloc t.allocBitmap page n }

def deallocateLocked (page n : Nat) : Pool :=
  let t :=
    if isBulk n then
      { s with
        firstFreeBulkPage := if page < s.firstFreeBulkPage then page else s.firstFreeBulkPage
        numFreeBulkPages := add64 s.numFreeBulkPages n }
    else { s with firstFreePage := if page < s.firstFreePage then page else s.firstFreePage }
  { t with allocBitmap := mapFree t.allocBitmap page n }

def gukDeallocatePages (page n : Nat) : Pool :=
  let t := deallocateLocked s page n
  { t with numFreePages := add64 t.numFreePages n }

/-! Both with the record that is kept of them. -/

def take (isBulkAlloc : Bool) (page n : Nat) : Pool :=
  { takeFound s isBulkAlloc page n with live := (page, n) :: s.live }

def giveBack (page n : Nat) : Pool :=
  { gukDeallocatePages s page n with live := s.live.erase (page, n) }

/-! ## Holes -/

def canIncrease : List Hole → Nat → Nat
  | [], _ => 0
  | h :: holes, n => if n ≤ h.size then n else canIncrease holes (n - h.size)

def archUpdateP2m (maxPfnTable startPfn endPfn : Nat) (adding : Bool) : Nat :=
  if adding then if maxPfnTable < endPfn then endPfn else maxPfnTable
  else if endPfn = maxPfnTable then startPfn else maxPfnTable

def addPages (hole : Hole) (holeSize rc : Nat) : Pool :=
  let start := hole.startPfn
  { s with
    allocBitmap := mapFree s.allocBitmap start rc
    endAllocPage := if s.endAllocPage < start + rc then start + rc else s.endAllocPage
    numFreePages := add64 s.numFreePages rc
    numFreeBulkPages := add64 s.numFreeBulkPages rc
    memoryHoleList :=
      if holeSize = rc then s.memoryHoleList.erase hole
      else s.memoryHoleList.map fun h => if h = hole then { h with startPfn := start + rc } else h
    maxPfnTable := archUpdateP2m s.maxPfnTable start (start + rc) true }

def recordIncrease (hole : Hole) (holeSize rc : Nat) : Pool :=
  { addPages s hole holeSize rc with
    leaked := if holeSize = rc then hole :: s.leaked else s.leaked
    gained := s.gained + rc }

def memoryHoleAdd (new : Hole) : List Hole → List Hole
  | [] => [new]
  | h :: holes => if new.startPfn < h.startPfn then new :: h :: holes else h :: memoryHoleAdd new
      holes

def freeRunDown (n : Nat) : Nat → Nat → Nat → Nat × Nat
  | 0, page, nn => (page, nn)
  | fuel + 1, page, nn =>
    if !allocated s page ∧ s.firstBulkPage ≤ page ∧ nn < n then
      freeRunDown n fuel (page - 1) (nn + 1)
    else (page, nn)

def coalesces (hole : Hole) : Bool :=
  match s.memoryHoleList with
  | [] => false
  | head :: _ => hole.endPfn = head.startPfn

def removePages (hole : Hole) : Pool :=
  let rc := hole.size
  { s with
    numFreePages := sub64 s.numFreePages rc
    numFreeBulkPages := sub64 s.numFreeBulkPages rc
    endAllocPage := if s.endAllocPage = hole.endPfn then s.endAllocPage - rc else s.endAllocPage
    allocBitmap := mapAlloc s.allocBitmap hole.startPfn rc
    memoryHoleList :=
      match s.memoryHoleList with
      | [] => [hole]
      | head :: holes =>
        if hole.endPfn ≠ head.startPfn then memoryHoleAdd hole (head :: holes)
        else { head with startPfn := hole.startPfn } :: holes
    maxPfnTable := archUpdateP2m s.maxPfnTable hole.startPfn hole.endPfn false }

def recordDecrease (hole : Hole) : Pool :=
  { removePages s hole with released := s.released + hole.size }

def gukCurrentReservation : Nat :=
  sub64 s.maxEndAllocPage (s.memoryHoleList.foldl (fun result h => add64 result h.size) 0)

/-! ## Operations of one thread without interference -/

structure Answer where
  populated : Nat
  frames : Nat

abbrev Xen := Nat → Answer

def Xen.rest (xen : Xen) : Xen := fun k => xen (k + 1)

/-- `_allocate_pages(1)` for a page table frame, called with `in_increase_memory` set: a recursive
entry of `increase_memory_holding_lock` resets the flag and finds nothing. -/
def allocateFrame : Pool × Bool :=
  match search s false 1 with
  | some page => (take s false page 1, true)
  | none =>
    match search s true 1 with
    | some page => (take s true page 1, true)
    | none => ({ s with inIncreaseMemory := false }, false)

def allocateFrames (s : Pool) : Nat → Pool × Bool
  | 0 => (s, true)
  | k + 1 =>
    match allocateFrame s with
    | (t, true) => allocateFrames t k
    | (t, false) => (t, false)

def increaseReservation (nrPages : Nat) (answer : Answer) : Pool × Nat :=
  let rc := min answer.populated nrPages
  if rc = 0 then (s, 0)
  else
    match allocateFrames s answer.frames with
    | (t, true) => (t, rc)
    | (t, false) => (t, 0)

def increaseLoop : Nat → Pool → Nat → Nat → Xen → Pool × Nat × Xen
  | 0, s, _, result, xen => (s, result, xen)
  | fuel + 1, s, n, result, xen =>
    if n = 0 then (s, result, xen)
    else
      match s.memoryHoleList with
      | [] => (s, result, xen)
      | hole :: _ =>
        let holeSize := hole.size
        let nn := if holeSize ≤ n then holeSize else n
        let (t, rc) := increaseReservation s nn (xen 0)
        if rc = 0 then (t, result, xen.rest)
        else increaseLoop fuel (recordIncrease t hole holeSize rc) (n - rc) (result + rc) xen.rest

def increaseMemory (n : Nat) (xen : Xen) : Pool × Nat × Xen :=
  if s.inIncreaseMemory then ({ s with inIncreaseMemory := false }, 0, xen)
  else
    let s := { s with inIncreaseMemory := true }
    let (t, result, xen) :=
      if canIncrease s.memoryHoleList n ≠ 0 then increaseLoop n s n 0 xen else (s, 0, xen)
    ({ t with inIncreaseMemory := false }, result, xen)

def allocateLoop (n : Nat) : Nat → Pool → Bool → Xen → Option (Pool × Option Nat)
  | 0, _, _, _ => none
  | fuel + 1, s, isBulkAlloc, xen =>
    match search s isBulkAlloc n with
    | some page => some (take s isBulkAlloc page n, some page)
    | none =>
      if !isBulkAlloc then allocateLoop n fuel s true xen
      else
        let (t, result, xen) := increaseMemory s n xen
        if result = 0 then some (t, none) else allocateLoop n fuel t true xen

def holePages : List Hole → Nat
  | [] => 0
  | h :: holes => h.size + holePages holes

def allocatePages (n : Nat) (xen : Xen) : Option (Pool × Option Nat) :=
  allocateLoop n (holePages s.memoryHoleList + 3) s (isBulk n) xen

def gukIncreasePagePool (n : Nat) (xen : Xen) : Pool × Nat :=
  let (t, result, _) := increaseMemory s n xen
  (t, result)

/-- `xmalloc(memory_hole_t)`. If there is no room in the pages of the heap, it takes another page,
and the write to the record goes to `NULL` if there is none. -/
def xmallocRecord (newPage : Bool) (xen : Xen) : Option (Pool × Option Nat) :=
  if newPage then
    match allocatePages s 1 xen with
    | some (t, some page) => some (t, some page)
    | _ => none
  else some (s, none)

def unlockedFree (page : Option Nat) : Pool :=
  match page with
  | some page => giveBack s page 1
  | none => s

structure Decrease where
  page : Nat
  n : Nat
  rc : Nat
  deriving DecidableEq

def Decrease.more (d : Decrease) : Bool := s.firstBulkPage ≤ d.page ∧ 0 < d.n

def Decrease.hole (d : Decrease) : Hole :=
  { id := s.nextId
    startPfn := (freeRunDown s d.n d.n d.page 0).1 + 1
    endPfn := d.page + 1 }

def decreaseRound (d : Decrease) (newPage : Bool) (xen : Xen) : Option (Pool × Decrease) :=
  if allocated s d.page then some (s, { d with page := d.page - 1 })
  else
    let (page, nn) := freeRunDown s d.n d.n d.page 0
    let hole := d.hole s
    match xmallocRecord { s with nextId := s.nextId + 1 } newPage xen with
    | none => none
    | some (t, recordPage) =>
      let u := recordDecrease t hole
      let u := if coalesces t hole then unlockedFree u recordPage else u
      some (u, { page := page - 1, n := d.n - nn, rc := hole.size })

/-! ## Initialisation -/

structure Config where
  min : Nat
  max : Nat
  maximumReservation : Nat
  smallPct : Nat
  memory : Map
  pos : 2 ≤ min
  fits : min + maximumReservation / BITS_PER_PAGE ≤ max
  le : max ≤ maximumReservation
  lt : maximumReservation < 2 ^ 64

def initPageAllocator (c : Config) : Pool :=
  let bitmapPages := c.maximumReservation / BITS_PER_PAGE
  let first := c.min + bitmapPages
  let bulk := first + c.maximumReservation * c.smallPct % 2 ^ 64 / 100
  let firstBulk := if c.max < bulk then c.max else bulk
  -- the memset covers the pages of the bitmap, whatever the size of the pool
  let allSet : Map := fun i => if i < bitmapPages * 512 then ~~~0#64 else c.memory i
  { allocBitmap := mapFree allSet first (c.max - first)
    firstAllocPage := first
    endAllocPage := c.max
    maxEndAllocPage := c.maximumReservation
    firstFreePage := first
    firstBulkPage := firstBulk
    firstFreeBulkPage := firstBulk
    numFreePages := c.max - first
    numFreeBulkPages := c.max - firstBulk
    memoryHoleList := []
    inIncreaseMemory := false
    maxPfnTable := 0
    live := []
    leaked := []
    gained := 0
    released := 0
    nextId := 0 }

def resizePhysToMachineMappingTable (newPage : Bool) (xen : Xen) : Option Pool :=
  let table :=
    if s.endAllocPage < s.maxEndAllocPage then
      match allocatePages s ((s.maxEndAllocPage * 8 + 4095) / 4096) xen with
      | some (t, some _) => some t
      | _ => none
    else some s
  table.bind fun t =>
    (xmallocRecord { t with nextId := t.nextId + 1 } newPage xen).map fun (u, _) =>
      { u with memoryHoleList := ⟨t.nextId, u.endAllocPage, u.maxEndAllocPage⟩ :: u.memoryHoleList }

def allocPage (xen : Xen) : Option Pool :=
  match allocatePages s 1 xen with
  | some (t, some _) => some t
  | _ => none

def MAX_L2_PAGES : Nat := 32
def PFNS_PER_L3_PAGE : Nat := 256 * 1024

def allocL2Pages (xen : Nat → Xen) : Nat → Pool → Option Pool
  | 0, s => some s
  | i + 1, s => (allocPage s (xen i)).bind (allocL2Pages xen i)

/-- `arch_init_p2m`. The table has an L2 page for every `PFNS_PER_L3_PAGE` pages of the maximal
reservation; the `BUG_ON` of `arch_update_p2m` limits their number. -/
def archInitP2m (maxPfn maxmemPfn : Nat) (xen : Nat → Xen) : Option Pool :=
  let l2Pages := (maxmemPfn + (PFNS_PER_L3_PAGE - 1)) / PFNS_PER_L3_PAGE
  (allocPage s (xen l2Pages)).bind fun t =>
    if MAX_L2_PAGES < l2Pages then none
    else
      (allocL2Pages xen l2Pages { t with maxPfnTable := 0 }).map fun u =>
        let u := { u with maxPfnTable := archUpdateP2m u.maxPfnTable 0 maxmemPfn true }
        { u with maxPfnTable := maxPfn }

structure Boot where
  config : Config
  newPage : Bool
  xen : Nat → Xen

def initMm (b : Boot) : Option Pool :=
  (resizePhysToMachineMappingTable (initPageAllocator b.config) b.newPage (b.xen 0)).bind fun s =>
    archInitP2m s b.config.max s.maxEndAllocPage fun k => b.xen (k + 1)

def smallDomain : Config where
  min := 3
  max := 670
  maximumReservation := 32768
  smallPct := DEFAULT_SMALL_PERCENTAGE
  memory := fun _ => 0
  pos := by decide
  fits := by decide
  le := by decide
  lt := by decide

def noMemory : Xen := fun _ => ⟨0, 0⟩

end Guk.PagePool
