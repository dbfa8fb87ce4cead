import Guk.PagePoolInv

/-!
# The page pool with many threads

A stretch of code under `bitmap_lock` is one step, and what happens between two
stretches (the hypercalls, the allocation of page table frames and of hole records) are
steps of their own. An allocation made on the way is an allocation of some thread, like
any other. `backed` says which pages Xen has given to the domain.
-/
namespace Guk.PagePoolLock

open Bitmap Runs PagePool

inductive Caller where
  | allocate (n : Nat)
  | increase

inductive Pc where
  | idle
  /-- `guk_deallocate_pages` has released the lock -/
  | freed (n : Nat)
  /-- before `increase_reservation(nn, memory_hole)` -/
  | populating (caller : Caller) (n result id holeSize nn : Nat)
  /-- after it, with the hole as it was for the hypercall -/
  | populated (caller : Caller) (n result : Nat) (hole : Hole) (holeSize rc : Nat)
  | decreasing (d : Decrease)
  /-- before `decrease_reservation(memory_hole)` -/
  | releasing (hole : Hole) (d : Decrease)
  | released (hole : Hole) (d : Decrease)

structure State where
  pool : Pool
  backed : Nat → Bool
  thread : Nat → Pc

/-! ## The stretches under the lock -/

def holeRound (s : Pool) (caller : Caller) (n result : Nat) : Option (Pool × Pc) :=
  match s.memoryHoleList with
  | [] => none
  | hole :: _ =>
    let holeSize := hole.size
    let nn := if holeSize ≤ n then holeSize else n
    some (s, .populating caller n result hole.id holeSize nn)

def enterIncrease (s : Pool) (caller : Caller) (n : Nat) : Option (Pool × Pc) :=
  if s.inIncreaseMemory then some ({ s with inIncreaseMemory := false }, .idle)
  else
    let s := { s with inIncreaseMemory := true }
    if canIncrease s.memoryHoleList n ≠ 0 then holeRound s caller n 0
    else some ({ s with inIncreaseMemory := false }, .idle)

def bulkRound (s : Pool) (n : Nat) : Option (Pool × Pc) :=
  match search s true n with
  | some page => some (take s true page n, .idle)
  | none => enterIncrease s (.allocate n) n

def allocateStretch (s : Pool) (n : Nat) : Option (Pool × Pc) :=
  if isBulk n then bulkRound s n
  else
    match search s false n with
    | some page => some (take s false page n, .idle)
    | none => bulkRound s n

def leaveIncrease (s : Pool) (caller : Caller) (result : Nat) : Option (Pool × Pc) :=
  let s := { s with inIncreaseMemory := false }
  match caller with
  | .increase => some (s, .idle)
  | .allocate n => if result = 0 then some (s, .idle) else bulkRound s n

def recordStretch (s : Pool) (caller : Caller) (n result : Nat) (hole : Hole) (holeSize rc : Nat) :
    Option (Pool × Pc) :=
  if 0 < rc then
    let s := recordIncrease s hole holeSize rc
    if 0 < n - rc then holeRound s caller (n - rc) (result + rc) else leaveIncrease s caller
      (result + rc)
  else leaveIncrease s caller result

def decreaseStretch (s : Pool) : Nat → Decrease → Pool × Pc
  | 0, _ => (s, .idle)
  | fuel + 1, d =>
    if d.more s then
      if allocated s d.page then decreaseStretch s fuel { d with page := d.page - 1 }
      else
        let (page, nn) := freeRunDown s d.n d.n d.page 0
        ({ s with nextId := s.nextId + 1 },
          .releasing (d.hole s) { page := page - 1, n := d.n - nn, rc := d.rc })
    else (s, .idle)

def record (s : Pool) (id : Nat) : Option Hole :=
  (s.memoryHoleList ++ s.leaked).find? fun h => h.id = id

/-! ## Steps -/

inductive Label where
  /-- `resize_phys_to_machine_mapping_table`, before anything else has been allocated -/
  | resize (newPage : Bool) (xen : Xen)
  | allocate (thread n : Nat)
  | deallocate (thread page n : Nat)
  | increase (thread n : Nat)
  | decrease (thread n : Nat)
  /-- the statement `num_free_pages += n`, outside of the lock -/
  | count (thread : Nat)
  /-- `populate_physmap`; `mapped` if the page tables could be built -/
  | populate (thread populated : Nat) (mapped : Bool)
  | release (thread : Nat)
  /-- the stretch after a hypercall, or the first one of `guk_decrease_page_pool` -/
  | locked (thread : Nat)

def State.stretch (s : State) (thread : Nat) (r : Pool × Pc) : State :=
  { s with pool := r.1, thread := Function.update s.thread thread r.2 }

def step (s : State) : Label → Option State
  | .resize newPage xen =>
    if s.pool.memoryHoleList = [] ∧ s.pool.live = [] ∧ s.pool.nextId = 0 then
      (resizePhysToMachineMappingTable s.pool newPage xen).map fun t => { s with pool := t }
    else none
  | .allocate thread n =>
    match s.thread thread with
    | .idle => if n < 2 ^ 31 then (allocateStretch s.pool n).map (s.stretch thread) else none
    | _ => none
  | .deallocate thread page n =>
    match s.thread thread with
    | .idle =>
      if s.pool.live.contains (page, n) then
        some (s.stretch thread
          ({ deallocateLocked s.pool page n with live := s.pool.live.erase (page, n) }, .freed n))
      else none
    | _ => none
  | .increase thread n =>
    match s.thread thread with
    | .idle => (enterIncrease s.pool .increase n).map (s.stretch thread)
    | _ => none
  | .decrease thread n =>
    -- `end_alloc_page` is read before the lock is taken
    match s.thread thread with
    | .idle => some (s.stretch thread (s.pool, .decreasing ⟨s.pool.endAllocPage - 1, n, 0⟩))
    | _ => none
  | .count thread =>
    match s.thread thread with
    | .freed n =>
      some (s.stretch thread ({ s.pool with numFreePages := add64 s.pool.numFreePages n }, .idle))
    | _ => none
  | .populate thread populated mapped =>
    match s.thread thread with
    | .populating caller n result id holeSize nn =>
      (record s.pool id).bind fun hole =>
        -- the `BUG_ON` of `increase_reservation`
        if hole.size < nn then none
        else
          let rc := min populated nn
          let t := s.stretch thread
            (s.pool, .populated caller n result hole holeSize (if mapped then rc else 0))
          some { t with
            backed := fun p => s.backed p || decide (hole.startPfn ≤ p ∧ p < hole.startPfn + rc) }
    | _ => none
  | .release thread =>
    match s.thread thread with
    | .releasing hole d =>
      -- Xen releases all pages or the domain crashes
      if (List.range' hole.startPfn hole.size).all s.backed then
        let t := s.stretch thread (s.pool, .released hole { d with rc := hole.size })
        some { t with
          backed := fun p => s.backed p && !decide (hole.startPfn ≤ p ∧ p < hole.endPfn) }
      else none
    | _ => none
  | .locked thread =>
    match s.thread thread with
    | .populated caller n result hole holeSize rc =>
      (record s.pool hole.id).bind fun hole =>
        (recordStretch s.pool caller n result hole holeSize rc).map (s.stretch thread)
    | .decreasing d => some (s.stretch thread (decreaseStretch s.pool (d.page + 1) d))
    | .released hole d =>
      let t := recordDecrease s.pool hole
      -- `unlocked_free` of a record that is not needed releases the lock once more
      if coalesces s.pool hole then some (s.stretch thread (t, .decreasing d))
      else some (s.stretch thread (decreaseStretch t (d.page + 1) d))
    | _ => none

def Initial (s : State) : Prop :=
  ∃ c : Config, s = ⟨initPageAllocator c, fun p => decide (p < c.max), fun _ => .idle⟩

/-! ## Exclusive use -/

def InUse (s : Pool) (p : Nat) : Prop :=
  (∃ a ∈ s.live, a.1 ≤ p ∧ p < a.1 + a.2) ∨
    s.firstAllocPage ≤ p ∧ p < s.endAllocPage ∧ allocated s p = false

structure Exclusive (s : State) : Prop where
  apart : s.pool.live.Pairwise Apart
  hole : ∀ p, InUse s.pool p → ∀ h ∈ s.pool.memoryHoleList, ¬ h.Has p
  backed : ∀ p, InUse s.pool p → s.backed p = true

def exclusiveStep (s : State) (l : Label) : Prop :=
  (s.pool.maxEndAllocPage < 2 ^ 31 ∧ BITS_PER_PAGE ∣ s.pool.maxEndAllocPage) ∧
    match l with
    | .release _ => False
    | .locked thread =>
      match s.thread thread with
      | .populated _ _ _ hole _ rc => 0 < rc → hole ∈ s.pool.memoryHoleList
      | _ => True
    | _ => True

end Guk.PagePoolLock
