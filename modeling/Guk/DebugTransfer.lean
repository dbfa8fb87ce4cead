import Guk.CString
import Mathlib.Algebra.Group.Nat.Defs

/-!
# Transfers through the data page (`db-back.c`, `db-frontend.c`)

Frontend and backend share one page. `dispatch_readbytes` fills it from memory,
`dispatch_writebytes` writes its bytes to memory and `dispatch_gather_threads` puts a
record for every thread of the application into it.
-/
namespace Guk.DebugTransfer

open CString Function List

def PAGE_SIZE : Nat := 4096

def recordSize : Nat := 24

inductive DbExit where
  | unset
  | set
  | done
  | fin
  deriving DecidableEq, Repr

structure DbThread where
  id : UInt16
  flags : UInt32
  stack : UInt64
  stackSize : UInt64
  deriving DecidableEq, Repr

structure Thread extends DbThread where
  name : List UInt8

structure State where
  byte : UInt64 → UInt8
  readable : UInt64 → Bool
  writable : UInt64 → Bool
  dataPage : UInt64
  dbBackAccess : Bool
  dbBackAddr : UInt64
  threadList : List Thread
  dbExit : DbExit
  accessed : List Nat

structure Served where
  state : State
  moved : Nat
  retVal : UInt64

/-! ## Memory -/

namespace State

variable (s : State)

def page (i : Nat) : UInt8 := s.byte (s.dataPage + UInt64.ofNat i)

def store (address : UInt64) (b : UInt8) : State := { s with byte := update s.byte address b }

def touchPage (i : Nat) : State := { s with accessed := i :: s.accessed }

def storePage (i : Nat) (b : UInt8) : State := (s.store (s.dataPage + UInt64.ofNat i) b).touchPage i

def arm (pointer : UInt64) : State := { s with dbBackAccess := true, dbBackAddr := pointer }

def storeBytes : (s : State) → (offset : Nat) → List UInt8 → State
  | s, _, [] => s
  | s, offset, b :: l => storeBytes (s.storePage offset b) (offset + 1) l

end State

def toBytes : (width n : Nat) → List UInt8
  | 0, _ => []
  | width + 1, n => UInt8.ofNat n :: toBytes width (n / 256)

/-! ## The backend -/

def readLoop : (k i : Nat) → (pointer : UInt64) → (retVal : UInt64) → State → Served
  | 0, i, _, retVal, s => ⟨s, i, retVal⟩
  | k + 1, i, pointer, retVal, s =>
    let s := s.arm pointer
    if s.readable pointer then readLoop k (i + 1) (pointer + 1) retVal
      (s.storePage i (s.byte pointer))
    else ⟨s, i, 0⟩

def dispatchReadbytes (address n : UInt64) (s : State) : Served :=
  let n := n.toUInt16
  let r := readLoop n.toNat 0 address n.toUInt64 s
  { r with state := { r.state with dbBackAccess := false } }

def writeLoop : (k i : Nat) → (pointer : UInt64) → (retVal : UInt64) → State → Served
  | 0, i, _, retVal, s => ⟨s, i, retVal⟩
  | k + 1, i, pointer, retVal, s =>
    let s := (s.arm pointer).touchPage i
    if s.writable pointer then writeLoop k (i + 1) (pointer + 1) retVal (s.store pointer (s.page i))
    else ⟨s, i, 0⟩

def dispatchWritebytes (address n : UInt64) (s : State) : Served :=
  let n := n.toUInt16
  writeLoop n.toNat 0 address n.toUInt64 s

def UKERNEL_FLAG : UInt32 := 0x100

def isAppThread (t : Thread) : Bool := t.flags &&& UKERNEL_FLAG = 0 || t.name = text "maxine"

def storeRecord (s : State) (offset : Nat) (t : DbThread) : State :=
  let s := s.storeBytes offset (toBytes 2 t.id.toNat)
  let s := s.storeBytes (offset + 4) (toBytes 4 t.flags.toNat)
  let s := s.storeBytes (offset + 8) (toBytes 8 t.stack.toNat)
  s.storeBytes (offset + 16) (toBytes 8 t.stackSize.toNat)

def gatherLoop (numThreads : Nat) (s : State) : List Thread → State × Nat
  | [] => (s, numThreads)
  | t :: list =>
    if isAppThread t then
      gatherLoop (numThreads + 1) (storeRecord s (recordSize * numThreads) t.toDbThread) list
    else gatherLoop numThreads s list

def dispatchGatherThreads (s : State) : Served :=
  let r := gatherLoop 0 s s.threadList
  if r.1.dbExit = .set then ⟨{ r.1 with dbExit := .done }, r.2, -1⟩
  else ⟨r.1, r.2, UInt64.ofNat r.2⟩

/-! ## Requests -/

inductive Request where
  | readbytes (address n : UInt64)
  | writebytes (address n : UInt64)
  | gatherThreads
  deriving DecidableEq, Repr

def Request.serve (s : State) : Request → Served
  | .readbytes address n => dispatchReadbytes address n s
  | .writebytes address n => dispatchWritebytes address n s
  | .gatherThreads => dispatchGatherThreads s

def Request.count (retVal : UInt64) : Request → Nat
  | .readbytes _ _ => retVal.toNat
  | .writebytes _ _ => retVal.toNat
  | .gatherThreads => if retVal = -1 then 0 else retVal.toNat

def Request.valid (moved : Nat) : Request → Nat
  | .readbytes _ _ => min moved PAGE_SIZE
  | .writebytes _ _ => min moved PAGE_SIZE
  | .gatherThreads => min moved (PAGE_SIZE / recordSize)

structure InsidePage (s : State) (r : Request) : Prop where
  accessed : ∀ i ∈ (r.serve { s with accessed := [] }).state.accessed, i < PAGE_SIZE
  count : r.count (r.serve { s with accessed := [] }).retVal ≤
    r.valid (r.serve { s with accessed := [] }).moved

def leading (ok : UInt64 → Bool) : (k : Nat) → (pointer : UInt64) → Nat
  | 0, _ => 0
  | k + 1, pointer => if ok pointer then leading ok k (pointer + 1) + 1 else 0

def Fits (s : State) : Request → Prop
  | .readbytes address n => leading s.readable n.toUInt16.toNat address ≤ PAGE_SIZE
  | .writebytes address n =>
    min n.toUInt16.toNat (leading s.writable n.toUInt16.toNat address + 1) ≤ PAGE_SIZE
  | .gatherThreads => (s.threadList.filter isAppThread).length ≤ PAGE_SIZE / recordSize

/-! ## Accesses -/

variable {s : State} {k i j offset lead used : Nat} {pointer retVal : UInt64} {l : List UInt8}
  {r : Served}

theorem leading_le (ok : UInt64 → Bool) (k : Nat) (pointer : UInt64) :
    leading ok k pointer ≤ k := by
  induction k generalizing pointer with
  | zero => exact le_refl 0
  | succ k ih =>
    have := ih (pointer + 1)
    rw [leading]
    split <;> omega

structure Moved (s : State) (k i lead used : Nat) (retVal : UInt64) (r : Served) : Prop where
  moved : r.moved = i + lead
  accessed : r.state.accessed = (List.range' i used).reverse ++ s.accessed
  retVal : r.retVal = if lead = k then retVal else 0

theorem Moved.nothing : Moved s 0 i 0 0 retVal ⟨s, i, retVal⟩ := ⟨rfl, rfl, rfl⟩

theorem Moved.cons {t : State} (h : Moved t k (i + 1) lead used retVal r)
    (ht : t.accessed = i :: s.accessed) : Moved s (k + 1) i (lead + 1) (used + 1) retVal r := by
  constructor
  · rw [h.moved]
    omega
  · rw [h.accessed, ht, range'_succ, reverse_cons, append_assoc]
    rfl
  · rw [h.retVal]
    simp only [Nat.add_right_cancel_iff]

theorem readLoop_readable (h : s.readable pointer = true) :
    readLoop (k + 1) i pointer retVal s =
      readLoop k (i + 1) (pointer + 1) retVal ((s.arm pointer).storePage i (s.byte pointer)) :=
        if_pos h

theorem readLoop_fault (h : ¬ s.readable pointer = true) :
    readLoop (k + 1) i pointer retVal s = ⟨s.arm pointer, i, 0⟩ := if_neg h

theorem writeLoop_writable (h : s.writable pointer = true) :
    writeLoop (k + 1) i pointer retVal s =
      writeLoop k (i + 1) (pointer + 1) retVal
        (((s.arm pointer).touchPage i).store pointer (s.page i)) :=
  if_pos h

theorem writeLoop_fault (h : ¬ s.writable pointer = true) :
    writeLoop (k + 1) i pointer retVal s = ⟨(s.arm pointer).touchPage i, i, 0⟩ := if_neg h

theorem readLoop_moved (k i : Nat) (pointer retVal : UInt64) (s : State) :
    Moved s k i (leading s.readable k pointer) (leading s.readable k pointer) retVal
      (readLoop k i pointer retVal s) := by
  induction k generalizing i pointer s with
  | zero => exact .nothing
  | succ k ih =>
    by_cases hread : s.readable pointer = true
    · have hrest := ih (i + 1) (pointer + 1) ((s.arm pointer).storePage i (s.byte pointer))
      rw [readLoop_readable hread, leading, if_pos hread]
      exact hrest.cons rfl
    · rw [readLoop_fault hread, leading, if_neg hread]
      exact ⟨rfl, rfl, rfl⟩

theorem writeLoop_moved (k i : Nat) (pointer retVal : UInt64) (s : State) :
    Moved s k i (leading s.writable k pointer) (min k (leading s.writable k pointer + 1)) retVal
      (writeLoop k i pointer retVal s) := by
  induction k generalizing i pointer s with
  | zero => exact .nothing
  | succ k ih =>
    by_cases hwrite : s.writable pointer = true
    · have hrest :=
        ih (i + 1) (pointer + 1) (((s.arm pointer).touchPage i).store pointer (s.page i))
      rw [writeLoop_writable hwrite, leading, if_pos hwrite, Nat.add_min_add_right]
      exact hrest.cons rfl
    · rw [writeLoop_fault hwrite, leading, if_neg hwrite, Nat.min_eq_right (Nat.le_add_left 1 k)]
      exact ⟨rfl, rfl, rfl⟩

theorem Moved.inside_iff
    (h : Moved { s with accessed := [] } k 0 lead used retVal r) :
    (∀ i ∈ r.state.accessed, i < PAGE_SIZE) ↔ used ≤ PAGE_SIZE := by
  rw [h.accessed]
  simp only [append_nil, mem_reverse, mem_range'_1]
  constructor
  · intro hall
    by_contra hlt
    have := hall PAGE_SIZE (by omega)
    omega
  · intro hle i hi
    omega

theorem Moved.count_le {n : UInt16}
    (h : Moved { s with accessed := [] } n.toNat 0 lead used n.toUInt64 r)
    (hpage : lead ≤ PAGE_SIZE) :
    r.retVal.toNat ≤ min r.moved PAGE_SIZE := by
  rw [h.retVal, h.moved]
  split
  · rename_i hlead
    rw [UInt16.toNat_toUInt64]
    omega
  · exact Nat.zero_le _

theorem insidePage_readbytes_iff (s : State) (address n : UInt64) :
    InsidePage s (.readbytes address n) ↔ Fits s (.readbytes address n) := by
  have hmoved :=
    readLoop_moved n.toUInt16.toNat 0 address n.toUInt16.toUInt64 { s with accessed := [] }
  constructor
  · intro h
    exact hmoved.inside_iff.mp h.accessed
  · intro h
    exact ⟨hmoved.inside_iff.mpr h, hmoved.count_le h⟩

theorem insidePage_writebytes_iff (s : State) (address n : UInt64) :
    InsidePage s (.writebytes address n) ↔ Fits s (.writebytes address n) := by
  have hmoved :=
    writeLoop_moved n.toUInt16.toNat 0 address n.toUInt16.toUInt64 { s with accessed := [] }
  constructor
  · intro h
    exact hmoved.inside_iff.mp h.accessed
  · intro h
    have hle := leading_le s.writable n.toUInt16.toNat address
    have hpage : leading s.writable n.toUInt16.toNat address ≤ PAGE_SIZE := by
      have hfits : min n.toUInt16.toNat (leading s.writable n.toUInt16.toNat address + 1) ≤
        PAGE_SIZE := h
      omega
    exact ⟨hmoved.inside_iff.mpr h, hmoved.count_le hpage⟩

/-! ## Records -/

theorem length_toBytes (width n : Nat) : (toBytes width n).length = width := by
  induction width generalizing n with
  | zero => rfl
  | succ width ih => rw [toBytes, length_cons, ih]

theorem accessed_storeBytes (s : State) (offset : Nat) (l : List UInt8) :
    (s.storeBytes offset l).accessed = (List.range' offset l.length).reverse ++ s.accessed := by
  induction l generalizing s offset with
  | nil => rfl
  | cons b l ih =>
    rw [State.storeBytes, ih, length_cons, range'_succ, reverse_cons, append_assoc]
    rfl

theorem mem_storeRecord (s : State) (offset i : Nat) (t : DbThread) :
    i ∈ (storeRecord s offset t).accessed ↔
      (offset ≤ i ∧ i < offset + 2 ∨ offset + 4 ≤ i ∧ i < offset + 24) ∨ i ∈ s.accessed := by
  simp only [storeRecord, accessed_storeBytes, length_toBytes, mem_append, mem_reverse,
    mem_range'_1]
  grind

structure Gathered (s : State) (n m : Nat) (r : State × Nat) : Prop where
  count : r.2 = n + m
  below : ∀ i ∈ r.1.accessed, i < recordSize * (n + m) ∨ i ∈ s.accessed
  last : ∀ j < m, recordSize * (n + j) + 23 ∈ r.1.accessed
  kept : ∀ i ∈ s.accessed, i ∈ r.1.accessed

theorem Gathered.cons {n m : Nat} {r : State × Nat} {t : DbThread}
    (h : Gathered (storeRecord s (recordSize * n) t) (n + 1) m r) : Gathered s n (m + 1) r := by
  have hnext : recordSize * (n + 1) = recordSize * n + 24 := rfl
  have hend : n + 1 + m = n + (m + 1) := by omega
  constructor
  · rw [h.count, hend]
  · intro i hi
    rcases h.below i hi with hlt | hin
    · rw [hend] at hlt
      exact .inl hlt
    · rcases (mem_storeRecord ..).mp hin with hlt | hin
      · have hle : recordSize * (n + 1) ≤ recordSize * (n + (m + 1)) :=
          Nat.mul_le_mul_left _ (by omega)
        exact .inl (by omega)
      · exact .inr hin
  · intro j hj
    cases j with
    | zero =>
      change recordSize * n + 23 ∈ r.1.accessed
      exact h.kept _ ((mem_storeRecord ..).mpr (.inl (by omega)))
    | succ j =>
      have hlast := h.last j (by omega)
      rw [Nat.add_assoc, Nat.add_comm 1] at hlast
      exact hlast
  · intro i hi
    exact h.kept i ((mem_storeRecord ..).mpr (.inr hi))

theorem gatherLoop_gathered (s : State) (n : Nat) (list : List Thread) :
    Gathered s n (list.filter isAppThread).length (gatherLoop n s list) := by
  induction list generalizing s n with
  | nil =>
    constructor
    · rfl
    · intro i hi
      exact .inr hi
    · intro j hj
      exact absurd hj (Nat.not_lt_zero j)
    · intro i hi
      exact hi
  | cons t list ih =>
    by_cases happ : isAppThread t = true
    · rw [gatherLoop, if_pos happ, filter_cons_of_pos happ, length_cons]
      exact (ih _ (n + 1)).cons
    · rw [gatherLoop, if_neg happ, filter_cons_of_neg happ]
      exact ih s n

theorem dispatchGatherThreads_accessed (s : State) :
    (dispatchGatherThreads s).state.accessed = (gatherLoop 0 s s.threadList).1.accessed := by
  simp only [dispatchGatherThreads]
  split <;> rfl

theorem count_gatherThreads (s : State) :
    Request.count (dispatchGatherThreads s).retVal .gatherThreads ≤
      (dispatchGatherThreads s).moved := by
  simp only [Request.count]
  split
  · exact Nat.zero_le _
  · rename_i hend
    simp only [dispatchGatherThreads] at hend ⊢
    split
    · rename_i hexit
      rw [if_pos hexit] at hend
      exact absurd rfl hend
    · rw [UInt64.toNat_ofNat']
      exact Nat.mod_le ..

theorem dispatchGatherThreads_moved (s : State) :
    (dispatchGatherThreads s).moved = (s.threadList.filter isAppThread).length := by
  have hcount := (gatherLoop_gathered s 0 s.threadList).count
  rw [Nat.zero_add] at hcount
  simp only [dispatchGatherThreads]
  split <;> exact hcount

theorem insidePage_gatherThreads_iff (s : State) :
    InsidePage s .gatherThreads ↔ Fits s .gatherThreads := by
  have hgathered := gatherLoop_gathered { s with accessed := [] } 0 s.threadList
  have hsize : PAGE_SIZE / recordSize = 170 := rfl
  constructor
  · intro h
    have hall := h.accessed
    rw [Request.serve, dispatchGatherThreads_accessed] at hall
    by_contra hmany
    -- the 171st record crosses the end of the page
    have hlast := hall _ (hgathered.last 170 (by unfold Fits at hmany; omega))
    exact absurd hlast (by decide)
  · intro h
    have hfew : (s.threadList.filter isAppThread).length ≤ 170 := h
    constructor
    · intro i hi
      rw [Request.serve, dispatchGatherThreads_accessed] at hi
      rcases hgathered.below i hi with hlt | hin
      · have hle : recordSize * (0 + (s.threadList.filter isAppThread).length) ≤ recordSize * 170 :=
          Nat.mul_le_mul_left _ (by omega)
        have hpage : recordSize * 170 ≤ PAGE_SIZE := by decide
        omega
      · cases hin
    · have hmoved := dispatchGatherThreads_moved { s with accessed := [] }
      have hcount := count_gatherThreads { s with accessed := [] }
      refine hcount.trans (Nat.le_min.mpr ⟨le_rfl, ?_⟩)
      rw [hmoved]
      exact h

/-- Transfers stay in the page exactly if they are small enough, up to the first fault. -/
theorem transfer_inside_page_iff (s : State) (r : Request) : InsidePage s r ↔ Fits s r := by
  cases r with
  | readbytes address n => exact insidePage_readbytes_iff s address n
  | writebytes address n => exact insidePage_writebytes_iff s address n
  | gatherThreads => exact insidePage_gatherThreads_iff s

def allMapped : State where
  byte _ := 0
  readable _ := true
  writable _ := true
  dataPage := 0x10000
  dbBackAccess := false
  dbBackAddr := 0
  threadList := []
  dbExit := .unset
  accessed := []

theorem leading_true (k : Nat) (pointer : UInt64) : leading (fun _ => true) k pointer = k := by
  induction k generalizing pointer with
  | zero => rfl
  | succ k ih => rw [leading, if_pos rfl, ih]

def manyThreads : State :=
  { allMapped with threadList := List.replicate 171 ⟨⟨5, 0, 0, 0⟩, text "main"⟩ }

theorem transfer_leaves_page :
    ¬ InsidePage allMapped (.readbytes 0 4097) ∧ ¬ InsidePage allMapped (.writebytes 0 4097) ∧
      ¬ InsidePage manyThreads .gatherThreads := by
  have hn : (4097 : UInt64).toUInt16.toNat = 4097 := rfl
  have hread : leading allMapped.readable 4097 0 = 4097 := leading_true 4097 0
  have hwrite : leading allMapped.writable 4097 0 = 4097 := leading_true 4097 0
  refine ⟨?_, ?_, ?_⟩
  · intro h
    have hfits := (insidePage_readbytes_iff allMapped 0 4097).mp h
    rw [Fits, hn, hread] at hfits
    exact absurd hfits (by decide)
  · intro h
    have hfits := (insidePage_writebytes_iff allMapped 0 4097).mp h
    rw [Fits, hn, hwrite] at hfits
    exact absurd hfits (by decide)
  · intro h
    have hfits := (insidePage_gatherThreads_iff manyThreads).mp h
    rw [Fits, manyThreads, filter_replicate_of_pos (by decide), length_replicate] at hfits
    exact absurd hfits (by decide)

/-! ## What the frontend finds -/

theorem offset_inj (p : UInt64) (hi : i < 2 ^ 64) (hj : j < 2 ^ 64) :
    p + UInt64.ofNat i = p + UInt64.ofNat j ↔ i = j := by
  rw [UInt64.add_right_inj, ← UInt64.toNat_inj, UInt64.toNat_ofNat', UInt64.toNat_ofNat',
    Nat.mod_eq_of_lt hi, Nat.mod_eq_of_lt hj]

theorem page_storePage {b : UInt8} (hi : i < 2 ^ 64) (hj : j < 2 ^ 64) :
    (s.storePage i b).page j = if j = i then b else s.page j := by
  change update s.byte (s.dataPage + UInt64.ofNat i) b (s.dataPage + UInt64.ofNat j) = _
  simp only [update_apply, offset_inj s.dataPage hj hi]
  rfl

theorem next_byte (p : UInt64) (n : Nat) : p + 1 + UInt64.ofNat n = p + UInt64.ofNat (n + 1) := by
  rw [UInt64.add_assoc, UInt64.ofNat_add, UInt64.add_comm 1]
  rfl

theorem readLoop_page (hroom : i + k ≤ 2 ^ 64)
    (hapart : ∀ a < k, ∀ b < i + k, pointer + UInt64.ofNat a ≠ s.dataPage + UInt64.ofNat b)
    (hj : j < i + leading s.readable k pointer) :
    (readLoop k i pointer retVal s).state.page j =
      if j < i then s.page j else s.byte (pointer + UInt64.ofNat (j - i)) := by
  induction k generalizing i pointer s with
  | zero =>
    have hlt : j < i := hj
    rw [if_pos hlt]
    rfl
  | succ k ih =>
    by_cases hread : s.readable pointer = true
    · rw [leading, if_pos hread] at hj
      have hbefore := leading_le s.readable k (pointer + 1)
      have hlead : j < i + 1 + leading s.readable k (pointer + 1) := by omega
      have hrest : ∀ a < k, ∀ b < i + 1 + k,
          pointer + 1 + UInt64.ofNat a ≠ s.dataPage + UInt64.ofNat b := by
        intro a ha b hb
        rw [next_byte]
        exact hapart (a + 1) (by omega) b (by omega)
      rw [readLoop_readable hread,
        ih (s := (s.arm pointer).storePage i (s.byte pointer)) (by omega) hrest hlead]
      by_cases hlt : j < i + 1
      · rw [if_pos hlt, page_storePage (by omega) (by omega)]
        by_cases heq : j = i
        · rw [if_pos heq, if_neg (by omega), heq, Nat.sub_self]
          exact congrArg s.byte (UInt64.add_zero pointer).symm
        · rw [if_neg heq, if_pos (by omega)]
          rfl
      · have hne := hapart (j - i) (by omega) i (by omega)
        have hnext : j - (i + 1) + 1 = j - i := by omega
        rw [if_neg hlt, if_neg (by omega), next_byte, hnext]
        exact update_of_ne hne ..
    · rw [leading, if_neg hread, Nat.add_zero] at hj
      rw [readLoop_fault hread, if_pos hj]
      rfl

end Guk.DebugTransfer
