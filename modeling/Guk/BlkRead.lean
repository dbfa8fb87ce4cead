import Guk.BlkRequest
import Guk.ByteMemory
import Mathlib.Algebra.Group.Nat.Defs

/-!
# Reading from a block device (`blk_front.c`)

`guk_blk_read` and `guk_blk_write` use the caller's buffer if it starts a page, and a
bounce buffer of their own otherwise. The backend fills the sectors that the request
describes, or fails and leaves anything in them; or there is no id for the request.
Memory and the device are seen by bytes. `alloc_pages` is taken to succeed, with memory
apart from the buffer.
-/
namespace Guk.BlkRead

open BlkRequest ByteMemory List

def orderLoop : Nat → Nat → Nat
  | 0, _ => 0
  | fuel + 1, size => if size = 0 then 0 else orderLoop fuel (size / 2) + 1

def getOrder (size : Nat) : Nat := orderLoop 64 ((size + 2 ^ 64 - 1) % 2 ^ 64 / PAGE_SIZE)

def fillSector (data : Bytes) (start : Nat) (mem : Bytes) (sector : Nat × Nat) : Bytes :=
  fun p =>
    if sector.1 ≤ p ∧ p < sector.1 + SECTOR_SIZE then
      data (start + sector.2 * SECTOR_SIZE + (p - sector.1))
    else mem p

def fillRequest (data : Bytes) (mem : Bytes) (x : XenRequest) : Bytes :=
  (covered x).zipIdx.foldl (fillSector data (x.sectorNumber * SECTOR_SIZE)) mem

/-- How the request for a read ends. -/
inductive Outcome where
  /-- `get_freelist_id` finds nothing -/
  | exhausted
  /-- the device reports an error, with `junk` in the sectors of the request -/
  | error (junk : Bytes)
  | success

/-- What a call finds: where its bounce buffer would be, the memory of its `blk_request` and of the
slot of the ring, the id it would get, the number of sectors, and what happens. -/
structure Env where
  bounce : Nat
  pages : Nat → Nat
  seg : Nat → Segment
  id : Nat
  sectors : Nat
  outcome : Outcome

/-- What `guk_blk_read` leaves behind: its value, memory, and the pages it got and gave back. -/
structure Result where
  value : Int
  mem : Bytes
  obtained : List (Nat × Nat)
  freed : List (Nat × Nat)

section

variable (e : Env) (disk mem : Bytes) (buf address size : Nat)

def needsBounce : Bool := buf % PAGE_SIZE ≠ 0 ∨ size % SECTOR_SIZE ≠ 0

def requestPages : Nat := if needsBounce buf size then e.bounce else buf

def obtained : List (Nat × Nat) := if needsBounce buf size then [(e.bounce, getOrder size)] else []

def afterRead (x : XenRequest) (data : Bytes) (value : Int) : Result :=
  let pages := requestPages e buf size
  let mem := fillRequest data mem x
  if needsBounce buf size then
    ⟨value, memcpy mem buf pages (fillPages e.pages pages size).size, obtained e buf size,
      [(pages, getOrder size)]⟩
  else ⟨value, mem, obtained e buf size, []⟩

def gukBlkRead : Option Result :=
  if address % SECTOR_SIZE ≠ 0 ∨ size % SECTOR_SIZE ≠ 0 then none
  else
    (submit .read e.pages e.seg (requestPages e buf size) size address e.sectors e.id).map
      fun (x, _) =>
      match e.outcome with
      | .exhausted => ⟨-1, mem, obtained e buf size, []⟩
      | .error junk => afterRead e mem buf size x junk (-1)
      | .success => afterRead e mem buf size x disk (size / SECTOR_SIZE : Nat)

def gukBlkWrite : Option Result :=
  if address % SECTOR_SIZE ≠ 0 ∨ size % SECTOR_SIZE ≠ 0 then none
  else
    let pages := requestPages e buf size
    let mem := if needsBounce buf size then memcpy mem pages buf size else mem
    (submit .write e.pages e.seg pages size address e.sectors e.id).map fun _ =>
      { value :=
          match e.outcome with
          | .success => (size / SECTOR_SIZE : Nat)
          | _ => -1
        mem
        obtained := obtained e buf size
        freed := if needsBounce buf size then [(pages, getOrder size)] else [] }

end

/-- A read of `size / SECTOR_SIZE` sectors has delivered the data, and no bounce buffer is left. -/
structure ReadDone (disk : Bytes) (buf address size : Nat) (r : Result) : Prop where
  data : r.value = (size / SECTOR_SIZE : Nat) → ∀ j < size, r.mem (buf + j) = disk (address + j)
  released : r.freed = r.obtained

variable {e : Env} {disk mem data : Bytes} {buf address size : Nat} {x : XenRequest} {g : Segments}

theorem lt_two_pow_orderLoop (fuel n : Nat) (h : n < 2 ^ fuel) : n < 2 ^ orderLoop fuel n := by
  induction fuel generalizing n with
  | zero => simpa [orderLoop] using h
  | succ fuel ih =>
    rw [orderLoop]
    split
    case isTrue h₀ =>
      rw [h₀]
      decide
    case isFalse =>
      have hhalf := ih (n / 2) (by rw [Nat.pow_succ] at h; omega)
      rw [Nat.pow_succ]
      omega

theorem pages_le_getOrder (hpos : 0 < size) (hlt : size < 2 ^ 64) :
    lastPage size + 1 ≤ 2 ^ getOrder size := by
  have hsize : (size + 2 ^ 64 - 1) % 2 ^ 64 / PAGE_SIZE = lastPage size := by
    unfold lastPage PAGE_SIZE
    omega
  rw [getOrder, hsize]
  apply lt_two_pow_orderLoop
  unfold lastPage PAGE_SIZE
  omega

/-! ## What the backend writes -/

theorem fillSector_apply (start : Nat) (sector : Nat × Nat) (p : Nat) :
    fillSector data start mem sector p = if sector.1 ≤ p ∧ p < sector.1 + SECTOR_SIZE then
      data (start + sector.2 * SECTOR_SIZE + (p - sector.1)) else mem p :=
  rfl

theorem foldl_fillSector (base start n p : Nat) :
    (((List.range n).map fun k => base + k * SECTOR_SIZE).zipIdx.foldl (fillSector data start) mem)
      p =
      if base ≤ p ∧ p < base + n * SECTOR_SIZE then data (start + (p - base)) else mem p := by
  induction n with
  | zero =>
    have hnot : ¬ (base ≤ p ∧ p < base + 0 * SECTOR_SIZE) := by omega
    rw [if_neg hnot]
    rfl
  | succ n ih =>
    rw [range_succ, map_append, zipIdx_append, foldl_append, length_map,
      length_range]
    refine (fillSector_apply ..).trans ?_
    rw [ih, Nat.zero_add, Nat.succ_mul]
    simp only
    by_cases hlast : base + n * SECTOR_SIZE ≤ p ∧ p < base + n * SECTOR_SIZE + SECTOR_SIZE
    · rw [if_pos hlast, if_pos (by omega)]
      congr 1
      omega
    · rw [if_neg hlast]
      by_cases hin : base ≤ p ∧ p < base + n * SECTOR_SIZE
      · rw [if_pos hin, if_pos (by omega)]
      · rw [if_neg hin, if_neg (by omega)]

theorem fillRequest_eq {operation : Operation} {pages : Nat → Nat} {seg : Nat → Segment}
    {base sectors id : Nat}
    (hpos : 0 < size) (hsize : SECTOR_SIZE ∣ size) (haddress : SECTOR_SIZE ∣ address)
    (h : submit operation pages seg base size address sectors id = some (x, g)) (p : Nat) :
    fillRequest data mem x p =
      if base ≤ p ∧ p < base + reach size * SECTOR_SIZE then data (address + (p - base)) else mem
        p := by
  rw [fillRequest, covered_eq h hpos hsize, foldl_fillSector, (submit_some h).2.2.2.2,
    Nat.div_mul_cancel haddress]

theorem reach_many (hmore : ¬ size ≤ PAGE_SIZE) (hten : size ≤ 10 * PAGE_SIZE) :
    reach size * SECTOR_SIZE = (lastPage size + 1) * PAGE_SIZE := by
  have hlast : lastPage size + 1 < 256 := by
    unfold lastPage PAGE_SIZE at *
    omega
  rw [reach, if_neg hmore, Nat.mod_eq_of_lt hlast, Nat.mul_assoc]
  rfl

theorem size_le_reach (hsize : SECTOR_SIZE ∣ size) (hten : size ≤ 10 * PAGE_SIZE) :
    size ≤ reach size * SECTOR_SIZE := by
  by_cases hle : size ≤ PAGE_SIZE
  · rw [reach, if_pos hle]
    exact le_of_eq (Nat.div_mul_cancel hsize).symm
  · rw [reach_many hle hten]
    unfold lastPage PAGE_SIZE
    omega

theorem reach_le (hpos : 0 < size) (hten : size ≤ 10 * PAGE_SIZE) :
    reach size * SECTOR_SIZE ≤ 2 ^ getOrder size * PAGE_SIZE := by
  have hroom := pages_le_getOrder hpos (lt_of_le_of_lt hten (by decide))
  refine le_trans ?_ (Nat.mul_le_mul_right PAGE_SIZE hroom)
  by_cases hle : size ≤ PAGE_SIZE
  · rw [reach, if_pos hle, lastPage_small hle, Nat.one_mul]
    exact le_trans (Nat.div_mul_le_self size SECTOR_SIZE) hle
  · exact le_of_eq (reach_many hle hten)

/-- The tests on the way to the ring are passed. -/
def Passes (e : Env) (buf address size : Nat) : Prop :=
  SECTOR_SIZE ∣ address ∧
    boundsCheck e.sectors (buildRequest .read e.pages (requestPages e buf size) size address) = true

instance (e : Env) (buf address size : Nat) : Decidable (Passes e buf address size) :=
  inferInstanceAs (Decidable (_ ∧ _))

theorem submit_of_passes (h : Passes e buf address size) :
    ∃ x g, submit .read e.pages e.seg (requestPages e buf size) size address e.sectors e.id =
      some (x, g) := by
  rw [submit, gukBlkDoIo, if_pos h.2]
  exact ⟨_, _, rfl⟩

theorem gukBlkRead_stops (h : ¬ Passes e buf address size) :
    gukBlkRead e disk mem buf address size = none := by
  unfold gukBlkRead
  split
  · rfl
  case isFalse haddress =>
    have hcheck :
        ¬ boundsCheck e.sectors
        (buildRequest .read e.pages (requestPages e buf size) size address) = true :=
      fun hcheck => h ⟨Nat.dvd_of_mod_eq_zero (by omega), hcheck⟩
    rw [submit, gukBlkDoIo, if_neg hcheck]
    rfl

theorem gukBlkRead_eq (hsize : SECTOR_SIZE ∣ size) (haddress : SECTOR_SIZE ∣ address)
    (h : submit .read e.pages e.seg (requestPages e buf size) size address e.sectors e.id =
    some (x, g)) :
    gukBlkRead e disk mem buf address size = some
      (match e.outcome with
        | .exhausted => ⟨-1, mem, obtained e buf size, []⟩
        | .error junk => afterRead e mem buf size x junk (-1)
        | .success => afterRead e mem buf size x disk (size / SECTOR_SIZE : Nat)) := by
  have hnot : ¬ (address % SECTOR_SIZE ≠ 0 ∨ size % SECTOR_SIZE ≠ 0) := by
    rw [Nat.mod_eq_zero_of_dvd hsize, Nat.mod_eq_zero_of_dvd haddress]
    simp
  rw [gukBlkRead, if_neg hnot, h]
  rfl

theorem needsBounce_iff (hsize : SECTOR_SIZE ∣ size) : needsBounce buf size = true ↔
    ¬ PAGE_SIZE ∣ buf := by
  rw [needsBounce, decide_eq_true_iff, Nat.mod_eq_zero_of_dvd hsize, Nat.dvd_iff_mod_eq_zero]
  simp

theorem afterRead_released (value : Int) :
    (afterRead e mem buf size x data value).freed =
      (afterRead e mem buf size x data value).obtained := by
  unfold afterRead
  by_cases hb : needsBounce buf size = true
  · simp only [hb, if_true, obtained, requestPages]
  · simp only [hb, if_false, obtained, Bool.false_eq_true]

theorem afterRead_value (value : Int) : (afterRead e mem buf size x data value).value = value := by
  unfold afterRead
  split <;> rfl

/-! ## The three outcomes -/

theorem exhausted_done_iff (hsize : SECTOR_SIZE ∣ size) :
    ReadDone disk buf address size ⟨-1, mem, obtained e buf size, []⟩ ↔ PAGE_SIZE ∣ buf := by
  constructor
  · intro h
    by_contra hbuf
    have hreleased := h.released
    rw [obtained, if_pos ((needsBounce_iff hsize).mpr hbuf)] at hreleased
    cases hreleased
  · intro hbuf
    refine ⟨nofun, ?_⟩
    rw [obtained, if_neg fun hb => (needsBounce_iff hsize).mp hb hbuf]

theorem error_done (junk : Bytes) :
    ReadDone disk buf address size (afterRead e mem buf size x junk (-1)) := by
  refine ⟨?_, afterRead_released (-1)⟩
  intro hvalue
  rw [afterRead_value] at hvalue
  have := Int.natCast_nonneg (size / SECTOR_SIZE)
  omega

section Served

variable (hsize : SECTOR_SIZE ∣ size) (hten : size ≤ 10 * PAGE_SIZE)
  (haddress : SECTOR_SIZE ∣ address)
  (h : submit .read e.pages e.seg (requestPages e buf size) size address e.sectors e.id =
    some (x, g))
include hsize hten haddress h

theorem afterRead_aligned (hbuf : PAGE_SIZE ∣ buf) (value : Int) (j : Nat) (hj : j < size) :
    (afterRead e mem buf size x disk value).mem (buf + j) = disk (address + j) := by
  have hb : ¬ needsBounce buf size = true := fun hb => (needsBounce_iff hsize).mp hb hbuf
  have hle := size_le_reach hsize hten
  rw [requestPages, if_neg hb] at h
  rw [afterRead, if_neg hb]
  simp only
  rw [fillRequest_eq (Nat.zero_lt_of_lt hj) hsize haddress h, if_pos (by omega),
    Nat.add_sub_cancel_left]

theorem afterRead_bounced (hbuf : ¬ PAGE_SIZE ∣ buf)
    (hapart : e.bounce + 2 ^ getOrder size * PAGE_SIZE ≤ buf ∨ buf + size ≤ e.bounce)
    (value : Int) (j : Nat) (hj : j < size) :
    (afterRead e mem buf size x disk value).mem (buf + j) =
      if j < size - lastPage size * PAGE_SIZE then disk (address + j) else mem (buf + j) := by
  have hpos := Nat.zero_lt_of_lt hj
  have hb := (needsBounce_iff hsize).mpr hbuf
  have hle := size_le_reach hsize hten
  have hroom := reach_le hpos hten
  rw [requestPages, if_pos hb] at h
  rw [afterRead, if_pos hb]
  simp only [requestPages, if_pos hb, (fillPages_spec ..).2.1]
  by_cases hfirst : j < size - lastPage size * PAGE_SIZE
  · rw [memcpy_inside hfirst, fillRequest_eq hpos hsize haddress h, if_pos (by omega),
      if_pos hfirst, Nat.add_sub_cancel_left]
  · rw [memcpy_outside (by omega), fillRequest_eq hpos hsize haddress h, if_neg (by omega),
      if_neg hfirst]

theorem success_done_iff
    (hapart : e.bounce + 2 ^ getOrder size * PAGE_SIZE ≤ buf ∨ buf + size ≤ e.bounce) :
    (∀ disk mem,
      ReadDone disk buf address size (afterRead e mem buf size x disk (size / SECTOR_SIZE : Nat))) ↔
      PAGE_SIZE ∣ buf ∨ size ≤ PAGE_SIZE := by
  by_cases hbuf : PAGE_SIZE ∣ buf
  · refine iff_of_true ?_ (.inl hbuf)
    intro disk mem
    exact ⟨fun _ => afterRead_aligned hsize hten haddress h hbuf _, afterRead_released _⟩
  constructor
  · intro hdone
    refine .inr ?_
    by_contra hmore
    -- the first byte that is not copied
    have hj : size - lastPage size * PAGE_SIZE < size := by
      unfold lastPage PAGE_SIZE at *
      omega
    have hbyte := (hdone (fun _ => 1) fun _ => 0).data (afterRead_value _) _ hj
    rw [afterRead_bounced hsize hten haddress h hbuf hapart _ _ hj, if_neg (lt_irrefl _)] at hbyte
    cases hbyte
  · intro hcond disk mem
    have hle := hcond.resolve_left hbuf
    refine ⟨?_, afterRead_released _⟩
    intro _ j hj
    rw [afterRead_bounced hsize hten haddress h hbuf hapart _ j hj, lastPage_small hle,
      if_pos (by omega)]

end Served

/-- Reads deliver their data and give the bounce buffer back if and only if they are stopped, the
buffer starts a page, the device reports an error, or a success is one of no more than a page. -/
theorem read_done_iff (e : Env) (buf address size : Nat) (hsize : SECTOR_SIZE ∣ size)
    (hten : size ≤ 10 * PAGE_SIZE)
    (hapart : e.bounce + 2 ^ getOrder size * PAGE_SIZE ≤ buf ∨ buf + size ≤ e.bounce) :
    (∀ disk mem r, gukBlkRead e disk mem buf address size = some r →
      ReadDone disk buf address size r) ↔
      ¬ Passes e buf address size ∨ PAGE_SIZE ∣ buf ∨ (∃ junk, e.outcome = .error junk) ∨
        (e.outcome = .success ∧ size ≤ PAGE_SIZE) := by
  by_cases hpass : Passes e buf address size
  case neg =>
    refine iff_of_true ?_ (.inl hpass)
    intro disk mem r hr
    rw [gukBlkRead_stops hpass] at hr
    cases hr
  obtain ⟨x, g, hx⟩ := submit_of_passes hpass
  simp only [gukBlkRead_eq hsize hpass.1 hx, Option.some.injEq, forall_eq', not_not_intro hpass,
    false_or]
  cases e.outcome with
  | exhausted =>
    simp only [exhausted_done_iff hsize, reduceCtorEq, exists_false, false_and, or_false,
      forall_const]
  | error junk => exact iff_of_true (fun _ _ => error_done junk) (.inr (.inl ⟨junk, rfl⟩))
  | success =>
    simp only [success_done_iff hsize hten hpass.1 hx hapart, reduceCtorEq, exists_false, false_or,
      true_and]

def goodDevice : Env := ⟨0x20000, fun _ => 0, noSegments, 1, 100, .success⟩

theorem read_done_one_page : ∃ r,
    gukBlkRead goodDevice (fun a => a) (fun _ => 0) 0x10200 512 4096 = some r ∧
      ReadDone (fun a => a) 0x10200 512 4096 r := by
  refine ⟨_, rfl, ?_⟩
  apply (read_done_iff goodDevice 0x10200 512 4096 (by decide) (by decide) (.inr (by decide))).mpr
  · exact .inr (.inr (.inr ⟨rfl, le_rfl⟩))
  · rfl

theorem read_not_done : ∃ disk mem r,
    gukBlkRead goodDevice disk mem 0x10200 512 8192 = some r ∧
      ¬ ReadDone disk 0x10200 512 8192 r := by
  refine ⟨fun _ => 1, fun _ => 0, _, rfl, ?_⟩
  intro h
  exact absurd (h.data rfl 4096 (by decide)) (by decide +kernel)

theorem write_released {r : Result} (h : gukBlkWrite e mem buf address size = some r) :
    r.freed = r.obtained := by
  obtain ⟨-, h⟩ := Option.ite_none_left_eq_some.mp h
  obtain ⟨-, -, rfl⟩ := Option.map_eq_some_iff.mp h
  simp only [obtained, requestPages]
  by_cases hb : needsBounce buf size = true
  · simp only [if_pos hb]
  · simp only [if_neg hb]

end Guk.BlkRead
