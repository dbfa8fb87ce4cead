import Guk.CString
import Mathlib.Algebra.Group.Nat.Defs

/-!
# Directory listing: `dispatch_list` and `guk_fs_list`

The backend copies the names of a directory into the page the guest has granted
until too little room is left, and packs the number of names, an error number
and the question whether names remain into one integer. The frontend reads that
many strings from the page; its caller asks again behind them until nothing
remains.
-/
namespace Guk.FsList

open CString List

def pageSize : Nat := 4096

def nameMax : Nat := 255

structure FileName where
  bytes : List UInt8
  nonempty : 1 ≤ bytes.length
  short : bytes.length ≤ nameMax
  noNul : 0 ∉ bytes

def FileName.room (n : FileName) : Nat := n.bytes.length + 1

/-! ## The integer of the response -/

def nrFilesShift : Nat := 0

def nrFilesSize : Nat := 16

def errorSize : Nat := 32

def errorShift : Nat := nrFilesSize + nrFilesShift

def hasMoreShift : Nat := errorShift + errorSize

def nrFilesMask : BitVec 64 := ((1 <<< nrFilesSize) - 1) <<< nrFilesShift

def errorMask : BitVec 64 := ((1 <<< errorSize) - 1) <<< errorShift

def hasMoreFlag : BitVec 64 := 1 <<< hasMoreShift

def packRetVal (nrFiles errorCode : BitVec 32) (more : Bool) : BitVec 64 :=
  ((nrFiles <<< nrFilesShift).setWidth 64 &&& nrFilesMask) |||
    ((errorCode <<< errorShift).setWidth 64 &&& errorMask) |||
    (if more then hasMoreFlag else 0#64)

theorem masks_disjoint : errorMask &&& nrFilesMask = 0#64 ∧ hasMoreFlag &&& nrFilesMask = 0#64 ∧
    nrFilesMask &&& hasMoreFlag = 0#64 ∧ errorMask &&& hasMoreFlag = 0#64 := by decide

theorem and_or_distrib (a b c : BitVec 64) : (a ||| b) &&& c = (a &&& c) ||| (b &&& c) := by
  ext i
  simp [Bool.and_or_distrib_right]

theorem packRetVal_nrFiles (nrFiles errorCode : BitVec 32) (more : Bool) :
    ((packRetVal nrFiles errorCode more &&& nrFilesMask) >>> nrFilesShift).toNat =
      nrFiles.toNat % 2 ^ 16 := by
  have hmore : (if more then hasMoreFlag else 0#64) &&& nrFilesMask = 0#64 := by
    cases more
    · decide
    · decide
  have hmask : nrFilesMask.toNat = 2 ^ 16 - 1 := by decide
  simp only [packRetVal, and_or_distrib, hmore, BitVec.and_assoc, masks_disjoint.1, BitVec.and_self,
    nrFilesShift, BitVec.and_zero, BitVec.or_zero, BitVec.shiftLeft_zero, BitVec.ushiftRight_zero]
  rw [BitVec.toNat_and, hmask, Nat.and_two_pow_sub_one_eq_mod, BitVec.toNat_setWidth]
  omega

theorem packRetVal_hasMore (nrFiles errorCode : BitVec 32) (more : Bool) :
    ((packRetVal nrFiles errorCode more &&& hasMoreFlag) == hasMoreFlag) = more := by
  have hmask := masks_disjoint
  simp only [packRetVal, and_or_distrib, BitVec.and_assoc, hmask, BitVec.and_zero, BitVec.zero_or]
  cases more
  · decide
  · decide

/-! ## The backend -/

structure Copied where
  buf : List UInt8
  nrFiles : Nat
  dirents : List FileName

def copyNames : List FileName → List UInt8 → Nat → Copied
  | [], buf, nrFiles => ⟨buf, nrFiles, []⟩
  | n :: ns, buf, nrFiles =>
    if pageSize - buf.length % pageSize > nameMax then
      copyNames ns (buf ++ n.bytes ++ [0]) (nrFiles + 1)
    else ⟨buf, nrFiles, n :: ns⟩

structure Response where
  written : List UInt8
  retVal : BitVec 64

def dispatchList (exported : Bool) (dir : Option (List FileName)) (offset : BitVec 32)
    (errno : BitVec 32) : Response :=
  if exported then
    match dir with
    | none => ⟨[], packRetVal 0 errno false⟩
    | some names =>
      -- the first `offset` entries are read and skipped
      let c := copyNames (names.drop offset.toNat) [] 0
      ⟨c.buf, packRetVal (BitVec.ofNat 32 c.nrFiles) errno (!c.dirents.isEmpty)⟩
  else ⟨[], 0⟩

/-! ## The frontend -/

structure Listed where
  files : List (List UInt8)
  nrFiles : Nat
  hasMore : Bool

def gukFsList (r : Response) (page : List UInt8) (hasMore : Bool) : Listed :=
  let page := r.written ++ page.drop r.written.length
  let nrFiles := ((r.retVal &&& nrFilesMask) >>> nrFilesShift).toNat
  if nrFiles ≤ 0 then ⟨[], nrFiles, hasMore⟩
  else ⟨strings nrFiles page, nrFiles, (r.retVal &&& hasMoreFlag) == hasMoreFlag⟩

structure Surroundings where
  errno : BitVec 32
  page : List UInt8

/-- The caller asks until `hasMore` is 0, each time behind the names it has got.
There is no result when the steps do not suffice or when the backend has written
outside the page. -/
def listing (names : List FileName) : (env : Nat → Surroundings) → (steps : Nat) →
    (offset : BitVec 32) → (hasMore : Bool) → Option (List (List UInt8))
  | _, 0, _, _ => none
  | env, steps + 1, offset, hasMore =>
    let r := dispatchList true (some names) offset (env 0).errno
    if r.written.length ≤ pageSize then
      let l := gukFsList r (env 0).page hasMore
      if l.hasMore then
        (listing names (fun k => env (k + 1)) steps (offset + BitVec.ofNat 32 l.nrFiles)
          l.hasMore).map (l.files ++ ·)
      else some l.files
    else none

/-! ## When the pages come out right -/

def PagesFit : (idx used : Nat) → List FileName → Prop
  | _, _, [] => True
  | idx, used, n :: ns =>
    if used + nameMax < pageSize then PagesFit (idx + 1) (used + n.room) ns
    else used ≠ pageSize ∧ idx < 2 ^ 32 ∧ PagesFit (idx + 1) n.room ns

instance decidablePagesFit (idx used : Nat) (ns : List FileName) :
    Decidable (PagesFit idx used ns) :=
  match ns with
  | [] => .isTrue trivial
  | n :: ns =>
    have := decidablePagesFit (idx + 1) (used + n.room) ns
    have := decidablePagesFit (idx + 1) n.room ns
    inferInstanceAs (Decidable (if used + nameMax < pageSize then
      PagesFit (idx + 1) (used + n.room) ns
      else used ≠ pageSize ∧ idx < 2 ^ 32 ∧ PagesFit (idx + 1) n.room ns))

def namesOf (ns : List FileName) : List (List UInt8) := ns.map (·.bytes)

theorem pagesFit_nil (idx used : Nat) : PagesFit idx used [] := trivial

variable {n : FileName} {ns : List FileName} {buf : List UInt8}

theorem pagesFit_room {idx used : Nat}
    (h : used + nameMax < pageSize) :
    PagesFit idx used (n :: ns) ↔ PagesFit (idx + 1) (used + n.room) ns := by
  simp only [PagesFit, h, if_true]

theorem pagesFit_next {idx used : Nat}
    (h : pageSize ≤ used + nameMax) :
    PagesFit idx used (n :: ns) ↔ used ≠ pageSize ∧ idx < 2 ^ 32 ∧ PagesFit idx 0 (n :: ns) := by
  have h' : ¬ used + nameMax < pageSize := by omega
  rw [pagesFit_room (by decide : 0 + nameMax < pageSize), Nat.zero_add]
  simp only [PagesFit, h', if_false]

structure Fills (idx : Nat) (ns : List FileName) (buf : List UInt8) (k : Nat)
    (taken rest : List FileName) : Prop where
  split : ns = taken ++ rest
  copied : copyNames ns buf k = ⟨buf ++ terminated (namesOf taken), k + taken.length, rest⟩
  fit : buf.length ≤ pageSize →
    (PagesFit idx buf.length ns ↔
      (buf ++ terminated (namesOf taken)).length ≤ pageSize ∧
        (rest = [] ∨ idx + taken.length < 2 ^ 32 ∧ PagesFit (idx + taken.length) 0 rest))

theorem Fills.cons {idx k : Nat} {taken rest : List FileName}
    (hroom : pageSize - buf.length % pageSize > nameMax)
    (h : Fills (idx + 1) ns (buf ++ n.bytes ++ [0]) (k + 1) taken rest) :
    Fills idx (n :: ns) buf k (n :: taken) rest := by
  have hbytes : buf ++ n.bytes ++ [0] ++ terminated (namesOf taken) =
      buf ++ terminated (namesOf (n :: taken)) := by
    simp [namesOf]
  have hcount : k + 1 + taken.length = k + (n :: taken).length := by
    simp only [length_cons]
    omega
  have hidx : idx + 1 + taken.length = idx + (n :: taken).length := by
    simp only [length_cons]
    omega
  have hnew : (buf ++ n.bytes ++ [0]).length = buf.length + n.room := by
    simp [FileName.room]
  refine ⟨by rw [h.split, cons_append], ?_, fun hbuf => ?_⟩
  · simp only [copyNames, hroom, if_true]
    rw [h.copied, hbytes, hcount]
  · have hshort := n.short
    have hfit := h.fit
    rw [hnew, hbytes, hidx] at hfit
    by_cases hfull : buf.length = pageSize
    · rw [pagesFit_next (by omega)]
      apply iff_of_false
      · exact fun hne => hne.1 hfull
      · intro hle
        have hle := hle.1
        rw [← hbytes, length_append, hnew] at hle
        simp only [FileName.room] at hle
        omega
    · have hlt : buf.length + nameMax < pageSize := by
        rw [Nat.mod_eq_of_lt (by omega)] at hroom
        omega
      rw [pagesFit_room hlt]
      apply hfit
      simp only [FileName.room]
      omega

theorem Fills.stop {idx k : Nat}
    (hroom : ¬ pageSize - buf.length % pageSize > nameMax) :
    Fills idx (n :: ns) buf k [] (n :: ns) := by
  refine ⟨rfl, by simp [copyNames, hroom, namesOf], fun hbuf => ?_⟩
  have hne : buf.length ≠ pageSize := by
    intro heq
    rw [heq, Nat.mod_self] at hroom
    exact hroom (by decide)
  have hlow : pageSize ≤ buf.length + nameMax := by
    rw [Nat.mod_eq_of_lt (by omega)] at hroom
    omega
  rw [pagesFit_next hlow]
  simp [namesOf, hne, hbuf]

theorem exists_fills (idx : Nat) (ns : List FileName) (buf : List UInt8) (k : Nat) :
    ∃ taken rest, Fills idx ns buf k taken rest := by
  induction ns generalizing idx buf k with
  | nil =>
    refine ⟨[], [], rfl, by simp [copyNames, namesOf], fun hbuf => ?_⟩
    simpa [pagesFit_nil, namesOf] using hbuf
  | cons n ns ih =>
    by_cases hroom : pageSize - buf.length % pageSize > nameMax
    · obtain ⟨taken, rest, h⟩ := ih (idx + 1) (buf ++ n.bytes ++ [0]) (k + 1)
      exact ⟨n :: taken, rest, h.cons hroom⟩
    · exact ⟨[], n :: ns, .stop hroom⟩

/-! ## One call -/

theorem two_mul_length_le (ns : List FileName) :
    2 * ns.length ≤ (terminated (namesOf ns)).length := by
  induction ns with
  | nil => exact le_rfl
  | cons n ns ih =>
    have hn := n.nonempty
    simp only [namesOf, map_cons, terminated_cons, length_cons, length_append] at *
    omega

theorem noNul_namesOf (ns : List FileName) : ∀ s ∈ namesOf ns, 0 ∉ s := by
  intro s hs
  obtain ⟨n, _, rfl⟩ := List.mem_map.mp hs
  exact n.noNul

section Call

variable {names taken rest : List FileName} {env : Nat → Surroundings} {offset : BitVec 32}
  {steps idx : Nat}

section

variable (h : Fills idx (names.drop offset.toNat) [] 0 taken rest)

include h

theorem gukFsList_eq (hpage : (terminated (namesOf taken)).length ≤ pageSize) (htaken : taken ≠ [])
    (errno : BitVec 32) (page : List UInt8) (hasMore : Bool) :
    gukFsList (dispatchList true (some names) offset errno) page hasMore =
      ⟨namesOf taken, taken.length, !rest.isEmpty⟩ := by
  have hcount : taken.length < 2 ^ 16 := by
    have := two_mul_length_le taken
    simp only [pageSize] at hpage
    omega
  have hpos : taken.length ≠ 0 := by simpa using htaken
  have hnr : (BitVec.ofNat 32 taken.length).toNat % 2 ^ 16 = taken.length := by
    rw [BitVec.toNat_ofNat]
    omega
  have hstrings := strings_terminated (noNul_namesOf taken)
  simp only [namesOf, length_map] at hstrings
  simp only [gukFsList, dispatchList, if_true, h.copied, packRetVal_nrFiles, packRetVal_hasMore,
    nil_append, Nat.zero_add, hnr, Nat.le_zero_eq, hpos, if_false, namesOf, hstrings]

theorem written_eq (errno : BitVec 32) :
    (dispatchList true (some names) offset errno).written = terminated (namesOf taken) := by
  simp [dispatchList, h.copied]

theorem listing_inside
    (hpage : (terminated (namesOf taken)).length ≤ pageSize) (htaken : taken ≠ [])
    (hasMore : Bool) :
    listing names env (steps + 1) offset hasMore =
      if rest = [] then some (namesOf taken)
      else (listing names (fun k => env (k + 1)) steps (offset + BitVec.ofNat 32 taken.length)
        true).map (namesOf taken ++ ·) := by
  simp only [listing, written_eq h, hpage, if_true, gukFsList_eq h hpage htaken]
  cases rest with
  | nil | cons n ns => simp

theorem listing_outside
    (hpage : ¬ (terminated (namesOf taken)).length ≤ pageSize) (hasMore : Bool) :
    listing names env (steps + 1) offset hasMore = none := by
  simp only [listing, written_eq h, hpage, if_false]

end

theorem listing_empty (h : names.length ≤ offset.toNat) (hasMore : Bool) :
    listing names env (steps + 1) offset hasMore =
      if hasMore then listing names (fun k => env (k + 1)) steps offset hasMore else some [] := by
  have hdrop := drop_eq_nil_of_le h
  have hnr : ((BitVec.ofNat 32 0).toNat % 2 ^ 16) = 0 := rfl
  simp only [listing, dispatchList, if_true, hdrop, copyNames, length_nil, Nat.zero_le,
    gukFsList, packRetVal_nrFiles, hnr, le_refl]
  split
  · simp
  · rfl

theorem exists_fills_call (h : offset.toNat < names.length) :
    ∃ taken rest, taken ≠ [] ∧ Fills offset.toNat (names.drop offset.toNat) [] 0 taken rest := by
  cases hns : names.drop offset.toNat with
  | nil =>
    rw [drop_eq_nil_iff] at hns
    omega
  | cons n ns =>
    obtain ⟨taken, rest, hf⟩ := exists_fills (offset.toNat + 1) ns ([] ++ n.bytes ++ [0]) (0 + 1)
    exact ⟨n :: taken, rest, cons_ne_nil n taken, hf.cons (by decide)⟩

theorem drop_next (h : names.drop offset.toNat = taken ++ rest)
    (hidx : offset.toNat + taken.length < 2 ^ 32) :
    (offset + BitVec.ofNat 32 taken.length).toNat = offset.toNat + taken.length ∧
      names.drop (offset + BitVec.ofNat 32 taken.length).toNat = rest := by
  have hto : (offset + BitVec.ofNat 32 taken.length).toNat = offset.toNat + taken.length := by
    rw [BitVec.toNat_add, BitVec.toNat_ofNat]
    omega
  constructor
  · exact hto
  · rw [hto, ← drop_drop, h, drop_left]

end Call

/-! ## The whole listing -/

section Listing

variable {names : List FileName} {env : Nat → Surroundings} {offset : BitVec 32} {hasMore : Bool}

theorem exists_listing (hlt : offset.toNat < names.length)
    (hfit : PagesFit offset.toNat 0 (names.drop offset.toNat)) :
    ∃ steps, listing names env steps offset hasMore = some (namesOf (names.drop offset.toNat)) := by
  -- on the number of entries that remain
  induction hk : names.length - offset.toNat using Nat.strongRecOn
    generalizing env offset hasMore with
  | ind k ih =>
    obtain ⟨taken, rest, htaken, hf⟩ := exists_fills_call hlt
    obtain ⟨hpage, hrest⟩ := (hf.fit (Nat.zero_le _)).mp hfit
    by_cases hnil : rest = []
    · refine ⟨1, ?_⟩
      rw [listing_inside hf hpage htaken, if_pos hnil, hf.split, hnil, append_nil]
    · obtain ⟨hidx, hfit'⟩ := hrest.resolve_left hnil
      obtain ⟨hto, hdrop⟩ := drop_next hf.split hidx
      have hlen := congrArg List.length hf.split
      rw [length_drop, length_append] at hlen
      have hpos := length_pos_of_ne_nil htaken
      have hrpos := length_pos_of_ne_nil hnil
      have hnext : ∃ steps, listing names (fun k => env (k + 1)) steps
          (offset + BitVec.ofNat 32 taken.length) true =
          some (namesOf (names.drop (offset + BitVec.ofNat 32 taken.length).toNat)) := by
        apply ih _ _ _ _ rfl
        · omega
        · omega
        · rw [hdrop, hto]
          exact hfit'
      obtain ⟨steps, hs⟩ := hnext
      refine ⟨steps + 1, ?_⟩
      rw [listing_inside hf hpage htaken, if_neg hnil, hs, hdrop, hf.split]
      simp [namesOf]

theorem length_le_of_listing {steps : Nat} {l : List (List UInt8)}
    (h : listing names env steps offset hasMore = some l) :
    names.length ≤ offset.toNat + l.length := by
  induction steps generalizing env offset hasMore l with
  | zero => cases h
  | succ steps ih =>
    by_cases hlt : offset.toNat < names.length
    · obtain ⟨taken, rest, htaken, hf⟩ := exists_fills_call hlt
      have hlen := congrArg List.length hf.split
      rw [length_drop, length_append] at hlen
      by_cases hpage : (terminated (namesOf taken)).length ≤ pageSize
      · rw [listing_inside hf hpage htaken] at h
        split at h
        · rename_i hnil
          cases h
          simp only [hnil, length_nil, namesOf, length_map] at hlen ⊢
          omega
        · obtain ⟨l', hl', rfl⟩ := Option.map_eq_some_iff.mp h
          have hrec := ih hl'
          rw [BitVec.toNat_add, BitVec.toNat_ofNat] at hrec
          simp only [namesOf, length_append, length_map]
          omega
      · rw [listing_outside hf hpage] at h
        cases h
    · omega

theorem pagesFit_of_listing {steps : Nat}
    (h : listing names env steps offset hasMore = some (namesOf (names.drop offset.toNat))) :
    PagesFit offset.toNat 0 (names.drop offset.toNat) ∧
      (offset.toNat < names.length ∨ hasMore = false) := by
  induction steps generalizing env offset hasMore with
  | zero => cases h
  | succ steps ih =>
    by_cases hlt : offset.toNat < names.length
    · obtain ⟨taken, rest, htaken, hf⟩ := exists_fills_call hlt
      refine ⟨?_, .inl hlt⟩
      have hlen := congrArg List.length hf.split
      rw [length_drop, length_append] at hlen
      by_cases hpage : (terminated (namesOf taken)).length ≤ pageSize
      · refine (hf.fit (Nat.zero_le _)).mpr ⟨hpage, ?_⟩
        rw [listing_inside hf hpage htaken] at h
        split at h
        · rename_i hnil
          exact .inl hnil
        · obtain ⟨l', hl', happ⟩ := Option.map_eq_some_iff.mp h
          rw [hf.split, namesOf, namesOf, map_append, append_cancel_left_eq] at happ
          -- had the number of the next entry wrapped around, too many names would follow
          have hall := length_le_of_listing hl'
          rw [happ, length_map, BitVec.toNat_add, BitVec.toNat_ofNat] at hall
          have hidx : offset.toNat + taken.length < 2 ^ 32 := by omega
          obtain ⟨hto, hdrop⟩ := drop_next hf.split hidx
          have hnext : listing names (fun k => env (k + 1)) steps
              (offset + BitVec.ofNat 32 taken.length) true =
              some (namesOf (names.drop (offset + BitVec.ofNat 32 taken.length).toNat)) := by
            rw [hl', happ, hdrop]
            rfl
          have hrec := (ih hnext).1
          rw [hdrop, hto] at hrec
          exact .inr ⟨hidx, hrec⟩
      · rw [listing_outside hf hpage] at h
        cases h
    · have hle : names.length ≤ offset.toNat := by omega
      refine ⟨by rw [drop_eq_nil_of_le hle]; exact pagesFit_nil _ _, ?_⟩
      rw [listing_empty hle] at h
      cases hasMore with
      | false => exact .inr rfl
      | true => exact (ih h).2

end Listing

def Complete (names : List FileName) (env : Nat → Surroundings) (offset : BitVec 32)
    (hasMore : Bool) : Prop :=
  (∀ errno, (dispatchList true (some names) offset errno).written.length ≤ pageSize) ∧
    ∃ steps, listing names env steps offset hasMore = some (namesOf (names.drop offset.toNat))

theorem directory_listing_complete_iff (names : List FileName) (env : Nat → Surroundings)
    (offset : BitVec 32) (hasMore : Bool) :
    Complete names env offset hasMore ↔
      PagesFit offset.toNat 0 (names.drop offset.toNat) ∧
        (offset.toNat < names.length ∨ hasMore = false) := by
  constructor
  · rintro ⟨-, steps, h⟩
    exact pagesFit_of_listing h
  · rintro ⟨hfit, hstart⟩
    by_cases hlt : offset.toNat < names.length
    · obtain ⟨taken, rest, -, hf⟩ := exists_fills_call hlt
      constructor
      · intro errno
        rw [written_eq hf]
        exact ((hf.fit (Nat.zero_le _)).mp hfit).1
      · exact exists_listing hlt hfit
    · have hle : names.length ≤ offset.toNat := by omega
      have hdrop := drop_eq_nil_of_le hle
      constructor
      · intro errno
        simp [dispatchList, hdrop, copyNames]
      · refine ⟨1, ?_⟩
        rw [listing_empty hle, hstart.resolve_left hlt, hdrop]
        rfl

def longName (i : Fin 17) : FileName where
  bytes := UInt8.ofNat (65 + i) :: List.replicate 254 97
  nonempty := Nat.le_add_left 1 _
  short := by
    rw [length_cons, length_replicate]
    decide
  noNul := by
    rw [mem_cons, mem_replicate, not_or]
    constructor
    · revert i
      decide
    · exact fun h => absurd h.2 (by decide)

def longNames : List FileName := (List.finRange 17).map longName

theorem directory_listing_complete_full_page :
    Complete (longNames.take 16) (fun _ => ⟨0, []⟩) 0 true :=
  (directory_listing_complete_iff (longNames.take 16) (fun _ => ⟨0, []⟩) 0 true).mpr
    ⟨by decide +kernel, .inl (by decide +kernel)⟩

theorem written_start (names : List FileName) (errno : BitVec 32) :
    (dispatchList true (some names) 0 errno).written = (copyNames names [] 0).buf := rfl

theorem length_copyNames_long (ns : List FileName) (hns : ∀ n ∈ ns, n.bytes.length = nameMax)
    (buf : List UInt8) (hbuf : buf.length % 256 = 0) (k : Nat) :
    (copyNames ns buf k).buf.length = buf.length + 256 * ns.length := by
  induction ns generalizing buf k with
  | nil => rfl
  | cons n ns ih =>
    have hn : n.bytes.length = 255 := hns n mem_cons_self
    have hnew : (buf ++ n.bytes ++ [0]).length = buf.length + 256 := by simp [hn]
    have hroom : pageSize - buf.length % pageSize > nameMax := by
      simp only [pageSize, nameMax]
      omega
    rw [copyNames, if_pos hroom, ih (fun n h => hns n (mem_cons_of_mem _ h)) _ (by omega), hnew,
      length_cons]
    omega

/-- Sixteen names of 255 bytes fill the page; the seventeenth is written behind it.
Nothing is left to list in an empty directory, and a caller whose variable was not
0 never learns it. -/
theorem listing_incomplete :
    (dispatchList true (some longNames) 0 0).written.length = pageSize + 256 ∧
      ∀ env steps, listing [] env steps 0 true = none := by
  constructor
  · have hlong : ∀ n ∈ longNames, n.bytes.length = nameMax := by
      intro n hn
      obtain ⟨i, -, rfl⟩ := List.mem_map.mp hn
      show (_ :: List.replicate 254 _).length = 255
      rw [length_cons, length_replicate]
    have hcount : longNames.length = 17 := by rw [longNames, length_map, length_finRange]
    rw [written_start, length_copyNames_long longNames hlong [] rfl 0, hcount]
    rfl
  · intro env steps
    induction steps generalizing env with
    | zero => rfl
    | succ steps ih => exact (listing_empty (Nat.zero_le _) true).trans (ih _)

end Guk.FsList
