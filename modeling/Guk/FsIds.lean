import Guk.FsOps

/-!
# The ids of the FS frontend over sequences of calls

A call that takes an id and puts it back leaves the free list exactly as it was, so
the next call takes the same id again. The id of a `guk_fs_list` without files stays
out for good.
-/
namespace Guk.FsOps

open Chain FsFreelist FsList Function

variable {backend : Backend} {m m' : Import} {c : Call} {calls : List Call} {n : Nat}

def OnFreelist (m : Import) (id : Nat) : Prop := ∃ k, m.freelist^[k] (m.freelist 0) = id

def Conserved (backend : Backend) : Import → List Call → Prop
  | _, [] => True
  | m, c :: calls => ∀ m', step backend m c = some m' →
      (∀ id, OnFreelist m' id ↔ OnFreelist m id) ∧ Conserved backend m' calls

def nextNrFiles (backend : Backend) (m : Import) : Nat :=
  (((backend m.sent.length).retVal &&& nrFilesMask) >>> nrFilesShift).toNat

def EmptyListing (backend : Backend) (m : Import) : Call → Prop
  | .list _ _ _ => nextNrFiles backend m = 0
  | _ => False

def NoEmptyListing (backend : Backend) : Import → List Call → Prop
  | _, [] => True
  | m, c :: calls => ¬EmptyListing backend m c ∧
      ∀ m', step backend m c = some m' → NoEmptyListing backend m' calls

/-! ## One call -/

theorem addIdToFreelist_getIdFromFreelist {f : Nat → Nat} (h : f 0 < 65536) :
    addIdToFreelist (getIdFromFreelist f).2 (getIdFromFreelist f).1 = f := by
  have hshort : short (f 0) = f 0 := Nat.mod_eq_of_lt h
  funext i
  simp only [addIdToFreelist, getIdFromFreelist, update_self, hshort]
  by_cases h0 : i = 0
  · rw [h0, update_self]
  · rw [update_of_ne h0]
    by_cases hi : i = f 0
    · rw [hi, update_self]
    · rw [update_of_ne hi, update_of_ne h0]

theorem release_exchange_freelist (backend : Backend) (h : m.freelist 0 < 65536)
    (fill : List UInt8 → List UInt8) (r : Request) :
    (release (exchange backend fill r m).1 (exchange backend fill r m).2.2).freelist = m.freelist :=
  addIdToFreelist_getIdFromFreelist h

theorem oneRequest_freelist (backend : Backend) (h : m.freelist 0 < 65536)
    (fill : List UInt8 → List UInt8) (r : Request) :
    (oneRequest backend fill r m).2.freelist = m.freelist :=
  release_exchange_freelist backend h fill r

theorem gukFsList_freelist {name : List UInt8} {offset : Int} {hasMore : Bool} :
    (gukFsList backend name offset hasMore m).2.freelist =
      if nextNrFiles backend m = 0 then (getIdFromFreelist m.freelist).2
      else addIdToFreelist (getIdFromFreelist m.freelist).2 (getIdFromFreelist m.freelist).1 := by
  unfold gukFsList
  dsimp only
  split
  case isTrue hle =>
    have hfiles : nextNrFiles backend m = 0 := Nat.le_zero.mp hle
    rw [if_pos hfiles]
    rfl
  case isFalse hle =>
    have hfiles : nextNrFiles backend m ≠ 0 := fun hfiles => hle (le_of_eq hfiles)
    rw [if_neg hfiles]
    rfl

theorem readLoop_freelist {fd len chunkOffset ret : Int} {bufOffset : Nat} {buf : Buffer}
    (h : m.freelist 0 < 65536) :
    (readLoop backend fd len chunkOffset bufOffset ret buf m).imp.freelist = m.freelist := by
  induction hn :
    len.toNat using Nat.strong_induction_on generalizing len chunkOffset bufOffset ret buf m with
  | _ n ih =>
    by_cases hlen : 0 < len
    · have hkeep : (afterChunk backend fd len chunkOffset m).freelist = m.freelist :=
        release_exchange_freelist backend h _ _
      by_cases hret : 0 < chunkRet backend m
      · rw [readLoop_next hlen hret, ih _ (hn ▸ restOf_lt hlen) (hkeep ▸ h) rfl, hkeep]
      · rw [readLoop_stop hlen (Int.not_lt.mp hret), hkeep]
    · rw [readLoop_done (Int.not_lt.mp hlen)]

theorem step_freelist (hfit : m.freelist 0 < 65536) (hs : step backend m c = some m')
    (hc : ¬EmptyListing backend m c) : m'.freelist = m.freelist := by
  cases c with
  | read fd buf len offset =>
    obtain rfl := Option.some.inj hs
    exact readLoop_freelist hfit
  | write fd data len offset =>
    simp only [step, gukFsWrite] at hs
    split at hs
    · cases hs
    · rw [Option.map_some, Option.some.injEq] at hs
      rw [← hs, oneRequest_freelist backend hfit]
  | list name offset hasMore =>
    have hfiles : nextNrFiles backend m ≠ 0 := hc
    obtain rfl := Option.some.inj hs
    rw [gukFsList_freelist, if_neg hfiles, addIdToFreelist_getIdFromFreelist hfit]
  | _ =>
    obtain rfl := Option.some.inj hs
    exact release_exchange_freelist backend hfit _ _

theorem step_emptyListing (hc : EmptyListing backend m c) :
    ∃ m', step backend m c = some m' ∧
      m'.freelist = update m.freelist 0 (m.freelist (m.freelist 0)) := by
  cases c with
  | list name offset hasMore =>
    have hfiles : nextNrFiles backend m = 0 := hc
    refine ⟨_, rfl, ?_⟩
    rw [gukFsList_freelist, if_pos hfiles]
    rfl
  | _ => exact absurd hc id

/-! ## Sequences of calls -/

theorem onFreelist_congr (h : m'.freelist = m.freelist) (id : Nat) :
    OnFreelist m' id ↔ OnFreelist m id := by
  rw [OnFreelist, OnFreelist, h]

theorem conserved_of_steps {P : Import → List Call → Prop} (hfit : m.freelist 0 < 65536)
    (hstep : ∀ m c calls m', P m (c :: calls) → m.freelist 0 < 65536 → step backend m c = some m' →
      m'.freelist = m.freelist ∧ P m' calls)
    (h : P m calls) : Conserved backend m calls := by
  induction calls generalizing m with
  | nil => trivial
  | cons c calls ih =>
    intro m' hs
    obtain ⟨hkeep, hP⟩ := hstep m c calls m' h hfit hs
    exact ⟨onFreelist_congr hkeep, ih (hkeep ▸ hfit) hP⟩

theorem conserved_of_noEmptyListing (hfit : m.freelist 0 < 65536)
    (h : NoEmptyListing backend m calls) :
    Conserved backend m calls := by
  refine conserved_of_steps hfit (fun m c calls m' h hfit hs => ?_) h
  exact ⟨step_freelist hfit hs h.1, h.2 m' hs⟩

theorem conserved_of_empty (h : m.freelist 0 = 0) : Conserved backend m calls := by
  refine conserved_of_steps (P := fun m _ => m.freelist 0 = 0) (by omega)
    (fun m c calls m' h hfit hs => ?_) h
  have hkeep : m'.freelist = m.freelist := by
    by_cases hc : EmptyListing backend m c
    · obtain ⟨_, hs', hf⟩ := step_emptyListing hc
      obtain rfl := Option.some.inj (hs.symm.trans hs')
      rw [hf, h, update_eq_self]
    · exact step_freelist hfit hs hc
  exact ⟨hkeep, hkeep ▸ h⟩

theorem emptyListing_loses (hids : FreeIds n m.freelist fun _ => False) (hne : m.freelist 0 ≠ 0)
    (hf : m'.freelist = update m.freelist 0 (m.freelist (m.freelist 0))) :
    OnFreelist m (m.freelist 0) ∧ ¬OnFreelist m' (m.freelist 0) := by
  obtain ⟨_, htaken⟩ := freeIds_take hids hne
  rw [← hf] at htaken
  refine ⟨⟨0, rfl⟩, fun hon => ?_⟩
  obtain h0 | ⟨_, _, hout⟩ := (freeIds_iterate htaken).mp hon
  · exact hne h0
  · exact hout (.inr rfl)

theorem noEmptyListing_of_conserved (hfit : m.freelist 0 < 65536)
    (hids : FreeIds n m.freelist fun _ => False)
    (hne : m.freelist 0 ≠ 0) (h : Conserved backend m calls) : NoEmptyListing backend m calls := by
  induction calls generalizing m with
  | nil => trivial
  | cons c calls ih =>
    have hc : ¬EmptyListing backend m c := by
      intro hc
      obtain ⟨m', hs, hf⟩ := step_emptyListing hc
      obtain ⟨hon, hoff⟩ := emptyListing_loses hids hne hf
      exact hoff (((h m' hs).1 _).mpr hon)
    refine ⟨hc, fun m' hs => ?_⟩
    have hkeep := step_freelist hfit hs hc
    exact ih (hkeep ▸ hfit) (hkeep ▸ hids) (hkeep ▸ hne) (h m' hs).2

theorem freeIds_head (hfit : n ≤ 65536) (hids : FreeIds n m.freelist fun _ => False) :
    m.freelist 0 < 65536 ∧ (m.freelist 0 = 0 ↔ n ≤ 1) := by
  have hhead := (freeIds_iterate hids).mp (⟨0, rfl⟩ : OnFreelist m (m.freelist 0))
  refine ⟨by omega, fun h0 => ?_, fun hn => by omega⟩
  have hlen : n - 1 ≤ ([] : List Nat).length :=
    freeIds_empty (freeIds_congr (fun i => by simp) hids) h0
  simp only [List.length_nil] at hlen
  omega

/-- The ids are conserved by every call of a sequence exactly if no listing has been answered with
no files, or if there is only id 0. -/
theorem ids_conserved_iff (n : Nat) (hfit : n ≤ 65536) (page : Nat → List UInt8) (backend : Backend)
    (calls : List Call) :
    Conserved backend (allocImport n page) calls ↔
      n ≤ 1 ∨ NoEmptyListing backend (allocImport n page) calls := by
  have hids : FreeIds n (allocImport n page).freelist fun _ => False :=
    freeIds_alloc hfit fun _ => id
  obtain ⟨hhead, hzero⟩ := freeIds_head hfit hids
  constructor
  · intro h
    by_cases hn : n ≤ 1
    · exact .inl hn
    · exact .inr (noEmptyListing_of_conserved hhead hids (fun h0 => hn (hzero.mp h0)) h)
  · rintro (hn | h)
    · exact conserved_of_empty (hzero.mpr hn)
    · exact conserved_of_noEmptyListing hhead h

theorem ids_conserved_one_file : 64 ≤ 65536 ∧
    Conserved (fun _ => ⟨[97, 0], 1⟩) (allocImport 64 fun _ => [])
      [.open [97] 0, .list [98] 0 false] := by
  refine ⟨by decide, (ids_conserved_iff 64 (by decide) _ _ _).mpr (.inr ?_)⟩
  exact ⟨id, fun m _ => ⟨by simp only [EmptyListing, nextNrFiles]; decide, fun m' _ => trivial⟩⟩

/-- With two requests, one listing of an empty directory takes the only id above 0 away. -/
theorem ids_lost :
    ¬∀ n ≤ 65536, ∀ (page : Nat → List UInt8) (backend : Backend) (calls : List Call),
    Conserved backend (allocImport n page) calls := by
  intro hall
  have h := hall 2 (by decide) (fun _ => []) (fun _ => ⟨[], 0⟩) [.list [98] 0 false]
  obtain ⟨k, hk⟩ := ((h _ rfl).1 1).mpr ⟨0, rfl⟩
  have hfixed : ∀ k, (update (allocRequestTable 2) 0 0)^[k] 0 = 0 :=
    fun k => iterate_fixed (update_self ..) k
  exact absurd ((hfixed k).symm.trans hk) (by decide)

end Guk.FsOps
