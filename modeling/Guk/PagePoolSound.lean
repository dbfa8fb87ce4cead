import Guk.PagePoolRules

/-!
# What holds of the pool in every run

The invariant of `Guk.PagePoolInv` needs conditions on the steps; what this module says
holds of every run.
-/
namespace Guk.PagePool

open Runs List

variable {s t : Pool} {b newPage : Bool} {n page k rc : Nat} {hole new : Hole} {rest : List Hole}
  {xen : Xen}

structure Sound (k : Nat) (s : Pool) : Prop where
  pos : 1 ≤ s.firstBulkPage
  bulk_le : s.firstBulkPage ≤ s.endAllocPage
  end_le : s.endAllocPage ≤ s.maxEndAllocPage
  range : ∀ h ∈ s.memoryHoleList, h.startPfn ≤ h.endPfn ∧ h.endPfn ≤ s.maxEndAllocPage
  ids : (s.memoryHoleList.map Hole.id).Nodup
  below : ∀ h ∈ s.memoryHoleList, h.id < k
  next : k ≤ s.nextId

theorem Sound.now (h : Sound k s) : Sound s.nextId s :=
  { h with below := fun a ha => lt_of_lt_of_le (h.below a ha) h.next, next := le_rfl }

theorem sound_flag {f : Bool} (h : Sound k s) : Sound k { s with inIncreaseMemory := f } :=
  { h with }

@[simp] theorem take_nextId : (take s b page n).nextId = s.nextId := by
  cases b <;> rfl

theorem sound_take (h : Sound k s) : Sound k (take s b page n) := by
  cases b <;> exact { h with }

theorem sound_deallocate (h : Sound k s) : Sound k (giveBack s page n) := by
  rw [giveBack_eq]
  exact { h with }

theorem recordIncrease_records (h : Sound k s) (hl : s.memoryHoleList = hole :: rest) :
    (recordIncrease s hole hole.size rc).memoryHoleList =
      if hole.size = rc then rest else { hole with startPfn := hole.startPfn + rc } :: rest := by
  have hids := h.ids
  rw [hl, map_cons] at hids
  have hne : ∀ a ∈ rest, a ≠ hole := by
    rintro a ha rfl
    exact (List.nodup_cons.mp hids).1 (mem_map_of_mem ha)
  have hsame :
      (rest.map fun a => if a = hole then { a with startPfn := hole.startPfn + rc } else a) =
      rest := by
    rw [map_congr_left (g := id), map_id]
    intro a ha
    rw [if_neg (hne a ha), id]
  change (if hole.size = rc then s.memoryHoleList.erase hole else s.memoryHoleList.map _) = _
  rw [hl, erase_cons_head, map_cons, if_pos rfl, hsame]

theorem sound_recordIncrease (h : Sound k s) (hl : s.memoryHoleList = hole :: rest)
    (hle : rc ≤ hole.size) :
    Sound k (recordIncrease s hole hole.size rc) := by
  have hids := h.ids
  have hbelow := h.below
  have hrange := h.range
  rw [hl] at hids hbelow hrange
  have hfirst := hrange hole mem_cons_self
  have hend :
      (recordIncrease s hole hole.size rc).endAllocPage = max s.endAllocPage (hole.startPfn + rc) :=
    recordIncrease_endAllocPage
  have hend_le := h.end_le
  have hbulk_le := h.bulk_le
  unfold Hole.size at hle
  refine ⟨h.pos, ?_, ?_, ?_, ?_, ?_, h.next⟩
  · rw [hend]
    exact le_trans hbulk_le (Nat.le_max_left _ _)
  · rw [hend]
    change _ ≤ s.maxEndAllocPage
    omega
  · rw [recordIncrease_records h hl]
    intro a ha
    change a.startPfn ≤ a.endPfn ∧ a.endPfn ≤ s.maxEndAllocPage
    split at ha
    · exact hrange a (mem_cons_of_mem _ ha)
    · cases ha with
      | head =>
        simp only
        omega
      | tail _ ha => exact hrange a (mem_cons_of_mem _ ha)
  · rw [recordIncrease_records h hl]
    split
    · exact (List.nodup_cons.mp hids).2
    · exact hids
  · rw [recordIncrease_records h hl]
    intro a ha
    split at ha
    · exact hbelow a (mem_cons_of_mem _ ha)
    · cases ha with
      | head => exact hbelow hole mem_cons_self
      | tail _ ha => exact hbelow a (mem_cons_of_mem _ ha)

theorem steady_sound (k : Nat) : Steady (Sound k) where
  flag _ _ h := sound_flag h
  take _ _ _ _ h := sound_take h
  grow _ _ _ _ h hl _ hle := sound_recordIncrease h hl hle

theorem ids_memoryHoleAdd (new : Hole) (holes : List Hole) :
    ((memoryHoleAdd new holes).map Hole.id).Perm (new.id :: holes.map Hole.id) := by
  induction holes with
  | nil => exact List.Perm.refl _
  | cons h holes ih =>
    rw [memoryHoleAdd]
    split
    · exact List.Perm.refl _
    · rw [map_cons, map_cons]
      exact (List.Perm.cons _ ih).trans (List.Perm.swap _ _ _)

theorem ids_recordDecrease (h : Sound k s) (hid : new.id = k) :
    ((recordDecrease s new).memoryHoleList.map Hole.id).Nodup := by
  have hadd : (new.id :: s.memoryHoleList.map Hole.id).Nodup := by
    apply List.nodup_cons.mpr
    refine ⟨?_, h.ids⟩
    intro hmem
    obtain ⟨a, ha, heq⟩ := List.mem_map.mp hmem
    have := h.below a ha
    omega
  simp only [recordDecrease, removePages]
  split
  · exact pairwise_singleton _ _
  case h_2 head rest hl =>
    have hids := h.ids
    rw [hl] at hids
    split
    · rw [← hl]
      exact (ids_memoryHoleAdd new s.memoryHoleList).nodup_iff.mpr hadd
    · exact hids

theorem sound_recordDecrease (h : Sound k s) (hid : new.id = k) (hk : k + 1 ≤ s.nextId)
    (hrun : BulkRun s new) : Sound (k + 1) (recordDecrease s new) := by
  have hlow := hrun.low
  have hpos := hrun.pos
  have hhigh := hrun.high
  have hend_le := h.end_le
  have hbulk_le := h.bulk_le
  have hend := hrun.endAllocPage
  refine ⟨h.pos, ?_, ?_, ?_, ids_recordDecrease h hid, ?_, hk⟩
  · rw [hend]
    change s.firstBulkPage ≤ _
    split <;> omega
  · rw [hend]
    change _ ≤ s.maxEndAllocPage
    split <;> omega
  · intro a ha
    change a.startPfn ≤ a.endPfn ∧ a.endPfn ≤ s.maxEndAllocPage
    rcases mem_recordDecrease ha with ha | rfl | ⟨head, rest, hl, heq, rfl⟩
    · exact h.range a ha
    · omega
    · have hhead := h.range head (hl ▸ mem_cons_self)
      simp only
      omega
  · intro a ha
    rcases mem_recordDecrease ha with ha | rfl | ⟨head, rest, hl, heq, rfl⟩
    · exact Nat.lt_succ_of_lt (h.below a ha)
    · rw [hid]
      exact Nat.lt_succ_self k
    · exact Nat.lt_succ_of_lt (h.below head (hl ▸ mem_cons_self))

theorem sound_xmallocRecord {r : Option Nat} (h : Sound k s)
    (hr : xmallocRecord { s with nextId := k + 1 } newPage xen = some (t, r)) :
    Sound k t ∧ k + 1 ≤ t.nextId ∧ t.firstBulkPage = s.firstBulkPage ∧
      s.endAllocPage ≤ t.endAllocPage := by
  have hsteady : Steady fun t => Sound k t ∧ k + 1 ≤ t.nextId ∧ t.firstBulkPage = s.firstBulkPage ∧
      s.endAllocPage ≤ t.endAllocPage := by
    refine ⟨fun s f h => ⟨sound_flag h.1, h.2⟩, ?_, ?_⟩
    · intro u b page n h
      rw [take_nextId, take_firstBulkPage, take_endAllocPage]
      exact ⟨sound_take h.1, h.2⟩
    · intro u hole rest rc h hl hrc hle
      refine ⟨sound_recordIncrease h.1 hl hle, h.2.1, h.2.2.1, ?_⟩
      rw [recordIncrease_endAllocPage]
      exact le_trans h.2.2.2 (Nat.le_max_left _ _)
  exact hsteady.xmallocRecord (s := { s with nextId := k + 1 })
    ⟨{ h with next := Nat.le_succ k }, le_rfl, rfl, le_rfl⟩ hr

theorem sound_decreaseRound {d d' : Decrease} (h : Sound s.nextId s)
    (hmore : d.more s = true) (hpage : d.page < s.endAllocPage)
    (hr : decreaseRound s d newPage xen = some (t, d')) :
    Sound t.nextId t ∧ d'.page < t.endAllocPage := by
  rcases decreaseRound_cases hr with ⟨-, rfl, hd'⟩ | ⟨hfree, u, r, hx, rfl, hd'⟩
  · exact ⟨h, by omega⟩
  · have hrun := freeHole_of_round h.pos hmore hpage hfree
    obtain ⟨hu, hnext, hbulk, hend⟩ := sound_xmallocRecord h hx
    have hrunu : BulkRun u (d.hole s) :=
      ⟨hbulk ▸ hrun.low, hrun.pos, le_trans hrun.high hend⟩
    have hv := sound_recordDecrease hu rfl hnext hrunu
    rw [hd']
    refine ⟨?_, hrunu.below hu.pos⟩
    unfold afterRecord
    split
    · cases r with
      | none => exact hv.now
      | some page => exact (sound_deallocate hv).now
    · exact hv.now

theorem sound_resize (h : Sound s.nextId s)
    (hr : resizePhysToMachineMappingTable s newPage xen = some t) : Sound t.nextId t := by
  obtain ⟨u, v, r, hu, hv, rfl⟩ :=
    resize_rule ((steady_sound s.nextId).kept xen) (fun _ _ _ _ h _ _ => sound_take h) h hr
  obtain ⟨hsound, hnext, -, -⟩ := sound_xmallocRecord hu.now hv
  refine ⟨hsound.pos, hsound.bulk_le, hsound.end_le, ?_, ?_, ?_, le_rfl⟩
  · intro a ha
    cases ha with
    | head => exact ⟨hsound.end_le, le_rfl⟩
    | tail _ ha => exact hsound.range a ha
  · apply List.nodup_cons.mpr
    refine ⟨?_, hsound.ids⟩
    intro hmem
    obtain ⟨a, ha, heq⟩ := List.mem_map.mp hmem
    have hlt := hsound.below a ha
    rw [heq] at hlt
    exact lt_irrefl _ hlt
  · intro a ha
    cases ha with
    | head => exact hnext
    | tail _ ha => exact lt_of_lt_of_le (hsound.below a ha) hsound.next

theorem sound_step {s t : Sys} {l : Label} (h : Holds (fun s => Sound s.nextId s) s)
    (hs : step s l = some t) : Holds (fun s => Sound s.nextId s) t := by
  have hpool := h.pool
  cases step_performed hs with
  | allocate hidle hr => exact holds_idle ((steady_sound _).allocatePages hpool hr).now hidle
  | deallocate hidle => exact holds_idle (sound_deallocate hpool).now hidle
  | increase hidle => exact holds_idle (((steady_sound _).kept _).increaseMemory hpool).1.now hidle
  | decrease =>
    refine ⟨hpool, ?_⟩
    rintro d ⟨⟩
    have h₁ := hpool.pos
    have h₂ := hpool.bulk_le
    change s.pool.endAllocPage - 1 < s.pool.endAllocPage
    omega
  | round hd hmore hr =>
    have hnext := sound_decreaseRound hpool hmore (h.page _ hd) hr
    refine ⟨hnext.1, ?_⟩
    rintro d'' ⟨⟩
    exact hnext.2
  | done => exact holds_idle hpool rfl
  | resize hidle _ hr => exact holds_idle (sound_resize hpool hr) hidle

theorem sound_of_reach {s : Sys} (h : Reach step anyStep Initial s) :
    Sound s.pool.nextId s.pool := by
  have hinv : Holds (fun s => Sound s.nextId s) s := by
    apply h.invariant
    · rintro s ⟨c, rfl⟩
      have hwf := wf_initPageAllocator c
      exact holds_idle ⟨hwf.pos, hwf.bulk_le, hwf.end_le, nofun, nodup_nil, nofun, le_rfl⟩ rfl
    · intro s l t hinv _ hs
      exact sound_step hinv hs
  exact hinv.pool

end Guk.PagePool
