import Guk.PagePoolRules

/-!
# The balloon: holes, `max_pfn_table` and the reservation

The holes are kept in `memory_hole_list` by `mm.c`, the end of the memory by `mm.c`
and once more by `p2m.c`. That they agree is an invariant of all operations.
-/
namespace Guk.PagePool

open Bitmap Runs List

variable {s t u : Pool} {b : Bool} {page n p rc k initial : Nat} {hole new : Hole}
  {rest holes : List Hole} {xen : Xen} {r : Option Nat} {c : Config}

structure Structured (initial : Nat) (s : Pool) : Prop where
  strict : s.memoryHoleList.Pairwise fun a b => a.startPfn < b.startPfn
  disjoint : s.memoryHoleList.Pairwise fun a b => a.endPfn ≤ b.startPfn
  inside : ∀ h ∈ s.memoryHoleList,
    s.firstBulkPage ≤ h.startPfn ∧ h.startPfn ≤ h.endPfn ∧ h.endPfn ≤ s.maxEndAllocPage ∧
      (h.startPfn < h.endPfn ∨ h.startPfn = s.maxEndAllocPage)
  set : ∀ h ∈ s.memoryHoleList, ∀ p, h.Has p → allocated s p = true
  covered : ∀ p, s.endAllocPage ≤ p → p < s.maxEndAllocPage → ∃ h ∈ s.memoryHoleList, h.Has p
  p2m : s.maxPfnTable = s.endAllocPage
  reservation : gukCurrentReservation s + s.released = initial + s.gained

structure Ballooned (initial : Nat) (s : Pool) : Prop where
  wf : Wf s
  fits : s.maxEndAllocPage < 2 ^ 31
  strict : s.memoryHoleList.Pairwise fun a b => a.startPfn < b.startPfn
  set : ∀ h ∈ s.memoryHoleList, ∀ p, h.Has p → allocated s p = true
  covered : ∀ p, s.endAllocPage ≤ p → p < s.maxEndAllocPage → ∃ h ∈ s.memoryHoleList, h.Has p
  pages : s.maxEndAllocPage + s.released = holePages s.memoryHoleList + (initial + s.gained)

structure Agreed (initial : Nat) (s : Pool) : Prop extends Ballooned initial s where
  p2m : s.maxPfnTable = s.endAllocPage

/-! ## The pages in holes -/

theorem foldl_add64 (holes : List Hole) (result : Nat) :
    holes.foldl (fun result h => add64 result h.size) result % 2 ^ 64 =
      (result + holePages holes) % 2 ^ 64 := by
  induction holes generalizing result with
  | nil => rfl
  | cons h holes ih =>
    rw [foldl_cons, ih, holePages, add64, Nat.mod_add_mod, Nat.add_assoc]

theorem holePages_le {hi : Nat} (lo : Nat)
    (hsorted : holes.Pairwise fun a b => a.endPfn ≤ b.startPfn)
    (hrange : ∀ h ∈ holes, lo ≤ h.startPfn ∧ h.startPfn ≤ h.endPfn ∧ h.endPfn ≤ hi) (hle : lo ≤ hi)
    :
    lo + holePages holes ≤ hi := by
  induction holes generalizing lo with
  | nil => exact hle
  | cons h holes ih =>
    obtain ⟨hfirst, hrest⟩ := List.pairwise_cons.mp hsorted
    have hh := hrange h mem_cons_self
    have htail := ih h.endPfn hrest
      (fun a ha => ⟨hfirst a ha, (hrange a (mem_cons_of_mem _ ha)).2⟩) hh.2.2
    rw [holePages, Hole.size]
    omega

theorem holePages_memoryHoleAdd :
    holePages (memoryHoleAdd new holes) = new.size + holePages holes := by
  induction holes with
  | nil => rfl
  | cons h holes ih =>
    rw [memoryHoleAdd]
    split
    · rfl
    · rw [holePages, ih, holePages]
      omega

theorem structured_of_agreed (h : Agreed initial s) : Structured initial s := by
  refine ⟨h.strict, h.wf.sorted, h.wf.range, h.set, h.covered, h.p2m, ?_⟩
  have hpages := h.pages
  have hfits := h.fits
  have hle := holePages_le 0 h.wf.sorted
    (fun a ha => ⟨Nat.zero_le _, (h.wf.range a ha).2.1, (h.wf.range a ha).2.2.1⟩) (Nat.zero_le _)
  have hsum := foldl_add64 s.memoryHoleList 0
  rw [Nat.zero_add] at hsum hle
  rw [gukCurrentReservation, sub64, hsum, ← sub64, sub64_eq hle (by omega)]
  omega

/-! ## Operations -/

@[simp] theorem take_gained : (take s b page n).gained = s.gained := by
  cases b <;> rfl
@[simp] theorem take_released : (take s b page n).released = s.released := by
  cases b <;> rfl
@[simp] theorem deallocate_gained : (giveBack s page n).gained = s.gained := by
  rw [giveBack_eq]
@[simp] theorem deallocate_released : (giveBack s page n).released = s.released := by
  rw [giveBack_eq]

theorem ballooned_take (h : Ballooned initial s) (hsmall : b = false → isBulk n = false)
    (hs : search s b n = some page) : Ballooned initial (take s b page n) := by
  have hwf := wf_take h.wf h.fits hs hsmall
  have hset : ∀ hole ∈ s.memoryHoleList, ∀ p, hole.Has p →
      allocated (take s b page n) p = true := by
    intro hole hmem p hhas
    rw [allocated_take, h.set hole hmem p hhas, Bool.true_or]
  cases b <;> exact { h with wf := hwf, set := hset }

theorem agreed_take (h : Agreed initial s) (hsmall : b = false → isBulk n = false)
    (hs : search s b n = some page) : Agreed initial (take s b page n) := by
  have hballooned := ballooned_take h.toBallooned hsmall hs
  cases b <;> exact { hballooned with p2m := h.p2m }

theorem agreed_deallocate (h : Agreed initial s) (hmem : (page, n) ∈ s.live) :
    Agreed initial (giveBack s page n) := by
  have hwf := wf_deallocate h.wf hmem
  have hset : ∀ hole ∈ s.memoryHoleList, ∀ p, hole.Has p →
      allocated (giveBack s page n) p = true := by
    intro hole hh p hhas
    have hout : ¬ (page ≤ p ∧ p < page + n) :=
      fun hp => h.wf.blockHole _ hmem hole hh p hp.1 hp.2 hhas
    rw [allocated_deallocate, h.set hole hh p hhas, decide_eq_false hout]
    rfl
  revert hwf hset
  rw [giveBack_eq]
  exact fun hwf hset => { h with wf := hwf, set := hset }

theorem agreed_recordIncrease (h : Agreed initial s) (hl : s.memoryHoleList = hole :: rest)
    (hrc : 0 < rc) (hle : rc ≤ hole.size) :
    Agreed initial (recordIncrease s hole hole.size rc) := by
  have hsz : rc ≤ hole.endPfn - hole.startPfn := hle
  have hlist := recordIncrease_memoryHoleList h.wf hl hrc hle
  have hstrict := h.strict
  have hsorted := h.wf.sorted
  rw [hl] at hstrict hsorted
  refine ⟨⟨wf_recordIncrease h.wf hl hrc hle, h.fits, ?_, ?_, ?_, ?_⟩, ?_⟩
  · rw [hlist]
    split
    · exact (List.pairwise_cons.mp hstrict).2
    case isFalse hne =>
      have hne' : hole.endPfn - hole.startPfn ≠ rc := hne
      apply List.pairwise_cons.mpr
      refine ⟨?_, (List.pairwise_cons.mp hstrict).2⟩
      intro a ha
      have hafter := (List.pairwise_cons.mp hsorted).1 a ha
      change hole.startPfn + rc < a.startPfn
      omega
  · intro a ha p hhas
    obtain ⟨a', ha', hhas', hge⟩ := has_recordIncrease h.wf hl hrc hle ha hhas
    rw [allocated_recordIncrease, h.set a' ha' p hhas', decide_eq_false (by omega)]
    rfl
  · intro p hge hlt
    rw [recordIncrease_endAllocPage] at hge
    obtain ⟨a, ha, hhas⟩ := h.covered p (by omega) hlt
    exact covers_recordIncrease h.wf hl hrc hle ha hhas (by omega)
  · have hpages := h.pages
    rw [hl, holePages] at hpages
    rw [hlist]
    change s.maxEndAllocPage + s.released = _ + (initial + (s.gained + rc))
    split
    · omega
    · rw [holePages]
      simp only [Hole.size] at hpages hsz ⊢
      omega
  · change (if s.maxPfnTable < hole.startPfn + rc then _ else s.maxPfnTable) =
      if s.endAllocPage < hole.startPfn + rc then _ else s.endAllocPage
    rw [h.p2m]

theorem FreeHole.start_ne (hf : FreeHole s new) (hwf : Wf s) (hmem : hole ∈ s.memoryHoleList) :
    hole.startPfn ≠ new.startPfn := by
  have hapart := hf.apart hwf hmem
  have hrange := hwf.range hole hmem
  have hpos := hf.pos
  have hhigh := hf.high
  have hend := hwf.end_le
  omega

theorem strict_recordDecrease (h : Ballooned initial s) (hf : FreeHole s new) :
    (recordDecrease s new).memoryHoleList.Pairwise fun a b => a.startPfn < b.startPfn := by
  have hstrict := h.strict
  simp only [recordDecrease, removePages]
  split
  case h_1 => exact pairwise_singleton _ _
  case h_2 head rest hl =>
    split
    case isTrue =>
      rw [← hl]
      refine pairwise_memoryHoleAdd hstrict (fun a ha => ?_) fun a _ b hlt hab => lt_trans hlt hab
      have := hf.start_ne h.wf ha
      split <;> omega
    case isFalse heq =>
      rw [hl] at hstrict
      obtain ⟨hfirst, hrest⟩ := List.pairwise_cons.mp hstrict
      apply List.pairwise_cons.mpr
      refine ⟨?_, hrest⟩
      intro a ha
      have hlt := hfirst a ha
      have hpos := hf.pos
      change new.startPfn < a.startPfn
      omega

theorem holePages_recordDecrease (hwf : Wf s) (hf : FreeHole s new) :
    holePages (recordDecrease s new).memoryHoleList = holePages s.memoryHoleList + new.size := by
  simp only [recordDecrease, removePages]
  split
  case h_1 hl =>
    rw [hl]
    simp only [holePages]
    omega
  case h_2 head rest hl =>
    have hrange := hwf.range head (hl ▸ mem_cons_self)
    have hpos := hf.pos
    split
    case isTrue =>
      rw [holePages_memoryHoleAdd, hl]
      omega
    case isFalse heq =>
      rw [hl]
      simp only [holePages, Hole.size]
      omega

theorem agreed_recordDecrease (h : Agreed initial s) (hf : FreeHole s new) :
    Agreed initial (recordDecrease s new) := by
  have hend := hf.end_eq
  refine ⟨⟨wf_recordDecrease h.wf hf, h.fits, strict_recordDecrease h.toBallooned hf, ?_, ?_, ?_⟩,
    ?_⟩
  · intro a ha p hhas
    rw [allocated_recordDecrease]
    rcases has_recordDecrease ha hhas with ⟨a', ha', hhas'⟩ | ⟨h₁, h₂⟩
    · rw [h.set a' ha' p hhas', Bool.true_or]
    · rw [decide_eq_true (by omega), Bool.or_true]
  · intro p hge hlt
    apply covers_recordDecrease (fun a ha => (h.wf.range a ha).2.1) hf.pos
    by_cases hp : new.Has p
    · exact .inr hp
    · have hout : ¬ (new.startPfn ≤ p ∧ p < new.endPfn) := hp
      rw [hf.endAllocPage] at hge
      apply Or.inl
      apply h.covered p _ hlt
      split at hge <;> omega
  · have hpages := h.pages
    rw [holePages_recordDecrease h.wf hf]
    change s.maxEndAllocPage + (s.released + new.size) = _ + (initial + s.gained)
    omega
  · rw [hf.endAllocPage]
    change (if new.endPfn = s.maxPfnTable then new.startPfn else s.maxPfnTable) = _
    rw [h.p2m]
    split <;> split <;> omega

theorem agreed_flag {f : Bool} (h : Agreed initial s) :
    Agreed initial { s with inIncreaseMemory := f } :=
  ⟨{ h with wf := wf_flag h.wf }, h.p2m⟩

theorem kept_agreed (xen : Xen) : Kept (Agreed initial) xen := by
  refine ⟨fun s f h => agreed_flag h, ?_, ?_⟩
  · intro k s h
    apply allocateFrames_rule (fun s f h => agreed_flag h) _ h
    intro s b page h hs
    exact agreed_take h (fun _ => by decide) hs
  · intro s hole rest rc h hl hrc hle
    exact agreed_recordIncrease h hl hrc hle

theorem closed_agreed : Closed (Agreed initial) where
  wf _ h := h.wf
  flag _ _ h := agreed_flag h
  nextId _ _ h := ⟨{ h with wf := wf_nextId h.wf }, h.p2m⟩
  take _ _ _ _ h hb hs := agreed_take h hb hs
  shrink _ _ h hf := agreed_recordDecrease h hf
  free _ _ h hmem _ := agreed_deallocate h hmem
  hole s id h hl := by
    have hpages := h.pages
    have hend := h.wf.end_le
    have htop : s.maxEndAllocPage ≤ s.endAllocPage := by
      by_contra hlt
      obtain ⟨a, ha, -⟩ := h.covered s.endAllocPage le_rfl (by omega)
      rw [hl] at ha
      cases ha
    refine ⟨⟨wf_initial_hole h.wf hl, h.fits, ?_, ?_, ?_, ?_⟩, h.p2m⟩
    · rw [hl]
      exact pairwise_singleton _ _
    · intro a ha p hhas
      rw [hl] at ha
      rw [List.mem_singleton.mp ha] at hhas
      have hge : s.endAllocPage ≤ p := hhas.1
      have hlt : p < s.maxEndAllocPage := hhas.2
      omega
    · intro p hge hlt
      exact ⟨_, mem_cons_self, hge, hlt⟩
    · simp only [holePages, Hole.size]
      omega

def recordStep (s : Sys) (l : Label) : Prop :=
  match l with
  | .round newPage _ => RoomForRecord s.pool newPage
  | _ => True

theorem agreed_step {s t : Sys} {l : Label} (h : Holds (Agreed initial) s) (hok : recordStep s l)
    (hstep : step s l = some t) : Holds (Agreed initial) t := by
  apply closed_agreed.step h hstep
  · intro n xen u r _ hr
    exact allocatePages_rule (kept_agreed xen) (fun _ _ _ h hb hs => agreed_take h hb hs)
      (fun _ h => h)
      h.pool hr
  · rintro page n rfl hmem
    exact agreed_deallocate h.pool hmem
  · intro n xen _
    exact ((kept_agreed xen).increaseMemory h.pool).1
  · rintro newPage xen rfl
    exact hok

end Guk.PagePool
