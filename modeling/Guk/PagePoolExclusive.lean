import Guk.PagePoolLock
import Guk.PagePoolRules

/-!
# Exclusive use of the pages

As long as nothing is released to Xen there is at most one hole, the one above the
pool, and every page below it is free or in one allocation.
-/
namespace Guk.PagePoolLock

open Bitmap Runs PagePool Function List Option

/-! ## The pool between the steps -/

variable {s t : Pool} {backed : Nat → Bool} {caller : Caller} {pc : Pc} {b : Bool} {d : Decrease}
  {hole : Hole} {page n result holeSize rc fuel k p : Nat}

def TopHole (s : Pool) : Prop :=
  s.memoryHoleList = [] ∨
    ∃ h, s.memoryHoleList = [h] ∧ h.startPfn = s.endAllocPage ∧ h.endPfn = s.maxEndAllocPage

structure PoolOk (s : Pool) : Prop where
  wf : Wf s
  top : TopHole s
  covered : ∀ p, s.firstAllocPage ≤ p → p < s.endAllocPage → InUse s p

theorem poolOk_flag {f : Bool} (h : PoolOk s) : PoolOk { s with inIncreaseMemory := f } :=
  ⟨wf_flag h.wf, h.top, h.covered⟩

theorem poolOk_nextId (h : PoolOk s) : PoolOk { s with nextId := k } :=
  ⟨wf_nextId h.wf, h.top, h.covered⟩

theorem wf_numFreePages (h : Wf s) : Wf { s with numFreePages := k } := by
  cases h
  constructor <;> assumption

section

variable (h : PoolOk s)

include h

theorem poolOk_numFreePages : PoolOk { s with numFreePages := k } :=
  ⟨wf_numFreePages h.wf, h.top, h.covered⟩

theorem PoolOk.inUse_lt (hp : InUse s p) : p < s.endAllocPage := by
  rcases hp with ⟨a, ha, -, hlt⟩ | ⟨-, hlt, -⟩
  · exact lt_of_lt_of_le hlt (h.wf.block_end ha)
  · exact hlt

theorem PoolOk.hole_ge (hmem : hole ∈ s.memoryHoleList) :
    s.memoryHoleList = [hole] ∧ hole.startPfn = s.endAllocPage ∧
      hole.endPfn = s.maxEndAllocPage := by
  rcases h.top with hnil | ⟨h', hl, hstart, hend⟩
  · rw [hnil] at hmem
    cases hmem
  · rw [hl] at hmem ⊢
    cases List.mem_singleton.mp hmem
    exact ⟨rfl, hstart, hend⟩

theorem poolOk_take (hmax : s.maxEndAllocPage < 2 ^ 31) (hs : search s b n = some page)
    (hsmall : b = false → isBulk n = false) : PoolOk (take s b page n) := by
  refine ⟨wf_take h.wf hmax hs hsmall, ?_, ?_⟩
  · simp only [TopHole, take_memoryHoleList, take_endAllocPage, take_maxEndAllocPage]
    exact h.top
  · simp only [InUse, take_firstAllocPage, take_endAllocPage, take_live, allocated_take]
    intro p hlow hlt
    by_cases hin : page ≤ p ∧ p < page + n
    · exact .inl ⟨(page, n), mem_cons_self, hin⟩
    · rcases h.covered p hlow hlt with ⟨a, ha, hpa⟩ | ⟨-, -, hfree⟩
      · exact .inl ⟨a, mem_cons_of_mem _ ha, hpa⟩
      · rw [hfree, decide_eq_false hin]
        exact .inr ⟨hlow, hlt, rfl⟩

theorem poolOk_deallocate (hmem : (page, n) ∈ s.live) : PoolOk (giveBack s page n) := by
  refine ⟨wf_deallocate h.wf hmem, ?_, ?_⟩
  · simp only [TopHole, deallocate_memoryHoleList, deallocate_endAllocPage,
      deallocate_maxEndAllocPage]
    exact h.top
  · simp only [InUse, deallocate_firstAllocPage, deallocate_endAllocPage, deallocate_live,
      allocated_deallocate]
    intro p hlow hlt
    by_cases hin : page ≤ p ∧ p < page + n
    · rw [decide_eq_true hin, Bool.not_true, Bool.and_false]
      exact .inr ⟨hlow, hlt, rfl⟩
    · rcases h.covered p hlow hlt with ⟨a, ha, hpa⟩ | ⟨-, -, hfree⟩
      · have hne : a ≠ (page, n) := by
          rintro rfl
          exact hin hpa
        exact .inl ⟨a, (mem_erase_of_ne hne).mpr ha, hpa⟩
      · rw [hfree]
        exact .inr ⟨hlow, hlt, rfl⟩

theorem poolOk_deallocateLocked (hmem : (page, n) ∈ s.live) :
    PoolOk { deallocateLocked s page n with live := s.live.erase (page, n) } := by
  have hwhole := poolOk_deallocate h hmem
  exact poolOk_numFreePages (k := (deallocateLocked s page n).numFreePages) hwhole

end

theorem wf_grown (h : Wf s) (hstart : hole.startPfn = s.endAllocPage)
    (hle : s.endAllocPage + rc ≤ s.maxEndAllocPage) :
    Wf { recordIncrease s hole holeSize rc with memoryHoleList := [] } := by
  have hend : (recordIncrease s hole holeSize rc).endAllocPage = s.endAllocPage + rc := by
    rw [recordIncrease_endAllocPage, hstart]
    omega
  have hbulk := h.bulk_le
  refine ⟨h.low, h.alloc_le, ?_, ?_, h.hintLow, h.bulkHintLow, List.Pairwise.nil, nofun, nofun,
    nofun, nofun, ?_, ?_, h.blockApart, nofun⟩
  · change s.firstBulkPage ≤ (recordIncrease s hole holeSize rc).endAllocPage
    omega
  · change (recordIncrease s hole holeSize rc).endAllocPage ≤ s.maxEndAllocPage
    omega
  · intro a ha
    have hblock := h.block a ha
    change 1 ≤ a.2 ∧ (s.firstAllocPage ≤ a.1 ∧ a.1 + a.2 ≤ s.firstBulkPage ∧ isBulk a.2 = false ∨
      s.firstBulkPage ≤ a.1 ∧ a.1 + a.2 ≤ (recordIncrease s hole holeSize rc).endAllocPage)
    rw [hend]
    refine ⟨hblock.1, hblock.2.imp_right ?_⟩
    intro hin
    omega
  · intro a ha p hlow hlt
    have hblock := h.block_end ha
    change allocated (recordIncrease s hole holeSize rc) p = true
    rw [allocated_recordIncrease, h.blockSet a ha p hlow hlt, decide_eq_false (by omega)]
    rfl

theorem poolOk_recordIncrease (holeSize : Nat) (h : PoolOk s) (hmem : hole ∈ s.memoryHoleList)
    (hle : rc ≤ hole.size) : PoolOk (recordIncrease s hole holeSize rc) ∧
      (recordIncrease s hole holeSize rc).endAllocPage = s.endAllocPage + rc := by
  obtain ⟨hl, hstart, hend⟩ := h.hole_ge hmem
  have hroom : s.endAllocPage + rc ≤ s.maxEndAllocPage := by
    have hendLe := h.wf.end_le
    unfold Hole.size at hle
    omega
  have hnewEnd : (recordIncrease s hole holeSize rc).endAllocPage = s.endAllocPage + rc := by
    rw [recordIncrease_endAllocPage, hstart]
    omega
  have hgrown : Wf { recordIncrease s hole holeSize rc with memoryHoleList := [] } :=
    wf_grown h.wf hstart hroom
  have hlist : (recordIncrease s hole holeSize rc).memoryHoleList =
      if holeSize = rc then [] else [{ hole with startPfn := hole.startPfn + rc }] := by
    change (if holeSize = rc then s.memoryHoleList.erase hole else s.memoryHoleList.map _) = _
    rw [hl, erase_cons_head, map_cons, if_pos rfl, map_nil]
  refine ⟨⟨?_, ?_, ?_⟩, hnewEnd⟩
  · change Wf { recordIncrease s hole holeSize rc with
      memoryHoleList := (recordIncrease s hole holeSize rc).memoryHoleList }
    rw [hlist]
    split
    · exact hgrown
    · rw [hstart, hend, ← hnewEnd]
      exact wf_initial_hole hgrown rfl
  · rw [TopHole, hlist, hnewEnd]
    split
    · exact .inl rfl
    · exact .inr ⟨_, rfl, congrArg (· + rc) hstart, hend⟩
  · intro p hlow hlt
    rw [hnewEnd] at hlt
    by_cases hp : p < s.endAllocPage
    · rcases h.covered p hlow hp with hlive | ⟨-, -, hfree⟩
      · exact .inl hlive
      · refine .inr ⟨hlow, by omega, ?_⟩
        rw [allocated_recordIncrease, hfree, Bool.false_and]
    · refine .inr ⟨hlow, by omega, ?_⟩
      rw [allocated_recordIncrease, hstart, decide_eq_true (by omega), Bool.not_true,
        Bool.and_false]

/-! ## What a stretch can do -/

structure Lands (s : Pool) (r : Pool × Pc) : Prop where
  ok : PoolOk r.1
  low : r.1.firstAllocPage = s.firstAllocPage
  top : r.1.endAllocPage = s.endAllocPage
  pc : r.2 = .idle ∨ ∃ caller n result id holeSize nn,
    r.2 = .populating caller n result id holeSize nn

section

variable (h : PoolOk s)

include h

theorem holeRound_lands {r : Pool × Pc} (hr : holeRound s caller n result = some r) :
    Lands s r := by
  unfold holeRound at hr
  split at hr
  case h_1 => cases hr
  case h_2 =>
    cases hr
    exact ⟨h, rfl, rfl, .inr ⟨_, _, _, _, _, _, rfl⟩⟩

theorem enterIncrease_lands {r : Pool × Pc} (hr : enterIncrease s caller n = some r) :
    Lands s r := by
  unfold enterIncrease at hr
  split at hr
  · cases hr
    exact ⟨poolOk_flag h, rfl, rfl, .inl rfl⟩
  · dsimp only at hr
    split at hr
    · obtain ⟨hok, hlow, htop, hpc⟩ := holeRound_lands (poolOk_flag h) hr
      exact ⟨hok, hlow, htop, hpc⟩
    · cases hr
      exact ⟨poolOk_flag h, rfl, rfl, .inl rfl⟩

section

variable (hmax : s.maxEndAllocPage < 2 ^ 31)

include hmax

theorem take_lands (hs : search s b n = some page)
    (hsmall : b = false → isBulk n = false) : Lands s (take s b page n, .idle) :=
  ⟨poolOk_take h hmax hs hsmall, take_firstAllocPage, take_endAllocPage, .inl rfl⟩

theorem bulkRound_lands {r : Pool × Pc} (hr : bulkRound s n = some r) : Lands s r := by
  unfold bulkRound at hr
  split at hr
  case h_1 page hs =>
    cases hr
    exact take_lands h hmax hs nofun
  case h_2 => exact enterIncrease_lands h hr

theorem allocateStretch_lands {r : Pool × Pc} (hr : allocateStretch s n = some r) : Lands s r := by
  unfold allocateStretch at hr
  split at hr
  case isTrue => exact bulkRound_lands h hmax hr
  case isFalse hsmall =>
    split at hr
    case h_1 page hs =>
      cases hr
      exact take_lands h hmax hs fun _ => Bool.eq_false_iff.mpr hsmall
    case h_2 => exact bulkRound_lands h hmax hr

theorem leaveIncrease_lands {r : Pool × Pc}
    (hr : leaveIncrease s caller result = some r) : Lands s r := by
  have hflag : PoolOk { s with inIncreaseMemory := false } := poolOk_flag h
  have hdone : Lands s ({ s with inIncreaseMemory := false }, .idle) := ⟨hflag, rfl, rfl, .inl rfl⟩
  cases caller with
  | increase =>
    cases hr
    exact hdone
  | allocate n =>
    simp only [leaveIncrease] at hr
    split at hr
    · cases hr
      exact hdone
    · obtain ⟨hok, hlow, htop, hpc⟩ := bulkRound_lands hflag hmax hr
      exact ⟨hok, hlow, htop, hpc⟩

theorem recordStretch_lands {r : Pool × Pc}
    (hmem : 0 < rc → hole ∈ s.memoryHoleList) (hle : rc ≤ hole.size)
    (hr : recordStretch s caller n result hole holeSize rc = some r) :
    ∃ u, Lands u r ∧ u.firstAllocPage = s.firstAllocPage ∧
      u.endAllocPage = s.endAllocPage + rc := by
  unfold recordStretch at hr
  split at hr
  case isTrue hrc =>
    have hgrown := poolOk_recordIncrease holeSize h (hmem hrc) hle
    refine ⟨recordIncrease s hole holeSize rc, ?_, rfl, hgrown.2⟩
    dsimp only at hr
    split at hr
    · exact holeRound_lands hgrown.1 hr
    · exact leaveIncrease_lands hgrown.1 hmax hr
  case isFalse hrc =>
    refine ⟨s, leaveIncrease_lands h hmax hr, rfl, ?_⟩
    omega

end

end

theorem decreaseStretch_spec (h : Wf s) (hd : d.page < s.endAllocPage) :
    decreaseStretch s fuel d = (s, .idle) ∨
      ∃ hole d',
        decreaseStretch s fuel d = ({ s with nextId := s.nextId + 1 }, .releasing hole d') ∧
        FreeHole s hole := by
  induction fuel generalizing d with
  | zero => exact .inl rfl
  | succ fuel ih =>
    rw [decreaseStretch]
    split
    case isFalse => exact .inl rfl
    case isTrue hmore =>
      split
      case isTrue =>
        have hprev : d.page - 1 < s.endAllocPage := lt_of_le_of_lt (Nat.sub_le _ _) hd
        exact ih hprev
      case isFalse hset =>
        have hfree := freeHole_of_round h.pos hmore hd (Bool.eq_false_iff.mpr hset)
        exact .inr ⟨_, _, rfl, hfree⟩

/-! ## The invariant of a run -/

def PcOk (s : Pool) (backed : Nat → Bool) : Pc → Prop
  | .populated _ _ _ hole _ rc =>
    rc ≤ hole.size ∧ ∀ p, hole.startPfn ≤ p → p < hole.startPfn + rc → backed p = true
  | .decreasing d => d.page < s.endAllocPage
  | .releasing hole _ =>
    s.firstAllocPage ≤ hole.startPfn ∧ hole.startPfn < hole.endPfn ∧ hole.endPfn ≤ s.endAllocPage
  | .released _ _ => False
  | _ => True

theorem PcOk.mono {backed' : Nat → Bool} (h : PcOk s backed pc)
    (hlow : t.firstAllocPage = s.firstAllocPage) (htop : s.endAllocPage ≤ t.endAllocPage)
    (hbacked : ∀ p, backed p = true → backed' p = true) : PcOk t backed' pc := by
  cases pc with
  | populated caller n result hole holeSize rc =>
    exact ⟨h.1, fun p h₁ h₂ => hbacked p (h.2 p h₁ h₂)⟩
  | decreasing d => exact lt_of_lt_of_le h htop
  | releasing hole d =>
    obtain ⟨h₁, h₂, h₃⟩ := h
    exact ⟨hlow ▸ h₁, h₂, le_trans h₃ htop⟩
  | released hole d => exact h
  | idle | freed n | populating caller n result id holeSize nn => trivial

structure Inv (s : State) : Prop where
  pool : PoolOk s.pool
  backed : ∀ p, p < s.pool.endAllocPage → s.backed p = true
  pc : ∀ thread, PcOk s.pool s.backed (s.thread thread)

variable {S T : State} {thread : Nat} {l : Label} {r : Pool × Pc}

theorem inv_stretch (h : Inv S) (hok : PoolOk r.1)
    (hlow : r.1.firstAllocPage = S.pool.firstAllocPage)
    (htop : S.pool.endAllocPage ≤ r.1.endAllocPage)
    (hnew : ∀ p, S.pool.endAllocPage ≤ p → p < r.1.endAllocPage → S.backed p = true)
    (hpc : PcOk r.1 S.backed r.2) : Inv (S.stretch thread r) := by
  refine ⟨hok, ?_, ?_⟩
  · intro p hp
    by_cases hold : p < S.pool.endAllocPage
    · exact h.backed p hold
    · exact hnew p (not_lt.mp hold) hp
  · intro other
    change PcOk r.1 S.backed (update S.thread thread r.2 other)
    by_cases hother : other = thread
    · rw [hother, update_self]
      exact hpc
    · rw [update_of_ne hother]
      exact (h.pc other).mono hlow htop fun _ hp => hp

theorem inv_same (h : Inv S) (hok : PoolOk r.1) (hlow : r.1.firstAllocPage = S.pool.firstAllocPage)
    (htop : r.1.endAllocPage = S.pool.endAllocPage) (hpc : PcOk r.1 S.backed r.2) :
    Inv (S.stretch thread r) := by
  apply inv_stretch h hok hlow (le_of_eq htop.symm) _ hpc
  intro p hge hlt
  omega

theorem Lands.pcOk (h : Lands s r) : PcOk r.1 backed r.2 := by
  rcases h.pc with hpc | ⟨_, _, _, _, _, _, hpc⟩
  all_goals
    rw [hpc]
    trivial

theorem inv_lands (h : Inv S) (hr : Lands S.pool r) : Inv (S.stretch thread r) :=
  inv_same h hr.ok hr.low hr.top hr.pcOk

theorem inv_populate (h : Inv S) (hsize : n ≤ hole.size) (hrc : rc ≤ n) {mapped : Bool} :
    Inv { S.stretch thread
      (S.pool, .populated caller k result hole holeSize (if mapped then rc else 0)) with
      backed := fun p => S.backed p || decide (hole.startPfn ≤ p ∧ p < hole.startPfn + rc) } := by
  have hmono : ∀ p, S.backed p = true →
      (S.backed p || decide (hole.startPfn ≤ p ∧ p < hole.startPfn + rc)) = true := by
    intro p hp
    rw [hp, Bool.true_or]
  refine ⟨h.pool, ?_, ?_⟩
  · intro p hp
    exact hmono p (h.backed p hp)
  · intro other
    by_cases hother : other = thread
    · subst hother
      change PcOk S.pool _ (update S.thread other _ other)
      rw [update_self]
      cases mapped with
      | false => exact ⟨Nat.zero_le _, fun p h₁ h₂ => absurd h₂ (not_lt.mpr h₁)⟩
      | true =>
        refine ⟨le_trans hrc hsize, ?_⟩
        intro p h₁ h₂
        change (S.backed p || decide (hole.startPfn ≤ p ∧ p < hole.startPfn + rc)) = true
        rw [decide_eq_true ⟨h₁, h₂⟩, Bool.or_true]
    · change PcOk S.pool _ (update S.thread thread _ other)
      rw [update_of_ne hother]
      exact (h.pc other).mono rfl le_rfl hmono

theorem inv_decreaseStretch (h : Inv S) (hd : d.page < S.pool.endAllocPage) :
    Inv (S.stretch thread (decreaseStretch S.pool fuel d)) := by
  have halloc := h.pool.wf.alloc_le
  rcases decreaseStretch_spec h.pool.wf hd with hidle | ⟨hole, d', hrel, hfree⟩
  · rw [hidle]
    exact inv_same h h.pool rfl rfl trivial
  · rw [hrel]
    exact inv_same h (poolOk_nextId h.pool) rfl rfl
      ⟨le_trans halloc hfree.low, hfree.pos, hfree.high⟩

theorem PoolOk.record_eq (h : PoolOk s) (hmem : hole ∈ s.memoryHoleList) :
    record s hole.id = some hole := by
  unfold record
  rw [(h.hole_ge hmem).1]
  exact List.find?_cons_of_pos (decide_eq_true rfl)

theorem inv_locked (h : Inv S) (hok : exclusiveStep S (.locked thread))
    (hstep : step S (.locked thread) = some T) : Inv T := by
  obtain ⟨⟨hmax, -⟩, hrec⟩ := hok
  have hpc := h.pc thread
  simp only [step] at hstep
  split at hstep
  case h_1 caller n result hole holeSize rc hthread =>
    rw [hthread] at hpc
    simp only [hthread] at hrec
    obtain ⟨hle, hbacked⟩ := hpc
    obtain ⟨cur, hcur, hstep⟩ := bind_eq_some_iff.mp hstep
    obtain ⟨r, hr, rfl⟩ := map_eq_some_iff.mp hstep
    by_cases hrc : 0 < rc
    · have hmem := hrec hrc
      have hhole := h.pool.hole_ge hmem
      rw [h.pool.record_eq hmem] at hcur
      cases hcur
      obtain ⟨u, hu, hlow, htop⟩ := recordStretch_lands h.pool hmax hrec hle hr
      have hrtop := hu.top.trans htop
      apply inv_stretch h hu.ok (hu.low.trans hlow) (by omega) _ hu.pcOk
      intro p hge hlt
      exact hbacked p (by omega) (by omega)
    · rw [recordStretch, if_neg hrc] at hr
      exact inv_lands h (leaveIncrease_lands h.pool hmax hr)
  case h_2 d hthread =>
    rw [hthread] at hpc
    cases hstep
    exact inv_decreaseStretch h hpc
  case h_3 hole d hthread =>
    rw [hthread] at hpc
    exact hpc.elim
  case h_4 => cases hstep

theorem inv_resize {newPage : Bool} {xen : Xen} (h : Inv S) (hmax : S.pool.maxEndAllocPage < 2 ^ 31)
    (hl : S.pool.memoryHoleList = [])
    (hr : resizePhysToMachineMappingTable S.pool newPage xen = some t) :
    Inv { S with pool := t } := by
  let P (t : Pool) : Prop := PoolOk t ∧ t.maxEndAllocPage < 2 ^ 31 ∧
    t.firstAllocPage = S.pool.firstAllocPage ∧ t.endAllocPage = S.pool.endAllocPage
  have hP : Settled P := by
    constructor
    · exact fun s f h => ⟨poolOk_flag h.1, h.2⟩
    · exact fun s k h => ⟨poolOk_nextId h.1, h.2⟩
    · intro s b page n h hsmall hs
      simp only [P, take_maxEndAllocPage, take_firstAllocPage, take_endAllocPage]
      exact ⟨poolOk_take h.1 h.2.1 hs hsmall, h.2⟩
    · intro s id h hl
      refine ⟨⟨wf_initial_hole h.1.wf hl, ?_, h.1.covered⟩, h.2⟩
      rw [hl]
      exact .inr ⟨_, rfl, rfl, rfl⟩
  obtain ⟨hok, -, hlow, htop⟩ := hP.resize ⟨h.pool, hmax, rfl, rfl⟩ hl hr
  refine ⟨hok, fun p hp => h.backed p (htop ▸ hp), ?_⟩
  intro thread
  exact (h.pc thread).mono hlow (le_of_eq htop.symm) fun _ hp => hp

theorem inv_step (h : Inv S) (hok : exclusiveStep S l) (hstep : step S l = some T) : Inv T := by
  have hmax := hok.1.1
  cases l with
  | resize newPage xen =>
    obtain ⟨⟨hl, -⟩, hstep⟩ := ite_none_right_eq_some.mp hstep
    obtain ⟨t, hr, rfl⟩ := map_eq_some_iff.mp hstep
    exact inv_resize h hmax hl hr
  | allocate thread n =>
    simp only [step] at hstep
    split at hstep
    case h_1 =>
      obtain ⟨-, hstep⟩ := ite_none_right_eq_some.mp hstep
      obtain ⟨r, hr, rfl⟩ := map_eq_some_iff.mp hstep
      exact inv_lands h (allocateStretch_lands h.pool hmax hr)
    case h_2 => cases hstep
  | deallocate thread page n =>
    simp only [step] at hstep
    split at hstep
    case h_1 =>
      obtain ⟨hlive, rfl⟩ := of_when hstep
      have hmem := List.contains_iff_mem.mp hlive
      have hlow : (giveBack S.pool page n).firstAllocPage = S.pool.firstAllocPage :=
        deallocate_firstAllocPage
      have htop : (giveBack S.pool page n).endAllocPage = S.pool.endAllocPage :=
        deallocate_endAllocPage
      exact inv_same h (poolOk_deallocateLocked h.pool hmem) hlow htop trivial
    case h_2 => cases hstep
  | increase thread n =>
    simp only [step] at hstep
    split at hstep
    case h_1 =>
      obtain ⟨r, hr, rfl⟩ := map_eq_some_iff.mp hstep
      exact inv_lands h (enterIncrease_lands h.pool hr)
    case h_2 => cases hstep
  | decrease thread n =>
    simp only [step] at hstep
    split at hstep
    case h_1 =>
      cases hstep
      apply inv_same h h.pool rfl rfl
      have h₁ := h.pool.wf.low
      have h₂ := h.pool.wf.alloc_le
      have h₃ := h.pool.wf.bulk_le
      change S.pool.endAllocPage - 1 < S.pool.endAllocPage
      omega
    case h_2 => cases hstep
  | count thread =>
    simp only [step] at hstep
    split at hstep
    case h_1 =>
      cases hstep
      exact inv_same h (poolOk_numFreePages h.pool) rfl rfl trivial
    case h_2 => cases hstep
  | populate thread populated mapped =>
    simp only [step] at hstep
    split at hstep
    case h_1 caller n result id holeSize nn hthread =>
      obtain ⟨hole, -, hstep⟩ := bind_eq_some_iff.mp hstep
      obtain ⟨hsize, rfl⟩ := of_unless hstep
      exact inv_populate h (not_lt.mp hsize) (Nat.min_le_right _ _)
    case h_2 => cases hstep
  | release thread => exact hok.2.elim
  | locked thread => exact inv_locked h hok hstep

/-! ## Initially -/

theorem poolOk_initPageAllocator (c : Config) : PoolOk (initPageAllocator c) := by
  refine ⟨wf_initPageAllocator c, .inl rfl, ?_⟩
  intro p hlow hlt
  refine .inr ⟨hlow, hlt, ?_⟩
  change c.min + c.maximumReservation / BITS_PER_PAGE ≤ p at hlow
  change p < c.max at hlt
  have hfits := c.fits
  change allocatedInMap (mapFree _ (c.min + c.maximumReservation / BITS_PER_PAGE)
    (c.max - (c.min + c.maximumReservation / BITS_PER_PAGE))) p = false
  generalize c.maximumReservation / BITS_PER_PAGE = bitmapPages at hlow hfits ⊢
  rw [allocated_mapFree, decide_eq_true (by omega), Bool.not_true, Bool.and_false]

theorem inv_initial (h : Initial S) : Inv S := by
  obtain ⟨c, rfl⟩ := h
  refine ⟨poolOk_initPageAllocator c, ?_, fun _ => trivial⟩
  intro p hp
  exact decide_eq_true hp

theorem inv_exclusive (h : Inv S) : Exclusive S := by
  refine ⟨h.pool.wf.blockApart, ?_, ?_⟩
  · intro p hp hole hmem hhas
    have hlt := h.pool.inUse_lt hp
    have hstart := (h.pool.hole_ge hmem).2.1
    have hge := hhas.1
    omega
  · intro p hp
    exact h.backed p (h.pool.inUse_lt hp)

theorem release_breaks (h : Inv S) (hstep : step S (.release thread) = some T) : ¬ Exclusive T := by
  intro hexcl
  have hpc := h.pc thread
  simp only [step] at hstep
  split at hstep
  case h_1 hole d hthread =>
    rw [hthread] at hpc
    obtain ⟨hlow, hne, hend⟩ := hpc
    obtain ⟨-, rfl⟩ := of_when hstep
    have huse := h.pool.covered hole.startPfn hlow (by omega)
    have hbacked := hexcl.backed hole.startPfn huse
    simp only [decide_eq_true (And.intro (le_refl hole.startPfn) hne), Bool.not_true,
      Bool.and_false] at hbacked
    cases hbacked
  case h_2 => cases hstep

/-- Until the first release every state of a run that meets the condition uses its pages
exclusively, and every release ends that. -/
theorem exclusive_until_release (s : State) (h : Reach step exclusiveStep Initial s) :
    Exclusive s ∧ ∀ thread t, step s (.release thread) = some t → ¬ Exclusive t := by
  have hinv : Inv s := by
    apply h.invariant
    · intro s hs
      exact inv_initial hs
    · intro s l t hs hok hstep
      exact inv_step hs hok hstep
  exact ⟨inv_exclusive hinv, fun thread t hstep => release_breaks hinv hstep⟩

instance (s : State) (l : Label) : Decidable (exclusiveStep s l) := by
  unfold exclusiveStep
  cases l with
  | locked thread =>
    cases h : s.thread thread <;> simp only [h] <;> infer_instance
  | _ => infer_instance

def start : State :=
  ⟨initPageAllocator smallDomain, fun p => decide (p < smallDomain.max), fun _ => .idle⟩

theorem initial_start : Initial start := ⟨smallDomain, rfl⟩

def growing : List Label :=
  [.resize true noMemory, .increase 1 5, .populate 1 5 true, .locked 1, .decrease 0 1, .locked 0]

theorem exclusive_while_growing : ∃ s t, run (guarded step exclusiveStep) start growing = some s ∧
    Exclusive s ∧ step s (.release 0) = some t ∧ ¬ Exclusive t := by
  have hsome : ((run (guarded step exclusiveStep) start growing).bind fun s =>
      (step s (.release 0)).map fun t => (s, t)).isSome = true := by decide +kernel
  obtain ⟨⟨s, t⟩, hst⟩ := isSome_iff_exists.mp hsome
  obtain ⟨s', hs, ht⟩ := bind_eq_some_iff.mp hst
  obtain ⟨t', ht, heq⟩ := map_eq_some_iff.mp ht
  cases heq
  have hexcl := exclusive_until_release s (Reach.runGuarded (.start initial_start) growing hs)
  exact ⟨s, t, hs, hexcl.1, ht, hexcl.2 0 t ht⟩

def raced : List Label :=
  [.resize true noMemory, .decrease 0 1, .locked 0, .allocate 1 511, .allocate 1 75, .allocate 1 11,
    .release 0, .locked 0]

theorem pages_not_exclusive : ¬ ∀ s, Reach step anyStep Initial s → Exclusive s := by
  intro hall
  have h₀ : Reach step anyStep Initial start := .start initial_start
  obtain ⟨s, hreach, hlive, hholes⟩ := h₀.runTo
    (P := fun s => s.pool.live = [(659, 11), (580, 75), (69, 511), (68, 1), (4, 64)] ∧
      s.pool.memoryHoleList = [⟨0, 669, 32768⟩])
    raced (by decide +kernel)
  have huse : InUse s.pool 669 := by
    left
    rw [hlive]
    exact ⟨(659, 11), mem_cons_self, by decide⟩
  have hexcl := hall s hreach
  apply hexcl.hole 669 huse ⟨0, 669, 32768⟩
  · rw [hholes]
    exact mem_cons_self
  · exact ⟨by decide, by decide⟩

end Guk.PagePoolLock
