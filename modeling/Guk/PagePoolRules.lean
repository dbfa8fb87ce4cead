import Guk.PagePoolHoles

/-!
# Rules for the operations of the page pool

What an operation does to the pool is a sequence of changes: pages are taken, pages
of the first hole come back, a run of free pages goes, pages are given back. A
property of the pool that each change keeps is kept by the operation.
-/
namespace Guk.PagePool

open Bitmap Runs Option

variable {P Q : Pool → Prop} {s t : Pool} {b newPage : Bool} {n page p k fuel result : Nat}
  {xen xen' : Xen} {r : Option Nat} {d d' : Decrease} {hole new : Hole} {l : Label}

/-! ## Increasing the memory -/

section

variable (hflag : ∀ s f, P s → P { s with inIncreaseMemory := f })

include hflag

section

variable (htake : ∀ s b page, P s → search s b 1 = some page → P (take s b page 1))

include htake

theorem allocateFrame_rule (h : P s) : P (allocateFrame s).1 := by
  unfold allocateFrame
  split
  case h_1 page hs => exact htake s false page h hs
  case h_2 =>
    split
    case h_1 page hs => exact htake s true page h hs
    case h_2 => exact hflag s false h

theorem allocateFrames_rule (h : P s) : P (allocateFrames s k).1 := by
  induction k generalizing s with
  | zero => exact h
  | succ k ih =>
    have hframe := allocateFrame_rule hflag htake h
    rw [allocateFrames]
    split
    case h_1 t heq =>
      rw [heq] at hframe
      exact ih hframe
    case h_2 t heq =>
      rw [heq] at hframe
      exact hframe

end

end

theorem allocateFrames_memoryHoleList :
    (allocateFrames s k).1.memoryHoleList = s.memoryHoleList := by
  apply allocateFrames_rule (P := fun t => t.memoryHoleList = s.memoryHoleList)
  · exact fun _ _ h => h
  · intro t b page h _
    rw [take_memoryHoleList]
    exact h
  · rfl

theorem increaseReservation_frames {answer : Answer} (hk : P (allocateFrames s answer.frames).1)
    (h : P s) :
    P (increaseReservation s n answer).1 := by
  unfold increaseReservation
  simp only
  split
  · exact h
  · split
    case h_1 t heq =>
      rw [heq] at hk
      exact hk
    case h_2 t heq =>
      rw [heq] at hk
      exact hk

theorem increaseReservation_memoryHoleList (s : Pool) (n : Nat) (answer : Answer) :
    (increaseReservation s n answer).1.memoryHoleList = s.memoryHoleList := by
  apply increaseReservation_frames (P := fun t => t.memoryHoleList = s.memoryHoleList) _ rfl
  exact allocateFrames_memoryHoleList

theorem increaseReservation_le (s : Pool) (n : Nat) (answer : Answer) :
    (increaseReservation s n answer).2 ≤ n := by
  unfold increaseReservation
  simp only
  split
  · exact Nat.zero_le n
  · split
    · exact Nat.min_le_right _ _
    · exact Nat.zero_le n

structure Kept (P : Pool → Prop) (xen : Xen) : Prop where
  flag : ∀ s f, P s → P { s with inIncreaseMemory := f }
  frames : ∀ k s, P s → P (allocateFrames s (xen k).frames).1
  grow : ∀ s hole rest rc, P s → s.memoryHoleList = hole :: rest → 0 < rc → rc ≤ hole.size →
    P (recordIncrease s hole hole.size rc)

theorem Kept.rest (hk : Kept P xen) : Kept P xen.rest :=
  ⟨hk.flag, fun k => hk.frames (k + 1), hk.grow⟩

theorem Kept.increaseReservation (hk : Kept P xen) (h : P s) :
    P (increaseReservation s n (xen 0)).1 ∧ (increaseReservation s n (xen 0)).2 ≤ n ∧
      (increaseReservation s n (xen 0)).1.memoryHoleList = s.memoryHoleList :=
  ⟨increaseReservation_frames (hk.frames 0 s h) h, increaseReservation_le s n (xen 0),
    increaseReservation_memoryHoleList s n (xen 0)⟩

theorem increaseLoop_cons {rest : List Hole} (hn : n ≠ 0)
    (hl : s.memoryHoleList = hole :: rest) :
    increaseLoop (fuel + 1) s n result xen =
      if (increaseReservation s (min hole.size n) (xen 0)).2 = 0 then
        ((increaseReservation s (min hole.size n) (xen 0)).1, result, xen.rest)
      else increaseLoop fuel
        (recordIncrease (increaseReservation s (min hole.size n) (xen 0)).1 hole hole.size
          (increaseReservation s (min hole.size n) (xen 0)).2)
        (n - (increaseReservation s (min hole.size n) (xen 0)).2)
        (result + (increaseReservation s (min hole.size n) (xen 0)).2) xen.rest := by
  have hmin : (if hole.size ≤ n then hole.size else n) = min hole.size n := by
    split <;> omega
  rw [increaseLoop, if_neg hn]
  simp only [hl, hmin]

theorem increaseLoop_stop (h : n = 0 ∨ s.memoryHoleList = []) :
    increaseLoop fuel s n result xen = (s, result, xen) := by
  cases fuel with
  | zero => rfl
  | succ fuel =>
    rw [increaseLoop]
    split
    case isTrue => rfl
    case isFalse hn =>
      simp only [h.resolve_left hn]

theorem Kept.increaseLoop (hk : Kept P xen) (h : P s) :
    P (increaseLoop fuel s n result xen).1 ∧ Kept P (increaseLoop fuel s n result xen).2.2 := by
  induction fuel generalizing s n result xen with
  | zero => exact ⟨h, hk⟩
  | succ fuel ih =>
    by_cases hn : n = 0
    · rw [increaseLoop_stop (.inl hn)]
      exact ⟨h, hk⟩
    · cases hl : s.memoryHoleList with
      | nil =>
        rw [increaseLoop_stop (.inr hl)]
        exact ⟨h, hk⟩
      | cons hole rest =>
        rw [increaseLoop_cons hn hl]
        obtain ⟨hP, hle, hholes⟩ := hk.increaseReservation (n := min hole.size n) h
        rw [hl] at hholes
        split
        case isTrue => exact ⟨hP, hk.rest⟩
        case isFalse hrc =>
          apply ih hk.rest
          exact hk.grow _ hole rest _ hP hholes (Nat.pos_of_ne_zero hrc)
            (le_trans hle (Nat.min_le_left _ _))

theorem Kept.increaseMemory (hk : Kept P xen) (h : P s) :
    P (increaseMemory s n xen).1 ∧ Kept P (increaseMemory s n xen).2.2 := by
  unfold PagePool.increaseMemory
  split
  · exact ⟨hk.flag s false h, hk⟩
  · simp only
    split
    · obtain ⟨hP, hk'⟩ := hk.increaseLoop (hk.flag s true h)
      exact ⟨hk.flag _ false hP, hk'⟩
    · exact ⟨hk.flag _ false (hk.flag s true h), hk⟩

/-! ## Allocation -/

inductive AllocateRound (n fuel : Nat) (s : Pool) (b : Bool) (xen : Xen) (t : Pool)
    (r : Option Nat) : Prop where
  | found (page : Nat) (hs : search s b n = some page) (ht : t = take s b page n)
      (hr : r = some page)
  | bulk (hs : search s b n = none) (hb : b = false)
      (hrest : allocateLoop n fuel s true xen = some (t, r))
  | refused (hs : search s b n = none) (hb : b = true) (xen' : Xen)
      (hinc : increaseMemory s n xen = (t, 0, xen')) (hr : r = none)
  | gained (hs : search s b n = none) (hb : b = true) (u : Pool) (result : Nat) (xen' : Xen)
      (hinc : increaseMemory s n xen = (u, result, xen')) (hne : result ≠ 0)
      (hrest : allocateLoop n fuel u true xen' = some (t, r))

theorem allocateLoop_round (hr : allocateLoop n (fuel + 1) s b xen = some (t, r)) :
    AllocateRound n fuel s b xen t r := by
  rw [allocateLoop] at hr
  split at hr
  case h_1 page hs =>
    cases hr
    exact .found page hs rfl rfl
  case h_2 hs =>
    cases b with
    | false => exact .bulk hs rfl hr
    | true =>
      rcases hinc : increaseMemory s n xen with ⟨u, result, xen'⟩
      simp only [hinc, Bool.not_true, Bool.false_eq_true, if_false] at hr
      split at hr
      case isTrue hzero =>
        cases hr
        exact .refused hs rfl xen' (hzero ▸ hinc) rfl
      case isFalse hne => exact .gained hs rfl u result xen' hinc hne hr

theorem allocateLoop_rule (hk : Kept P xen)
    (htake : ∀ s b page, P s → (b = false → isBulk n = false) → search s b n = some page →
      Q (take s b page n))
    (hfail : ∀ s, P s → Q s) (h : P s) (hb : b = false → isBulk n = false)
    (hr : allocateLoop n fuel s b xen = some (t, r)) : Q t := by
  induction fuel generalizing s b xen with
  | zero => cases hr
  | succ fuel ih =>
    obtain ⟨hP, hk'⟩ := hk.increaseMemory (n := n) h
    cases allocateLoop_round hr with
    | found page hs ht =>
      rw [ht]
      exact htake s b page h hb hs
    | bulk _ _ hrest => exact ih (b := true) hk h nofun hrest
    | refused _ _ xen' hinc =>
      rw [hinc] at hP
      exact hfail _ hP
    | gained _ _ u result xen' hinc _ hrest =>
      rw [hinc] at hP hk'
      exact ih (b := true) hk' hP nofun hrest

theorem allocatePages_rule (hk : Kept P xen)
    (htake : ∀ s b page, P s → (b = false → isBulk n = false) → search s b n = some page →
      Q (take s b page n))
    (hfail : ∀ s, P s → Q s) (h : P s) (hr : allocatePages s n xen = some (t, r)) : Q t :=
  allocateLoop_rule hk htake hfail h id hr

theorem xmallocRecord_rule (hk : Kept P xen)
    (htake : ∀ s b page, P s → search s b 1 = some page → P (take s b page 1)) (h : P s)
    (hr : xmallocRecord s newPage xen = some (t, r)) : P t := by
  unfold xmallocRecord at hr
  split at hr
  case isTrue =>
    split at hr
    case h_1 u page hu =>
      cases hr
      exact allocatePages_rule hk (fun s b page h _ hs => htake s b page h hs) (fun _ h => h) h hu
    case h_2 => cases hr
  case isFalse =>
    cases hr
    exact h

/-- A property that is kept wherever pages are taken, and where pages come back to the first hole.
-/
structure Steady (P : Pool → Prop) : Prop where
  flag : ∀ s f, P s → P { s with inIncreaseMemory := f }
  take : ∀ s b page n, P s → P (take s b page n)
  grow : ∀ s hole rest rc, P s → s.memoryHoleList = hole :: rest → 0 < rc → rc ≤ hole.size →
    P (recordIncrease s hole hole.size rc)

theorem Steady.and (hP : Steady P) (hQ : Steady Q) : Steady fun s => P s ∧ Q s where
  flag s f h := ⟨hP.flag s f h.1, hQ.flag s f h.2⟩
  take s b page n h := ⟨hP.take s b page n h.1, hQ.take s b page n h.2⟩
  grow s hole rest rc h hl hrc hle :=
    ⟨hP.grow s hole rest rc h.1 hl hrc hle, hQ.grow s hole rest rc h.2 hl hrc hle⟩

theorem Steady.kept (hp : Steady P) (xen : Xen) : Kept P xen where
  flag := hp.flag
  frames _ _ h := allocateFrames_rule hp.flag (fun s b page h _ => hp.take s b page 1 h) h
  grow := hp.grow

theorem Steady.allocatePages (hp : Steady P) (h : P s) (hr : allocatePages s n xen = some (t, r)) :
    P t :=
  allocatePages_rule (hp.kept xen) (fun s b page h _ _ => hp.take s b page n h) (fun _ h => h) h hr

theorem Steady.xmallocRecord (hp : Steady P) (h : P s)
    (hr : xmallocRecord s newPage xen = some (t, r)) : P t :=
  xmallocRecord_rule (hp.kept xen) (fun s b page h _ => hp.take s b page 1 h) h hr

theorem resize_rule (hk : Kept P xen)
    (htake : ∀ s b page n, P s → (b = false → isBulk n = false) → search s b n = some page →
    P (take s b page n))
    (h : P s) (hr : resizePhysToMachineMappingTable s newPage xen = some t) :
    ∃ u v r, P u ∧ xmallocRecord { u with nextId := u.nextId + 1 } newPage xen = some (v, r) ∧
      t = { v with
        memoryHoleList := ⟨u.nextId, v.endAllocPage, v.maxEndAllocPage⟩ :: v.memoryHoleList } := by
  obtain ⟨u, hu, hr⟩ := bind_eq_some_iff.mp hr
  obtain ⟨⟨v, r⟩, hv, rfl⟩ := map_eq_some_iff.mp hr
  refine ⟨u, v, r, ?_, hv, rfl⟩
  split at hu
  case isTrue =>
    split at hu
    case h_1 w page hw =>
      cases hu
      exact allocatePages_rule hk (fun s b page h hb hs => htake s b page _ h hb hs) (fun _ h => h)
        h hw
    case h_2 => cases hu
  case isFalse =>
    cases hu
    exact h

/-! ## A round of `guk_decrease_page_pool` -/

def RoomForRecord (s : Pool) (newPage : Bool) : Prop :=
  newPage = true → ∃ p, s.firstFreePage ≤ p ∧ p < s.firstBulkPage ∧ allocated s p = false

theorem xmallocRecord_small (hroom : RoomForRecord s newPage)
    (hr : xmallocRecord s newPage xen = some (t, r)) :
    t = s ∧ r = none ∨ ∃ page, search s false 1 = some page ∧ t = take s false page 1 ∧
      r = some page := by
  unfold xmallocRecord at hr
  split at hr
  case isTrue hnew =>
    obtain ⟨p, hp, hlt, hfree⟩ := hroom hnew
    obtain ⟨page, hs, -⟩ := search_one (b := false) hp hlt hfree
    have halloc : allocatePages s 1 xen = some (take s false page 1, some page) := by
      have hbulk : isBulk 1 = false := by decide
      rw [allocatePages, hbulk, allocateLoop]
      simp only [hs]
    rw [halloc] at hr
    cases hr
    exact .inr ⟨page, hs, rfl, rfl⟩
  case isFalse =>
    cases hr
    exact .inl ⟨rfl, rfl⟩

theorem freeHole_of_round (hpos : 1 ≤ s.firstBulkPage) (hmore : d.more s = true)
    (hpage : d.page < s.endAllocPage)
    (hfree : allocated s d.page = false) : FreeHole s (d.hole s) := by
  obtain ⟨hbulk, hn⟩ := Decrease.more_iff.mp hmore
  rcases hrun : freeRunDown s d.n d.n d.page 0 with ⟨q, nn⟩
  obtain ⟨hsum, -, hlow, hall⟩ := freeRunDown_spec hrun hpos (by omega)
  have hnn := freeRunDown_pos hrun hfree hbulk hpos hn hn
  have hhole : d.hole s = ⟨s.nextId, q + 1, d.page + 1⟩ := by rw [Decrease.hole, hrun]
  rw [hhole]
  refine ⟨⟨by simpa using hlow, by simp only; omega, by simp only; omega⟩, ?_⟩
  intro p hle hlt
  simp only [Hole.size] at hle hlt
  exact hall p (by omega) (by omega)

def afterRecord (t : Pool) (hole : Hole) (recordPage : Option Nat) : Pool :=
  if coalesces t hole then unlockedFree (recordDecrease t hole) recordPage else recordDecrease t
    hole

theorem afterRecord_frame {α : Type} (f : Pool → α)
    (hf : ∀ s page, f (giveBack s page 1) = f s) :
    f (afterRecord t hole r) = f (recordDecrease t hole) := by
  unfold afterRecord
  split
  · cases r with
    | none => rfl
    | some page => exact hf _ page
  · rfl

theorem decreaseRound_cases (hr : decreaseRound s d newPage xen = some (t, d')) :
    (allocated s d.page = true ∧ t = s ∧ d'.page = d.page - 1) ∨
      (allocated s d.page = false ∧ ∃ u r,
      xmallocRecord { s with nextId := s.nextId + 1 } newPage xen = some (u, r) ∧
        t = afterRecord u (d.hole s) r ∧ d'.page = (d.hole s).startPfn - 2) := by
  unfold decreaseRound at hr
  split at hr
  case isTrue hset =>
    cases hr
    exact .inl ⟨hset, rfl, rfl⟩
  case isFalse hset =>
    simp only at hr
    split at hr
    case h_1 => cases hr
    case h_2 u r hx =>
      cases hr
      exact .inr ⟨Bool.eq_false_iff.mpr hset, u, r, hx, rfl, rfl⟩

/-- The next page that is looked at is below the run. -/
theorem BulkRun.below (hrun : BulkRun t new) (hbulk : 1 ≤ t.firstBulkPage) :
    new.startPfn - 2 < (afterRecord t new r).endAllocPage := by
  have hlow := hrun.low
  have hpos := hrun.pos
  have hhigh := hrun.high
  rw [afterRecord_frame Pool.endAllocPage fun _ _ => deallocate_endAllocPage, hrun.endAllocPage]
  split <;> omega

/-! ## Steps -/

structure Settled (P : Pool → Prop) : Prop where
  flag : ∀ s f, P s → P { s with inIncreaseMemory := f }
  nextId : ∀ s k, P s → P { s with nextId := k }
  take : ∀ s b page n, P s → (b = false → isBulk n = false) → search s b n = some page →
    P (take s b page n)
  hole : ∀ s id, P s → s.memoryHoleList = [] →
    P { s with memoryHoleList := ⟨id, s.endAllocPage, s.maxEndAllocPage⟩ :: s.memoryHoleList }

theorem Settled.no_holes (hc : Settled P) (xen : Xen) :
    Kept (fun t => P t ∧ t.memoryHoleList = []) xen := by
  refine ⟨fun s f h => ⟨hc.flag s f h.1, h.2⟩, ?_, ?_⟩
  · intro k s h
    rw [allocateFrames_memoryHoleList]
    exact ⟨allocateFrames_rule hc.flag (fun s b page h hs => hc.take s b page 1 h (fun _ => rfl) hs)
      h.1, h.2⟩
  · intro s hole rest rc h hl
    rw [h.2] at hl
    cases hl

theorem Settled.resize (hc : Settled P) (h : P s) (hl : s.memoryHoleList = [])
    (hr : resizePhysToMachineMappingTable s newPage xen = some t) : P t := by
  have htake : ∀ s b page n, P s ∧ s.memoryHoleList = [] → (b = false → isBulk n = false) →
      search s b n = some page → P (PagePool.take s b page n) ∧
        (PagePool.take s b page n).memoryHoleList = [] := by
    intro s b page n h hb hs
    rw [take_memoryHoleList]
    exact ⟨hc.take s b page n h.1 hb hs, h.2⟩
  obtain ⟨u, v, r, hPu, hv, rfl⟩ := resize_rule (hc.no_holes xen) htake ⟨h, hl⟩ hr
  have hPv :=
    xmallocRecord_rule (hc.no_holes xen) (fun s b page h hs => htake s b page 1 h (fun _ => rfl) hs)
    ⟨hc.nextId u (u.nextId + 1) hPu.1, hPu.2⟩ hv
  exact hc.hole v _ hPv.1 hPv.2

structure Closed (P : Pool → Prop) : Prop extends Settled P where
  wf : ∀ s, P s → Wf s
  shrink : ∀ s new, P s → FreeHole s new → P (recordDecrease s new)
  free : ∀ s page, P s → (page, 1) ∈ s.live → page < s.firstBulkPage → P (giveBack s page 1)

theorem Closed.xmallocRecord {recordPage : Option Nat} (hc : Closed P) (h : P s)
    (hnew : FreeHole s new) (hroom : RoomForRecord s newPage)
    (hx : xmallocRecord s newPage xen = some (t, recordPage)) :
    P t ∧ FreeHole t new ∧ ∀ page, recordPage = some page → (page, 1) ∈ t.live ∧
      page < t.firstBulkPage := by
  rcases xmallocRecord_small hroom hx with ⟨rfl, rfl⟩ | ⟨page, hs, rfl, rfl⟩
  · exact ⟨h, hnew, nofun⟩
  · have hlt := ((hc.wf s h).found hs).2.2.2.2.1 rfl
    have hlow := hnew.low
    refine ⟨hc.take s false page 1 h (fun _ => rfl) hs, ⟨⟨?_, hnew.pos, ?_⟩, ?_⟩, ?_⟩
    · rw [take_firstBulkPage]
      exact hnew.low
    · rw [take_endAllocPage]
      exact hnew.high
    · intro p hle hlt'
      rw [allocated_take, decide_eq_false (by omega), Bool.or_false]
      exact hnew.free p hle hlt'
    · rintro q ⟨⟩
      rw [take_live, take_firstBulkPage]
      exact ⟨List.mem_cons_self, hlt⟩

theorem Closed.afterRecord (hc : Closed P) (h : P t) (hnew : FreeHole t hole)
    (hrec : ∀ page, r = some page → (page, 1) ∈ t.live ∧ page < t.firstBulkPage) :
    P (afterRecord t hole r) := by
  have hPv := hc.shrink t hole h hnew
  unfold PagePool.afterRecord
  split
  · cases r with
    | none => exact hPv
    | some page =>
      obtain ⟨hmem, hlt⟩ := hrec page rfl
      exact hc.free _ page hPv hmem hlt
  · exact hPv

theorem Closed.decreaseRound (hc : Closed P) (hroom : RoomForRecord s newPage)
    (hmore : d.more s = true) (hpage : d.page < s.endAllocPage) (h : P s)
    (hr : decreaseRound s d newPage xen = some (t, d')) : P t ∧ d'.page < t.endAllocPage := by
  rcases decreaseRound_cases hr with ⟨-, rfl, hd'⟩ | ⟨hfree, u, r, hx, rfl, hd'⟩
  · exact ⟨h, by omega⟩
  · have hnew := freeHole_of_round (hc.wf s h).pos hmore hpage hfree
    have hnew' : FreeHole { s with nextId := s.nextId + 1 } (d.hole s) :=
      { hnew with }
    obtain ⟨hPu, hnewu, hrec⟩ := hc.xmallocRecord (hc.nextId s _ h) hnew' hroom hx
    rw [hd']
    exact ⟨hc.afterRecord hPu hnewu hrec, hnewu.below (hc.wf u hPu).pos⟩

inductive Performed (s : Sys) : Label → Sys → Prop where
  | allocate {n : Nat} {xen : Xen} {u : Pool} {r : Option Nat} (hidle : s.decreasing = none)
      (hr : allocatePages s.pool n xen = some (u, r)) :
        Performed s (.allocate n xen) ⟨u, s.decreasing⟩
  | deallocate {page n : Nat} (hidle : s.decreasing = none) (hmem : (page, n) ∈ s.pool.live) :
      Performed s (.deallocate page n) ⟨giveBack s.pool page n, s.decreasing⟩
  | increase {n : Nat} {xen : Xen} (hidle : s.decreasing = none) :
      Performed s (.increase n xen) ⟨(PagePool.increaseMemory s.pool n xen).1, s.decreasing⟩
  | decrease {n : Nat} (hidle : s.decreasing = none) :
      Performed s (.decrease n) ⟨s.pool, some ⟨s.pool.endAllocPage - 1, n, 0⟩⟩
  | round {newPage : Bool} {xen : Xen} {d d' : Decrease} {u : Pool} (hd : s.decreasing = some d)
      (hmore : d.more s.pool = true)
        (hr : PagePool.decreaseRound s.pool d newPage xen = some (u, d')) :
      Performed s (.round newPage xen) ⟨u, some d'⟩
  | done {newPage : Bool} {xen : Xen} {d : Decrease} (hd : s.decreasing = some d)
      (hmore : ¬ d.more s.pool = true) : Performed s (.round newPage xen) ⟨s.pool, none⟩
  | resize {newPage : Bool} {xen : Xen} {u : Pool} (hidle : s.decreasing = none)
      (hholes : s.pool.memoryHoleList = [])
        (hr : resizePhysToMachineMappingTable s.pool newPage xen = some u) :
      Performed s (.resize newPage xen) ⟨u, s.decreasing⟩

theorem step_performed {s t : Sys} (h : step s l = some t) : Performed s l t := by
  cases l with
  | allocate n xen =>
    obtain ⟨⟨hidle, -⟩, h⟩ := ite_none_right_eq_some.mp h
    obtain ⟨⟨u, r⟩, hr, rfl⟩ := map_eq_some_iff.mp h
    exact .allocate hidle hr
  | deallocate page n =>
    obtain ⟨⟨hidle, hmem⟩, rfl⟩ := of_when h
    exact .deallocate hidle hmem
  | increase n xen =>
    obtain ⟨hidle, rfl⟩ := of_when h
    exact .increase hidle
  | decrease n =>
    obtain ⟨hidle, rfl⟩ := of_when h
    exact .decrease hidle
  | round newPage xen =>
    simp only [step] at h
    split at h
    case h_1 => cases h
    case h_2 d hd =>
      split at h
      case isTrue hmore =>
        obtain ⟨⟨u, d'⟩, hr, rfl⟩ := map_eq_some_iff.mp h
        exact .round hd hmore hr
      case isFalse hmore =>
        cases h
        exact .done hd hmore
  | resize newPage xen =>
    obtain ⟨⟨hidle, hholes, -⟩, h⟩ := ite_none_right_eq_some.mp h
    obtain ⟨u, hr, rfl⟩ := map_eq_some_iff.mp h
    exact .resize hidle hholes hr

structure Holds (P : Pool → Prop) (s : Sys) : Prop where
  pool : P s.pool
  page : ∀ d, s.decreasing = some d → d.page < s.pool.endAllocPage

theorem holds_idle {decreasing : Option Decrease} (h : P s) (hd : decreasing = none) :
    Holds P ⟨s, decreasing⟩ := by
  subst hd
  exact ⟨h, nofun⟩

theorem Closed.step {s t : Sys} (hc : Closed P) (h : Holds P s) (hstep : step s l = some t)
    (hallocate : ∀ n xen u r, l = .allocate n xen → allocatePages s.pool n xen = some (u, r) → P u)
    (hdeallocate : ∀ page n, l = .deallocate page n → (page, n) ∈ s.pool.live →
      P (giveBack s.pool page n))
    (hincrease : ∀ n xen, l = .increase n xen → P (increaseMemory s.pool n xen).1)
    (hround : ∀ newPage xen, l = .round newPage xen → RoomForRecord s.pool newPage) :
    Holds P t := by
  cases step_performed hstep with
  | allocate hidle hr => exact holds_idle (hallocate _ _ _ _ rfl hr) hidle
  | deallocate hidle hmem => exact holds_idle (hdeallocate _ _ rfl hmem) hidle
  | increase hidle => exact holds_idle (hincrease _ _ rfl) hidle
  | decrease hidle =>
    refine ⟨h.pool, ?_⟩
    rintro d ⟨⟩
    have h₁ := (hc.wf s.pool h.pool).pos
    have h₂ := (hc.wf s.pool h.pool).bulk_le
    change s.pool.endAllocPage - 1 < s.pool.endAllocPage
    omega
  | round hd hmore hr =>
    have hnext := hc.decreaseRound (hround _ _ rfl) hmore (h.page _ hd) h.pool hr
    refine ⟨hnext.1, ?_⟩
    rintro d'' ⟨⟩
    exact hnext.2
  | done => exact holds_idle h.pool rfl
  | resize hidle hholes hr => exact holds_idle (hc.toSettled.resize h.pool hholes hr) hidle

/-! ## A run with a hole, an increase and a free -/

def allMemory : Xen := fun _ => ⟨32768, 0⟩

def inUse : List Label :=
  [.allocate 511 noMemory, .allocate 140 noMemory, .allocate 3 noMemory, .decrease 8,
    .round false noMemory, .round false noMemory, .increase 2 allMemory, .deallocate 655 3]

end Guk.PagePool
