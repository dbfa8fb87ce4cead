import Guk.PagePoolInv

/-!
# Holes of the page pool

Pages come back at the start of the first hole and go at the end of a run of free
pages. Both keep the invariant of the pool.
-/
namespace Guk.PagePool

open Bitmap List

variable {s t : Pool} {page n p rc size : Nat} {hole new h : Hole} {rest holes : List Hole}

def InHole (s : Pool) (p : Nat) : Prop := ∃ h ∈ s.memoryHoleList, h.Has p

theorem Decrease.more_iff {d : Decrease} : d.more s = true ↔ s.firstBulkPage ≤ d.page ∧ 0 < d.n :=
  decide_eq_true_iff

/-! ## Pages come back -/

theorem allocated_recordIncrease : allocated (recordIncrease s hole size rc) p =
    (allocated s p && !decide (hole.startPfn ≤ p ∧ p < hole.startPfn + rc)) :=
  allocated_mapFree

theorem recordIncrease_endAllocPage : (recordIncrease s hole size rc).endAllocPage =
    max s.endAllocPage (hole.startPfn + rc) := by
  change (if s.endAllocPage < hole.startPfn + rc then _ else _) = _
  split <;> omega

theorem canIncrease_eq_zero_iff : canIncrease holes n = 0 ↔ n = 0 ∨ holePages holes < n := by
  induction holes generalizing n with
  | nil => exact ⟨fun _ => Nat.eq_zero_or_pos n, fun _ => rfl⟩
  | cons a holes ih =>
    rw [canIncrease, holePages]
    split
    · omega
    · rw [ih]
      omega

theorem recordIncrease_memoryHoleList (hwf : Wf s) (hl : s.memoryHoleList = hole :: rest)
    (hrc : 0 < rc) (hle : rc ≤ hole.size) : (recordIncrease s hole hole.size rc).memoryHoleList =
      if hole.size = rc then rest else { hole with startPfn := hole.startPfn + rc } :: rest := by
  have hsorted := hwf.sorted
  rw [hl] at hsorted
  have hne : ∀ h ∈ rest, h ≠ hole := by
    rintro h hmem rfl
    have := (List.pairwise_cons.mp hsorted).1 h hmem
    unfold Hole.size at hle
    omega
  change (if hole.size = rc then s.memoryHoleList.erase hole else s.memoryHoleList.map _) = _
  rw [hl, erase_cons_head, map_cons, if_pos rfl]
  congr 2
  rw [map_congr_left (g := id), map_id]
  intro h hmem
  rw [if_neg (hne h hmem), id]

theorem mem_recordIncrease (hwf : Wf s) (hl : s.memoryHoleList = hole :: rest) (hrc : 0 < rc)
    (hle : rc ≤ hole.size) (hmem : h ∈ (recordIncrease s hole hole.size rc).memoryHoleList) :
    h = { hole with startPfn := hole.startPfn + rc } ∧ hole.size ≠ rc ∨ h ∈ rest := by
  rw [recordIncrease_memoryHoleList hwf hl hrc hle] at hmem
  split at hmem
  case isTrue => exact .inr hmem
  case isFalse hsize =>
    cases hmem with
    | head => exact .inl ⟨rfl, hsize⟩
    | tail _ hmem => exact .inr hmem

theorem has_recordIncrease (hwf : Wf s) (hl : s.memoryHoleList = hole :: rest) (hrc : 0 < rc)
    (hle : rc ≤ hole.size) (hmem : h ∈ (recordIncrease s hole hole.size rc).memoryHoleList)
    (hhas : h.Has p) : ∃ h' ∈ s.memoryHoleList, h'.Has p ∧ hole.startPfn + rc ≤ p := by
  have hsz : rc ≤ hole.endPfn - hole.startPfn := hle
  have hsorted := hwf.sorted
  rw [hl] at hsorted ⊢
  obtain ⟨hge, hlt⟩ := hhas
  rcases mem_recordIncrease hwf hl hrc hle hmem with ⟨rfl, -⟩ | hrest
  · have hge' : hole.startPfn + rc ≤ p := hge
    exact ⟨hole, mem_cons_self, ⟨by omega, hlt⟩, hge'⟩
  · have hafter := (List.pairwise_cons.mp hsorted).1 h hrest
    exact ⟨h, mem_cons_of_mem _ hrest, ⟨hge, hlt⟩, by omega⟩

theorem covers_recordIncrease (hwf : Wf s) (hl : s.memoryHoleList = hole :: rest) (hrc : 0 < rc)
    (hle : rc ≤ hole.size) (hmem : h ∈ s.memoryHoleList) (hhas : h.Has p)
    (hout : hole.startPfn + rc ≤ p) :
    ∃ h' ∈ (recordIncrease s hole hole.size rc).memoryHoleList, h'.Has p := by
  rw [recordIncrease_memoryHoleList hwf hl hrc hle]
  rw [hl] at hmem
  obtain ⟨hge, hlt⟩ := hhas
  rcases List.mem_cons.mp hmem with rfl | hrest
  · have hne : ¬ h.size = rc := by
      unfold Hole.size
      omega
    rw [if_neg hne]
    exact ⟨_, mem_cons_self, hout, hlt⟩
  · split
    · exact ⟨h, hrest, hge, hlt⟩
    · exact ⟨h, mem_cons_of_mem _ hrest, hge, hlt⟩

theorem wf_recordIncrease (hwf : Wf s) (hl : s.memoryHoleList = hole :: rest) (hrc : 0 < rc)
    (hle : rc ≤ hole.size) : Wf (recordIncrease s hole hole.size rc) := by
  have hsz : rc ≤ hole.endPfn - hole.startPfn := hle
  have hmem := hl ▸ mem_cons_self
  have hstart := hwf.head_le hl
  have hside := hwf.holeSide hole hmem
  have hrange := hwf.range hole hmem
  have hsorted := hwf.sorted
  rw [hl] at hsorted
  have hrest := (List.pairwise_cons.mp hsorted).1
  have hin : ∀ h ∈ rest, h ∈ s.memoryHoleList := fun h hh => hl ▸ mem_cons_of_mem hole hh
  have hstays : ∀ {p}, allocated s p = true → ¬ (hole.startPfn ≤ p ∧ p < hole.startPfn + rc) →
      allocated (recordIncrease s hole hole.size rc) p = true := by
    intro p hset hout
    rw [allocated_recordIncrease, hset, decide_eq_false hout]
    rfl
  have hbulk := hwf.bulk_le
  have hend := hwf.end_le
  refine ⟨hwf.low, hwf.alloc_le, ?_, ?_, hwf.hintLow, hwf.bulkHintLow, ?_, ?_, ?_, ?_, ?_, ?_, ?_,
    hwf.blockApart, ?_⟩
  · rw [recordIncrease_endAllocPage]
    exact le_trans hwf.bulk_le (Nat.le_max_left _ _)
  · rw [recordIncrease_endAllocPage]
    change max s.endAllocPage (hole.startPfn + rc) ≤ s.maxEndAllocPage
    omega
  · rw [recordIncrease_memoryHoleList hwf hl hrc hle]
    split
    · exact (List.pairwise_cons.mp hsorted).2
    · exact List.pairwise_cons.mpr ⟨hrest, (List.pairwise_cons.mp hsorted).2⟩
  · intro h hh
    rcases mem_recordIncrease hwf hl hrc hle hh with ⟨rfl, hne⟩ | hh
    · have hne' : hole.endPfn - hole.startPfn ≠ rc := hne
      change s.firstBulkPage ≤ hole.startPfn + rc ∧ hole.startPfn + rc ≤ hole.endPfn ∧
        hole.endPfn ≤ s.maxEndAllocPage ∧ (hole.startPfn + rc < hole.endPfn ∨ _)
      refine ⟨by omega, by omega, by omega, .inl (by omega)⟩
    · exact hwf.range h (hin h hh)
  · intro h hh p hhas hp
    obtain ⟨h', hh', hhas', hge⟩ := has_recordIncrease hwf hl hrc hle hh hhas
    rw [recordIncrease_endAllocPage] at hp
    exact hstays (hwf.holeSet h' hh' p hhas' (by omega)) (by omega)
  · intro h hh hlt
    rw [recordIncrease_endAllocPage] at hlt ⊢
    rcases mem_recordIncrease hwf hl hrc hle hh with ⟨rfl, hne⟩ | hh
    · simp only at hlt ⊢
      omega
    · have h₁ := hwf.holeSide h (hin h hh)
      have h₂ := hrest h hh
      omega
  · intro h hh p hge hlt
    rw [recordIncrease_endAllocPage] at hge
    have hend' : ∃ h' ∈ s.memoryHoleList, p < h'.endPfn := by
      rcases mem_recordIncrease hwf hl hrc hle hh with ⟨rfl, -⟩ | hh
      · exact ⟨hole, hmem, hlt⟩
      · exact ⟨h, hin h hh, hlt⟩
    obtain ⟨h', hh', hlt'⟩ := hend'
    obtain ⟨h'', hh'', hhas⟩ := hwf.holeTop h' hh' p (by omega) hlt'
    exact covers_recordIncrease hwf hl hrc hle hh'' hhas (by omega)
  · intro a ha
    have hblock := hwf.block a ha
    rw [recordIncrease_endAllocPage]
    refine ⟨hblock.1, hblock.2.imp_right fun h => ⟨h.1, ?_⟩⟩
    exact le_trans h.2 (Nat.le_max_left _ _)
  · intro a ha p hle' hlt
    apply hstays (hwf.blockSet a ha p hle' hlt)
    intro ⟨h₁, h₂⟩
    exact hwf.blockHole a ha hole hmem p hle' hlt ⟨h₁, by omega⟩
  · intro a ha h hh p hle' hlt hhas
    obtain ⟨h', hh', hhas', -⟩ := has_recordIncrease hwf hl hrc hle hh hhas
    exact hwf.blockHole a ha h' hh' p hle' hlt hhas'

/-! ## Pages go -/

theorem mem_memoryHoleAdd : h ∈ memoryHoleAdd new holes ↔ h = new ∨ h ∈ holes := by
  induction holes with
  | nil => simp [memoryHoleAdd]
  | cons a holes ih =>
    rw [memoryHoleAdd]
    split
    · simp
    · rw [mem_cons, ih, mem_cons]
      tauto

theorem pairwise_memoryHoleAdd {R : Hole → Hole → Prop} (h : holes.Pairwise R)
    (hnew : ∀ a ∈ holes, if new.startPfn < a.startPfn then R new a else R a new)
    (hlater : ∀ a ∈ holes, ∀ b, new.startPfn < a.startPfn → R a b → R new b) :
    (memoryHoleAdd new holes).Pairwise R := by
  induction holes with
  | nil => exact pairwise_singleton _ _
  | cons a holes ih =>
    obtain ⟨hfirst, hrest⟩ := List.pairwise_cons.mp h
    have ha := hnew a mem_cons_self
    rw [memoryHoleAdd]
    by_cases hlt : new.startPfn < a.startPfn
    · rw [if_pos hlt] at ha ⊢
      refine List.pairwise_cons.mpr ⟨?_, h⟩
      intro b hb
      rcases List.mem_cons.mp hb with rfl | hb
      · exact ha
      · exact hlater a mem_cons_self b hlt (hfirst b hb)
    · rw [if_neg hlt] at ha ⊢
      refine List.pairwise_cons.mpr ⟨?_, ih hrest (fun b hb => hnew b (mem_cons_of_mem a hb))
        fun b hb => hlater b (mem_cons_of_mem a hb)⟩
      intro b hb
      rcases mem_memoryHoleAdd.mp hb with rfl | hb
      · exact ha
      · exact hfirst b hb

theorem allocated_recordDecrease : allocated (recordDecrease s new) p =
    (allocated s p || decide (new.startPfn ≤ p ∧ p < new.startPfn + new.size)) :=
  allocated_mapAlloc

theorem recordDecrease_numFreePages :
    (recordDecrease s new).numFreePages = sub64 s.numFreePages new.size := rfl

theorem recordDecrease_numFreeBulkPages :
    (recordDecrease s new).numFreeBulkPages = sub64 s.numFreeBulkPages new.size := rfl

structure BulkRun (s : Pool) (new : Hole) : Prop where
  low : s.firstBulkPage ≤ new.startPfn
  pos : new.startPfn < new.endPfn
  high : new.endPfn ≤ s.endAllocPage

structure FreeHole (s : Pool) (new : Hole) : Prop extends BulkRun s new where
  free : FreePages s new.startPfn new.size

theorem BulkRun.end_eq (hf : BulkRun s new) : new.startPfn + new.size = new.endPfn := by
  have := hf.pos
  unfold Hole.size
  omega

theorem BulkRun.endAllocPage (hf : BulkRun s new) : (recordDecrease s new).endAllocPage =
    if s.endAllocPage = new.endPfn then new.startPfn else s.endAllocPage := by
  have hend := hf.end_eq
  change (if s.endAllocPage = new.endPfn then s.endAllocPage - new.size else s.endAllocPage) = _
  split <;> omega

theorem FreeHole.apart (hf : FreeHole s new) (hwf : Wf s) (hmem : h ∈ s.memoryHoleList) :
    h.endPfn ≤ new.startPfn ∨ new.endPfn ≤ h.startPfn := by
  by_contra hover
  simp only [not_or, Nat.not_le] at hover
  have hrange := hwf.range h hmem
  have hend := hf.end_eq
  have hpos := hf.pos
  have hhigh := hf.high
  have hle := hwf.end_le
  have hset := hwf.holeSet h hmem (max h.startPfn new.startPfn)
    ⟨by omega, by omega⟩ (by omega)
  rw [hf.free (max h.startPfn new.startPfn) (by omega) (by omega)] at hset
  cases hset

theorem mem_recordDecrease (hmem : h ∈ (recordDecrease s new).memoryHoleList) :
    h ∈ s.memoryHoleList ∨ h = new ∨
      ∃ head rest, s.memoryHoleList = head :: rest ∧ new.endPfn = head.startPfn ∧
        h = { head with startPfn := new.startPfn } := by
  simp only [recordDecrease, removePages] at hmem
  split at hmem
  case h_1 hl => exact .inr (.inl (List.mem_singleton.mp hmem))
  case h_2 head rest hl =>
    split at hmem
    case isTrue =>
      rw [hl]
      rcases mem_memoryHoleAdd.mp hmem with h₁ | h₁
      · exact .inr (.inl h₁)
      · exact .inl h₁
    case isFalse heq =>
      rw [hl]
      cases hmem with
      | head => exact .inr (.inr ⟨head, rest, rfl, not_not.mp heq, rfl⟩)
      | tail _ hmem => exact .inl (mem_cons_of_mem _ hmem)

theorem covers_recordDecrease (hrange : ∀ h ∈ s.memoryHoleList, h.startPfn ≤ h.endPfn)
    (hpos : new.startPfn < new.endPfn) (hp : (∃ h ∈ s.memoryHoleList, h.Has p) ∨ new.Has p) :
    ∃ h ∈ (recordDecrease s new).memoryHoleList, h.Has p := by
  simp only [recordDecrease, removePages]
  split
  case h_1 hl =>
    rw [hl] at hp
    rcases hp with ⟨h, hmem, -⟩ | hp
    · cases hmem
    · exact ⟨new, mem_cons_self, hp⟩
  case h_2 head rest hl =>
    have hhead := hrange head (hl ▸ mem_cons_self)
    rw [hl] at hp
    split
    case isTrue =>
      rcases hp with ⟨h, hmem, hhas⟩ | hp
      · exact ⟨h, mem_memoryHoleAdd.mpr (.inr hmem), hhas⟩
      · exact ⟨new, mem_memoryHoleAdd.mpr (.inl rfl), hp⟩
    case isFalse heq =>
      have heq := not_not.mp heq
      rcases hp with ⟨h, hmem, h₁, h₂⟩ | ⟨h₁, h₂⟩
      · rcases List.mem_cons.mp hmem with rfl | hmem
        · exact ⟨_, mem_cons_self, by change new.startPfn ≤ p; omega, h₂⟩
        · exact ⟨h, mem_cons_of_mem _ hmem, h₁, h₂⟩
      · exact ⟨_, mem_cons_self, h₁, by change p < head.endPfn; omega⟩

theorem sorted_recordDecrease (hwf : Wf s) (hf : FreeHole s new) :
    (recordDecrease s new).memoryHoleList.Pairwise fun a b => a.endPfn ≤ b.startPfn := by
  simp only [recordDecrease, removePages]
  have hsorted := hwf.sorted
  split
  case h_1 => exact pairwise_singleton _ _
  case h_2 head rest hl =>
    split
    case isTrue =>
      rw [← hl]
      have hplace : ∀ a ∈ s.memoryHoleList, _ :=
        fun a ha => And.intro (hwf.range a ha) (hf.apart hwf ha)
      have hpos := hf.pos
      refine pairwise_memoryHoleAdd hsorted (fun a ha => ?_) fun a ha b hlt hab => ?_
      · have := hplace a ha
        split <;> omega
      · have := hplace a ha
        omega
    case isFalse =>
      rw [hl] at hsorted
      obtain ⟨h₁, h₂⟩ := List.pairwise_cons.mp hsorted
      exact List.pairwise_cons.mpr ⟨h₁, h₂⟩

theorem has_recordDecrease (hmem : h ∈ (recordDecrease s new).memoryHoleList) (hhas : h.Has p) :
    (∃ h' ∈ s.memoryHoleList, h'.Has p) ∨ new.Has p := by
  rcases mem_recordDecrease hmem with hmem | rfl | ⟨head, rest, hl, heq, rfl⟩
  · exact .inl ⟨h, hmem, hhas⟩
  · exact .inr hhas
  · have h₁ := hhas.1
    have h₂ := hhas.2
    by_cases hp : p < new.endPfn
    · exact .inr ⟨h₁, hp⟩
    · exact .inl ⟨head, hl ▸ mem_cons_self, by omega, h₂⟩

theorem inHole_recordDecrease (hrange : ∀ h ∈ s.memoryHoleList, h.startPfn ≤ h.endPfn)
    (hpos : new.startPfn < new.endPfn) : InHole (recordDecrease s new) p ↔ InHole s p ∨ new.Has p :=
  ⟨fun ⟨_, hmem, hhas⟩ => has_recordDecrease hmem hhas, covers_recordDecrease hrange hpos⟩

theorem block_recordDecrease (hwf : Wf s) (hf : FreeHole s new) {a : Nat × Nat} (ha : a ∈ s.live) :
    a.1 + a.2 ≤ (recordDecrease s new).endAllocPage := by
  have hpos := hf.pos
  have hend := hf.end_eq
  have hle := hwf.block_end ha
  have h₁ := (hwf.block a ha).1
  have hapart := hwf.apart_free ha (by unfold Hole.size; omega) hf.free
  simp only [Apart] at hapart
  rw [hf.endAllocPage]
  split <;> omega

theorem wf_recordDecrease (hwf : Wf s) (hf : FreeHole s new) : Wf (recordDecrease s new) := by
  have hlow := hf.low
  have hpos := hf.pos
  have hhigh := hf.high
  have hend := hf.end_eq
  have hmax := hwf.end_le
  have hset : ∀ {p}, allocated s p = true → allocated (recordDecrease s new) p = true := by
    intro p h
    rw [allocated_recordDecrease, h, Bool.true_or]
  have hnew : ∀ {p}, new.Has p → allocated (recordDecrease s new) p = true := by
    intro p ⟨h₁, h₂⟩
    rw [allocated_recordDecrease, decide_eq_true (by omega), Bool.or_true]
  refine ⟨hwf.low, hwf.alloc_le, ?_, ?_, hwf.hintLow, hwf.bulkHintLow, sorted_recordDecrease hwf hf,
    ?_, ?_, ?_, ?_, ?_, ?_, hwf.blockApart, ?_⟩
  · rw [hf.endAllocPage]
    change s.firstBulkPage ≤ _
    split <;> omega
  · rw [hf.endAllocPage]
    change _ ≤ s.maxEndAllocPage
    split <;> omega
  · intro h hmem
    change s.firstBulkPage ≤ h.startPfn ∧ h.startPfn ≤ h.endPfn ∧ h.endPfn ≤ s.maxEndAllocPage ∧
      (h.startPfn < h.endPfn ∨ h.startPfn = s.maxEndAllocPage)
    rcases mem_recordDecrease hmem with hmem | rfl | ⟨head, rest, hl, heq, rfl⟩
    · exact hwf.range h hmem
    · omega
    · have := hwf.range head (hl ▸ mem_cons_self)
      simp only
      omega
  · intro h hmem p hhas hp
    rcases has_recordDecrease hmem hhas with ⟨h', hh', hhas'⟩ | hp'
    · apply hset
      apply hwf.holeSet h' hh' p hhas'
      rw [hf.endAllocPage] at hp
      split at hp <;> omega
    · exact hnew hp'
  · intro h hmem hlt
    rw [hf.endAllocPage] at hlt ⊢
    rcases mem_recordDecrease hmem with hmem | rfl | ⟨head, rest, hl, heq, rfl⟩
    · have h₁ := hwf.holeSide h hmem
      have h₂ := hf.apart hwf hmem
      have h₃ := hwf.range h hmem
      split at hlt <;> split <;> omega
    · split at hlt <;> split <;> omega
    · have h₁ := hwf.holeSide head (hl ▸ mem_cons_self)
      simp only at hlt ⊢
      split at hlt <;> split <;> omega
  · intro h hmem p hge hlt
    apply covers_recordDecrease (fun a ha => (hwf.range a ha).2.1) hf.pos
    by_cases hp : new.Has p
    · exact .inr hp
    · have hout : ¬ (new.startPfn ≤ p ∧ p < new.endPfn) := hp
      have hE : s.endAllocPage ≤ p := by
        rw [hf.endAllocPage] at hge
        split at hge <;> omega
      left
      rcases mem_recordDecrease hmem with hmem | rfl | ⟨head, rest, hl, heq, rfl⟩
      · exact hwf.holeTop h hmem p hE hlt
      · omega
      · exact hwf.holeTop head (hl ▸ mem_cons_self) p hE hlt
  · intro a ha
    refine ⟨(hwf.block a ha).1, (hwf.block a ha).2.imp_right fun h =>
      ⟨h.1, block_recordDecrease hwf hf ha⟩⟩
  · exact fun a ha p hle hlt => hset (hwf.blockSet a ha p hle hlt)
  · intro a ha h hmem p hle hlt hhas
    rcases has_recordDecrease hmem hhas with ⟨h', hh', hhas'⟩ | ⟨h₁, h₂⟩
    · exact hwf.blockHole a ha h' hh' p hle hlt hhas'
    · have := hwf.blockSet a ha p hle hlt
      rw [hf.free p h₁ (by omega)] at this
      cases this

end Guk.PagePool
