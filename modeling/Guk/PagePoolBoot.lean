import Guk.PagePoolBalloon

/-!
# `init_mm` and the balloon

The bitmap has `max_end_alloc_page / BITS_PER_PAGE` pages, rounded down: the bits of
the last pages of a reservation that is no multiple of `BITS_PER_PAGE` lie behind
it, in the first pages of the pool, and nobody sets them. `arch_init_p2m` notes the
memory that the domain started with after it has allocated pages itself.
-/
namespace Guk.PagePool

open Bitmap Runs Option List

variable {s t u : Pool} {b : Bool} {page n p rc k maxmemPfn maxPfn : Nat} {hole : Hole}
  {rest : List Hole} {xen : Xen} {r : Option Nat} {c : Config} {P : Pool → Prop}

structure Booting (c : Config) (s : Pool) : Prop where
  wf : Wf s
  max : s.maxEndAllocPage = c.maximumReservation
  fits : s.maxEndAllocPage < 2 ^ 31
  grown : s.endAllocPage = c.max + s.gained
  kept : s.released = 0
  holes : s.memoryHoleList = [] ∨
    ∃ id, s.memoryHoleList = [⟨id, s.endAllocPage, s.maxEndAllocPage⟩]

theorem booting_take (h : Booting c s) (hsmall : b = false → isBulk n = false)
    (hs : search s b n = some page) : Booting c (take s b page n) := by
  have hwf := wf_take h.wf h.fits hs hsmall
  cases b <;> exact { h with wf := hwf }

theorem booting_flag {f : Bool} (h : Booting c s) : Booting c { s with inIncreaseMemory := f } :=
  { h with wf := wf_flag h.wf }

theorem booting_recordIncrease (h : Booting c s) (hl : s.memoryHoleList = hole :: rest)
    (hrc : 0 < rc) (hle : rc ≤ hole.size) : Booting c (recordIncrease s hole hole.size rc) := by
  have hlist := recordIncrease_memoryHoleList h.wf hl hrc hle
  obtain ⟨id, hid⟩ := h.holes.resolve_left (by rw [hl]; simp)
  rw [hl] at hid
  obtain ⟨rfl, rfl⟩ := cons.inj hid
  have hend : (recordIncrease s ⟨id, s.endAllocPage, s.maxEndAllocPage⟩
      (Hole.size ⟨id, s.endAllocPage, s.maxEndAllocPage⟩) rc).endAllocPage =
        s.endAllocPage + rc := by
    rw [recordIncrease_endAllocPage]
    change max s.endAllocPage (s.endAllocPage + rc) = _
    omega
  refine ⟨wf_recordIncrease h.wf hl hrc hle, h.max, h.fits, ?_, h.kept, ?_⟩
  · rw [hend, h.grown]
    exact Nat.add_assoc ..
  · rw [hlist, hend]
    split
    · exact .inl rfl
    · exact .inr ⟨id, rfl⟩

theorem kept_booting (xen : Xen) : Kept (Booting c) xen := by
  refine ⟨fun s f h => booting_flag h, ?_, ?_⟩
  · intro k s h
    apply allocateFrames_rule (fun s f h => booting_flag h) _ h
    intro s b page h hs
    exact booting_take h (fun _ => by decide) hs
  · intro s hole rest rc h hl hrc hle
    exact booting_recordIncrease h hl hrc hle

theorem archInitP2m_limit {xen : Nat → Xen}
    (h : archInitP2m s maxPfn maxmemPfn xen = some t) : maxmemPfn < 2 ^ 31 := by
  obtain ⟨u, -, hu⟩ := bind_eq_some_iff.mp h
  obtain ⟨hle, -⟩ := ite_none_left_eq_some.mp hu
  unfold MAX_L2_PAGES PFNS_PER_L3_PAGE at hle
  omega

def Beyond (s : Pool) : Prop :=
  ∀ p, s.endAllocPage ≤ p → p < s.maxEndAllocPage → allocated s p = true

theorem beyond_initPageAllocator (hdiv : BITS_PER_PAGE ∣ c.maximumReservation) :
    Beyond (initPageAllocator c) := by
  intro p hge hlt
  have hmap : allocated (initPageAllocator c) p = _ := allocated_mapFree
  have hge' : c.max ≤ p := hge
  have hlt' : p < c.maximumReservation := hlt
  have hfits := c.fits
  have hbit : p % 64 < 64 := Nat.mod_lt p (by decide)
  have hword : p / 64 < c.maximumReservation / BITS_PER_PAGE * 512 := by
    have hmul := Nat.div_mul_cancel hdiv
    unfold BITS_PER_PAGE at hmul ⊢
    omega
  rw [hmap, decide_eq_false (by omega), Bool.not_false, Bool.and_true, allocatedInMap_eq,
    if_pos hword, BitVec.getLsbD_not]
  simp [hbit]

theorem settled_max {M : Nat} : Settled fun s => s.maxEndAllocPage = M where
  flag _ _ h := h
  nextId _ _ h := h
  take _ _ _ _ h _ _ := by
    rw [take_maxEndAllocPage]
    exact h
  hole _ _ h _ := h

theorem settled_booting : Settled fun s => Booting c s ∧ s.gained = 0 where
  flag _ _ h := ⟨booting_flag h.1, h.2⟩
  nextId _ _ h := ⟨⟨wf_nextId h.1.wf, h.1.max, h.1.fits, h.1.grown, h.1.kept, h.1.holes⟩, h.2⟩
  take _ _ _ _ h hb hs := by
    rw [take_gained]
    exact ⟨booting_take h.1 hb hs, h.2⟩
  hole _ id h hl :=
    ⟨⟨wf_initial_hole h.1.wf hl, h.1.max, h.1.fits, h.1.grown, h.1.kept, .inr ⟨id, by rw [hl]⟩⟩,
      h.2⟩

theorem settled_beyond : Settled Beyond where
  flag _ _ h := h
  nextId _ _ h := h
  take s b page n h _ _ := by
    intro p
    rw [take_endAllocPage, take_maxEndAllocPage, allocated_take]
    intro hge hlt
    rw [h p hge hlt, Bool.true_or]
  hole _ _ h _ := h

theorem booting_initPageAllocator (hfits : c.maximumReservation < 2 ^ 31) :
    Booting c (initPageAllocator c) ∧ (initPageAllocator c).gained = 0 :=
  ⟨⟨wf_initPageAllocator c, rfl, hfits, rfl, rfl, .inl rfl⟩, rfl⟩

theorem resize_memoryHoleList {newPage : Bool}
    (h : resizePhysToMachineMappingTable s newPage xen = some t) : t.memoryHoleList ≠ [] := by
  obtain ⟨u, -, h⟩ := bind_eq_some_iff.mp h
  obtain ⟨⟨v, r⟩, -, rfl⟩ := map_eq_some_iff.mp h
  exact cons_ne_nil _ _

theorem initMm_resized {b : Boot} (h : initMm b = some s) : ∃ t,
    resizePhysToMachineMappingTable (initPageAllocator b.config) b.newPage (b.xen 0) = some t ∧
    archInitP2m t b.config.max t.maxEndAllocPage (fun k => b.xen (k + 1)) = some s ∧
    Booting b.config t ∧ t.gained = 0 := by
  obtain ⟨t, hresize, hp2m⟩ := bind_eq_some_iff.mp h
  have hmax := settled_max.resize rfl rfl hresize
  have hlimit := archInitP2m_limit hp2m
  rw [hmax] at hlimit
  have hboot := settled_booting.resize (booting_initPageAllocator hlimit) rfl hresize
  exact ⟨t, hresize, hp2m, hboot.1, hboot.2⟩

theorem wf_p2m (h : Wf s) : Wf { s with maxPfnTable := k } := by
  cases h
  constructor <;> assumption

theorem booting_p2m (h : Booting c s) : Booting c { s with maxPfnTable := k } :=
  { h with wf := wf_p2m h.wf }

theorem allocPage_rule (hk : Kept P xen)
    (htake : ∀ s b page, P s → search s b 1 = some page → P (take s b page 1)) (h : P s)
    (ht : allocPage s xen = some t) : P t := by
  unfold allocPage at ht
  split at ht
  case h_1 u page hu =>
    cases ht
    exact allocatePages_rule hk (fun s b page h _ hs => htake s b page h hs) (fun _ h => h) h hu
  case h_2 => cases ht

theorem archInitP2m_rule {xen : Nat → Xen}
    (hone : ∀ i s t, P s → allocPage s (xen i) = some t → P t)
    (hp2m : ∀ s k, P s → P { s with maxPfnTable := k }) (h : P s)
    (ht : archInitP2m s maxPfn maxmemPfn xen = some t) : P t ∧ t.maxPfnTable = maxPfn := by
  have hmany : ∀ i s t, P s → allocL2Pages xen i s = some t → P t := by
    intro i
    induction i with
    | zero =>
      intro s t hs ht
      cases ht
      exact hs
    | succ i ih =>
      intro s t hs ht
      obtain ⟨u, hu, ht⟩ := bind_eq_some_iff.mp ht
      exact ih u t (hone i s u hs hu) ht
  obtain ⟨u, hu, ht⟩ := bind_eq_some_iff.mp ht
  obtain ⟨-, ht⟩ := ite_none_left_eq_some.mp ht
  obtain ⟨v, hv, rfl⟩ := map_eq_some_iff.mp ht
  have hPu := hp2m u 0 (hone _ s u h hu)
  exact ⟨hp2m v maxPfn (hmany _ _ v hPu hv), rfl⟩

theorem initMm_limit {b : Boot} (h : initMm b = some s) :
    s.maxPfnTable = b.config.max ∧ s.endAllocPage = b.config.max + s.gained := by
  obtain ⟨t, -, hp2m, hboot, -⟩ := initMm_resized h
  have hs : Booting b.config s ∧ s.maxPfnTable = b.config.max := by
    apply archInitP2m_rule _ (fun s k h => booting_p2m h) hboot hp2m
    intro i s t hs ht
    exact allocPage_rule (kept_booting _)
      (fun s b page h hs => booting_take h (fun _ => by decide) hs) hs ht
  exact ⟨hs.2, hs.1.grown⟩

/-! ### Without memory from Xen -/

section

variable (hxen : ∀ k, (xen k).populated = 0)

include hxen

theorem increaseReservation_dry : increaseReservation s n (xen 0) = (s, 0) := by
  simp [increaseReservation, hxen]

theorem increaseMemory_dry : (increaseMemory s n xen).2.1 = 0 := by
  have hloop : ∀ fuel s, (increaseLoop fuel s n 0 xen).2.1 = 0 := by
    intro fuel s
    cases fuel with
    | zero => rfl
    | succ fuel =>
      by_cases hn : n = 0
      · rw [increaseLoop_stop (.inl hn)]
      · cases hl : s.memoryHoleList with
        | nil => rw [increaseLoop_stop (.inr hl)]
        | cons hole rest => rw [increaseLoop_cons hn hl, increaseReservation_dry hxen, if_pos rfl]
  unfold increaseMemory
  split
  · rfl
  · simp only
    split
    · exact hloop _ _
    · rfl

theorem allocPage_dry (ht : allocPage s xen = some t) :
    ∃ b page, search s b 1 = some page ∧ t = take s b page 1 := by
  have hloop : ∀ fuel b page, allocateLoop 1 fuel s b xen = some (t, some page) →
      ∃ b page, search s b 1 = some page ∧ t = take s b page 1 := by
    intro fuel
    induction fuel with
    | zero =>
      intro b page h
      cases h
    | succ fuel ih =>
      intro b page h
      cases allocateLoop_round h with
      | found q hq ht => exact ⟨b, q, hq, ht⟩
      | bulk _ _ hrest => exact ih true page hrest
      | refused _ _ _ _ hnone => cases hnone
      | gained _ _ u result xen' hinc hne =>
        have hdry := increaseMemory_dry (s := s) (n := 1) hxen
        rw [hinc] at hdry
        exact absurd hdry hne
  unfold allocPage at ht
  split at ht
  case h_1 u page hu =>
    cases ht
    exact hloop _ _ page hu
  case h_2 => cases ht

end

theorem ballooned_of_booting (h : Booting c s) (hgained : s.gained = 0) (hbeyond : Beyond s)
    (hne : s.memoryHoleList ≠ []) : Ballooned c.max s := by
  obtain ⟨id, hid⟩ := h.holes.resolve_left hne
  have hgrown := h.grown
  have hkept := h.kept
  have hend := h.wf.end_le
  refine ⟨h.wf, h.fits, ?_, ?_, ?_, ?_⟩
  · rw [hid]
    exact pairwise_singleton _ _
  · intro a ha p hhas
    rw [hid] at ha
    rw [mem_singleton.mp ha] at hhas
    exact hbeyond p hhas.1 hhas.2
  · intro p hge hlt
    rw [hid]
    exact ⟨_, mem_cons_self, hge, hlt⟩
  · rw [hid]
    simp only [holePages, Hole.size]
    omega

theorem agreed_initMm {b : Boot} (hdiv : BITS_PER_PAGE ∣ b.config.maximumReservation)
    (hxen : ∀ i k, (b.xen i k).populated = 0) (h : initMm b = some s) : Agreed b.config.max s := by
  obtain ⟨t, hresize, hp2m, hboot, hgained⟩ := initMm_resized h
  have hbeyond := settled_beyond.resize (beyond_initPageAllocator hdiv) rfl hresize
  have ht := ballooned_of_booting hboot hgained hbeyond (resize_memoryHoleList hresize)
  have hend : t.endAllocPage = b.config.max := by
    rw [hboot.grown, hgained, Nat.add_zero]
  have hs : (Ballooned b.config.max s ∧ s.endAllocPage = b.config.max) ∧
      s.maxPfnTable = b.config.max := by
    apply archInitP2m_rule (P := fun s => Ballooned b.config.max s ∧ s.endAllocPage = b.config.max)
      _ _
      ⟨ht, hend⟩ hp2m
    · intro i s t hs ht
      obtain ⟨b, page, hpage, rfl⟩ := allocPage_dry (hxen (i + 1)) ht
      rw [take_endAllocPage]
      exact ⟨ballooned_take hs.1 (fun _ => by decide) hpage, hs.2⟩
    · intro s k hs
      exact ⟨⟨wf_p2m hs.1.wf, hs.1.fits, hs.1.strict, hs.1.set, hs.1.covered, hs.1.pages⟩, hs.2⟩
  exact ⟨hs.1.1, hs.2.trans hs.1.2.symm⟩

/-! ## Runs -/

def Booted (b : Boot) (s : Sys) : Prop := ∃ t, initMm b = some t ∧ s = ⟨t, none⟩

/-- From a start with whole pages of bitmap and enough memory on, in every run. -/
theorem holes_structured (b : Boot) (hdiv : BITS_PER_PAGE ∣ b.config.maximumReservation)
    (hxen : ∀ i k, (b.xen i k).populated = 0) (s : Sys) (h : Reach step recordStep (Booted b) s) :
    Structured b.config.max s.pool := by
  have hinv : Holds (Agreed b.config.max) s := by
    apply h.invariant
    · rintro s ⟨t, ht, rfl⟩
      exact holds_idle (agreed_initMm hdiv hxen ht) rfl
    · intro s l t hs hok hstep
      exact agreed_step hs hok hstep
  exact structured_of_agreed hinv.pool

def smallBoot : Boot := ⟨smallDomain, true, fun _ => noMemory⟩

theorem structured_after_growth : ∃ s, Reach step recordStep (Booted smallBoot) s ∧
    s.pool.gained = 2 ∧
    Structured 670 s.pool := by
  have heval :
    ((initMm smallBoot).bind fun t => step ⟨t, none⟩ (.increase 3 fun k => ⟨2 - 2 * k, 0⟩)).map
      (fun s => s.pool.gained) = some 2 := by decide +kernel
  obtain ⟨s, hs, hgained⟩ := map_eq_some_iff.mp heval
  obtain ⟨t, ht, hstep⟩ := bind_eq_some_iff.mp hs
  have hreach : Reach step recordStep (Booted smallBoot) s :=
    .next (.increase 3 fun k => ⟨2 - 2 * k, 0⟩) (.start ⟨t, ht, rfl⟩) trivial hstep
  exact ⟨s, hreach, hgained, holes_structured smallBoot (by decide) (fun _ _ => rfl) s hreach⟩

def oddBoot : Boot where
  config :=
    { smallDomain with
      maximumReservation := 40000, fits := by decide, le := by decide, lt := by decide }
  newPage := true
  xen _ := noMemory

theorem holes_not_structured :
    ¬ ∀ b s, Reach step recordStep (Booted b) s → Structured b.config.max s.pool := by
  intro hall
  have heval : (initMm oddBoot).map (fun s => (s.memoryHoleList.map fun h => (h.startPfn, h.endPfn),
      allocated s 32768)) = some ([(670, 40000)], false) := by decide +kernel
  obtain ⟨s, hs, heq⟩ := map_eq_some_iff.mp heval
  obtain ⟨hlist, hclear⟩ := Prod.mk.inj heq
  have hstructured := hall oddBoot ⟨s, none⟩ (.start ⟨s, hs, rfl⟩)
  have hmem : (670, 40000) ∈ s.memoryHoleList.map fun h => (h.startPfn, h.endPfn) := by
    rw [hlist]
    exact mem_singleton_self _
  obtain ⟨hole, hhole, hrange⟩ := mem_map.mp hmem
  obtain ⟨hstart, hend⟩ := Prod.mk.inj hrange
  have hset := hstructured.set hole hhole 32768 ⟨by omega, by omega⟩
  rw [hclear] at hset
  cases hset

end Guk.PagePool
