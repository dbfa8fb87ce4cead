import Guk.Watchpoint

/-!
# When the watched pages are unmapped

The invariant says for each page who may still have to map or unmap it: a CPU that
is between a fault and its step, or the debugger in the middle of a request.
-/
namespace Guk.Watchpoint

open Runs Function List

variable {s s' : State} {address page cpu n m : Nat}

def Filled (s : State) (n : Nat) : Prop := (s.wp n).pageAddress = roundPgdown (s.wp n).address

def mappedFor : Cpu → Option Nat → Option Nat
  | .away, support => support
  | .remap n, _ => some n
  | .record n, _ => some n
  | .clear _, _ => none

def Mapped (s : State) (page : Nat) : Prop :=
  ∃ cpu n, mappedFor (s.cpu cpu) (s.dbSupport cpu) = some n ∧ (s.wp n).pageAddress = page

def Excused (s : State) (page : Nat) : Prop :=
  match s.debugger with
  | .idle => s.resumed = false
  | .remap _ => s.resumed = false
  | .fill n => s.resumed = false ∨ roundPgdown (s.wp n).address = page
  | .unmap n => s.resumed = false ∨ (s.wp n).pageAddress = page
  | .suspending _ => True
  | .resuming rest => ∃ n ∈ rest, (s.wp n).pageAddress = page

def Busy (s : State) : Prop :=
  match s.debugger with
  | .idle => True
  | .fill n => n ∈ s.watchpointsList
  | .unmap n => n ∈ s.watchpointsList
  | .remap n => ¬ OnPage s (s.wp n).pageAddress
  | .suspending _ => s.resumed = false
  | .resuming rest => rest ⊆ s.watchpointsList

structure Good (s : State) (n : Nat) : Prop where
  below : n < s.fresh
  filled : Filled s n
  complete : s.debugger ≠ .fill n
  onPage : OnPage s (s.wp n).pageAddress

structure Inv (s : State) : Prop where
  below : ∀ n ∈ s.watchpointsList, n < s.fresh
  filled : ∀ n ∈ s.watchpointsList, s.debugger ≠ .fill n → Filled s n
  good : ∀ cpu n, Held s cpu n → Good s n
  same : ∀ cpu n m, (s.cpu cpu).wp? = some n → s.dbSupport cpu = some m →
    (s.wp n).pageAddress = (s.wp m).pageAddress
  busy : Busy s
  /-- an unmapped page is watched, or about to be mapped -/
  watched : ∀ page, s.unmapped page = true →
    OnPage s page ∨ ∃ n, s.debugger = .remap n ∧ (s.wp n).pageAddress = page
  /-- a watched page is unmapped, or mapped for a CPU, or about to be unmapped -/
  unmapped : ∀ page, OnPage s page →
    s.unmapped page = true ∨ Mapped s page ∨ Excused s page

theorem protected_of_inv (h : Inv s) : Protected s := by
  intro hrest address
  constructor
  · intro hunmapped
    rcases h.watched _ hunmapped with hpage | hremap
    · exact hpage
    · obtain ⟨n, hn, _⟩ := hremap
      rw [hrest.debugger] at hn
      nomatch hn
  · intro hpage
    rcases h.unmapped _ hpage with hunmapped | ⟨cpu, n, hn, _⟩ | hexcused
    · exact hunmapped
    · rw [(hrest.cpu cpu).1, (hrest.cpu cpu).2] at hn
      nomatch hn
    · rw [Excused, hrest.debugger, hrest.resumed] at hexcused
      nomatch hexcused

theorem inv_initial (h : Initial s) : Inv s := by
  have hno : ∀ page, ¬ OnPage s page := by
    rintro page ⟨n, hn, _⟩
    rw [h.watchpointsList] at hn
    nomatch hn
  have hheld : ∀ cpu n, ¬ Held s cpu n := by
    intro cpu n hn
    rw [Held, h.dbSupport, h.cpu] at hn
    exact hn.elim nofun nofun
  constructor
  · rw [h.watchpointsList]
    nofun
  · rw [h.watchpointsList]
    nofun
  · exact fun cpu n hn => absurd hn (hheld cpu n)
  · exact fun cpu n _ hn _ => absurd (.inr hn) (hheld cpu n)
  · rw [Busy, h.debugger]
    trivial
  · intro page hunmapped
    rw [h.unmapped] at hunmapped
    nomatch hunmapped
  · exact fun page hpage => absurd hpage (hno page)

theorem unmapped_activate :
    (activateWatchpoint s n).unmapped page = true ↔ page = (s.wp n).pageAddress ∨
      s.unmapped page = true := by
  by_cases heq : page = (s.wp n).pageAddress
  · simp [activateWatchpoint, heq]
  · simp [activateWatchpoint, heq]

theorem unmapped_deactivate :
    (deactivateWatchpoint s n).unmapped page = true ↔ page ≠ (s.wp n).pageAddress ∧
      s.unmapped page = true := by
  by_cases heq : page = (s.wp n).pageAddress
  · simp [deactivateWatchpoint, heq]
  · simp [deactivateWatchpoint, heq]

/-! ## Steps of a CPU -/

/-- A step of CPU `c`, after which the pages of `unmap` are unmapped. -/
structure CpuStep (s : State) (unmap : Nat → Bool) (c : Nat) (pc : Cpu) (support : Option Nat) :
    Prop where
  good : ∀ n, support = some n ∨ pc.wp? = some n → Good s n
  same : ∀ n m, pc.wp? = some n → support = some m → (s.wp n).pageAddress = (s.wp m).pageAddress
  watched : ∀ page, unmap page = true → s.unmapped page = true ∨ OnPage s page
  unmapped : ∀ page, s.unmapped page = true → unmap page = true ∨
    ∃ n, mappedFor pc support = some n ∧ (s.wp n).pageAddress = page
  mapped : ∀ n, mappedFor (s.cpu c) (s.dbSupport c) = some n → unmap (s.wp n).pageAddress = true ∨
    ∃ m, mappedFor pc support = some m ∧ (s.wp m).pageAddress = (s.wp n).pageAddress

variable {pc : Cpu} {support : Option Nat} {pfn : Nat → Nat} {unmap : Nat → Bool}

theorem inv_cpuStep (pfn : Nat → Nat) (h : Inv s) (hs : CpuStep s unmap cpu pc support) :
    Inv { s with
      pfn := pfn, unmapped := unmap, cpu := update s.cpu cpu pc
      dbSupport := update s.dbSupport cpu support } := by
  refine ⟨h.below, h.filled, ?_, ?_, h.busy, ?_, ?_⟩
  · intro c n hn
    have hgood : Good s n := by
      by_cases hc : c = cpu
      · simp only [Held, hc, update_self] at hn
        exact hs.good n hn
      · simp only [Held, update_of_ne hc] at hn
        exact h.good c n hn
    exact { hgood with }
  · intro c n m hn hm
    by_cases hc : c = cpu
    · simp only [hc, update_self] at hn hm
      exact hs.same n m hn hm
    · simp only [update_of_ne hc] at hn hm
      exact h.same c n m hn hm
  · intro page hpage
    rcases hs.watched page hpage with hold | hon
    · exact h.watched page hold
    · exact .inl hon
  · intro page hpage
    have hself : (∃ n, mappedFor pc support = some n ∧ (s.wp n).pageAddress = page) →
      Mapped { s with
        pfn := pfn, unmapped := unmap, cpu := update s.cpu cpu pc
        dbSupport := update s.dbSupport cpu support } page :=
      fun ⟨n, hn, heq⟩ => ⟨cpu, n, by simp only [update_self, hn], heq⟩
    rcases h.unmapped page hpage with hold | ⟨c, n, hn, rfl⟩ | hexcused
    · exact (hs.unmapped page hold).imp_right fun hmapped => .inl (hself hmapped)
    · by_cases hc : c = cpu
      · exact (hs.mapped n (hc ▸ hn)).imp_right fun hmapped => .inl (hself hmapped)
      · exact .inr (.inl ⟨c, n, by simp only [update_of_ne hc, hn], rfl⟩)
    · exact .inr (.inr hexcused)

section

variable (h : Inv s)

include h

theorem inv_cpu (hs : CpuStep s unmap cpu pc (s.dbSupport cpu)) :
    Inv { s with pfn := pfn, unmapped := unmap, cpu := update s.cpu cpu pc } := by
  have hinv := inv_cpuStep pfn h hs
  rwa [update_eq_self] at hinv

theorem inv_fault (hok : protectedStep s (.fault cpu address)) (haway : s.cpu cpu = .away) :
    Inv (dbIsWatchpoint s cpu address) := by
  unfold dbIsWatchpoint
  cases hget : getWatchpoint s address with
  | none => exact h
  | some n =>
    simp only
    by_cases hexact : (s.wp n).address = address
    · rw [if_pos hexact]
      exact h
    · rw [if_neg hexact]
      obtain ⟨hfill, hpending⟩ := hok n hget hexact
      obtain ⟨hmem, hpage⟩ := getWatchpoint_some hget
      have hpage := hpage.resolve_left hexact
      have hfilled := h.filled n hmem (hfill n)
      refine inv_cpu (s := s) h ⟨?_, ?_, ?_, ?_, ?_⟩
      · intro m hm
        rcases hm with hm | hm
        · exact h.good cpu m (.inl hm)
        · cases hm
          exact ⟨h.below n hmem, hfilled, hfill n, n, hmem, hfilled.symm⟩
      · intro k m hk hm
        cases hk
        rw [hpage, hpending m hm]
      · exact fun page hold => .inl hold
      · exact fun page hold => .inl hold
      · intro m hm
        rw [haway] at hm
        exact .inr ⟨n, rfl, by rw [hpage, hpending m hm]⟩

theorem inv_remap (hcpu : s.cpu cpu = .remap n) :
    Inv { deactivateWatchpoint s n with cpu := update s.cpu cpu (.record n) } := by
  have hwp : (s.cpu cpu).wp? = some n := by rw [hcpu]; rfl
  refine inv_cpu (s := s) h ⟨?_, ?_, ?_, ?_, ?_⟩
  · intro m hm
    rcases hm with hm | hm
    · exact h.good cpu m (.inl hm)
    · cases hm
      exact h.good cpu n (.inr hwp)
  · intro k m hk hm
    cases hk
    exact h.same cpu n m hwp hm
  · exact fun page hpage => .inl (unmapped_deactivate.mp hpage).2
  · intro page hold
    by_cases heq : page = (s.wp n).pageAddress
    · exact .inr ⟨n, rfl, heq.symm⟩
    · exact .inl (unmapped_deactivate.mpr ⟨heq, hold⟩)
  · intro m hm
    rw [hcpu] at hm
    exact .inr ⟨m, hm, rfl⟩

theorem inv_record (hcpu : s.cpu cpu = .record n) : Inv { s with
      dbSupport := update s.dbSupport cpu (some n), cpu := update s.cpu cpu .away } := by
  have hwp : (s.cpu cpu).wp? = some n := by rw [hcpu]; rfl
  refine inv_cpuStep _ h ⟨?_, ?_, ?_, ?_, ?_⟩
  · intro m hm
    rcases hm with hm | hm
    · cases hm
      exact h.good cpu n (.inr hwp)
    · nomatch hm
  · nofun
  · exact fun page hold => .inl hold
  · exact fun page hold => .inl hold
  · intro m hm
    rw [hcpu] at hm
    exact .inr ⟨m, hm, rfl⟩

theorem inv_clear (hcpu : s.cpu cpu = .clear n) : Inv { s with
      dbSupport := update s.dbSupport cpu none, cpu := update s.cpu cpu .away } := by
  refine inv_cpuStep _ h ⟨?_, ?_, ?_, ?_, ?_⟩
  · exact fun m hm => hm.elim nofun nofun
  · nofun
  · exact fun page hold => .inl hold
  · exact fun page hold => .inl hold
  · intro m hm
    rw [hcpu] at hm
    nomatch hm

theorem inv_handle (hs : handle s cpu = some s') : Inv s' := by
  unfold handle at hs
  cases hcpu : s.cpu cpu with
  | away => simp [hcpu] at hs
  | remap n =>
    simp only [hcpu, Option.some.injEq] at hs
    exact hs ▸ inv_remap h hcpu
  | record n =>
    simp only [hcpu, Option.some.injEq] at hs
    exact hs ▸ inv_record h hcpu
  | clear n =>
    simp only [hcpu, Option.some.injEq] at hs
    exact hs ▸ inv_clear h hcpu

theorem inv_trap (haway : s.cpu cpu = .away) : Inv (dbWatchpointStep s cpu) := by
  unfold dbWatchpointStep
  cases hsupport : s.dbSupport cpu with
  | none => exact h
  | some n =>
    have hgood := h.good cpu n (.inl hsupport)
    refine inv_cpu (s := s) h ⟨?_, ?_, ?_, ?_, ?_⟩
    · intro m hm
      rw [hsupport] at hm
      have heq : n = m := hm.elim (Option.some.inj ·) (Option.some.inj ·)
      exact heq ▸ hgood
    · intro k m hk hm
      cases hk
      cases hsupport.symm.trans hm
      rfl
    · intro page hpage
      rcases unmapped_activate.mp hpage with rfl | hold
      · exact .inr hgood.onPage
      · exact .inl hold
    · exact fun page hold => .inl (unmapped_activate.mpr (.inr hold))
    · intro m hm
      rw [haway, hsupport] at hm
      cases hm
      simp [activateWatchpoint]

end

/-! ## Steps of the debugger -/

section

variable (h : Inv s) {rest : List Nat}

include h

/-- The debugger maps or unmaps a page and goes on from `d` to `d'`. -/
theorem inv_map {d d' : Debugger} {resumed : Bool} (hd : s.debugger = d) (hfill : ∀ n, d ≠ .fill n)
    (hfill' : ∀ n, d' ≠ .fill n)
    (hbusy : Busy { s with pfn := pfn, unmapped := unmap, debugger := d', resumed := resumed })
    (hwatched : ∀ page, unmap page = true → OnPage s page)
    (hunmapped : ∀ page, OnPage s page → s.unmapped page = true ∨ Excused s page →
    unmap page = true ∨
      Excused { s with pfn := pfn, unmapped := unmap, debugger := d', resumed := resumed } page) :
    Inv { s with pfn := pfn, unmapped := unmap, debugger := d', resumed := resumed } := by
  constructor
  · exact h.below
  · exact fun n hn _ => h.filled n hn (hd ▸ hfill n)
  · intro cpu n hn
    exact { h.good cpu n hn with complete := hfill' n }
  · exact h.same
  · exact hbusy
  · exact fun page hpage => .inl (hwatched page hpage)
  · intro page hpage
    rcases h.unmapped page hpage with hold | hmapped | hexcused
    · exact (hunmapped page hpage (.inl hold)).imp_right .inr
    · exact .inr (.inl hmapped)
    · exact (hunmapped page hpage (.inr hexcused)).imp_right .inr

theorem Inv.onPage (hremap : ∀ k, s.debugger ≠ .remap k) (hpage : s.unmapped page = true) :
    OnPage s page := by
  rcases h.watched page hpage with hon | hleaving
  · exact hon
  · obtain ⟨k, hk, _⟩ := hleaving
    exact absurd hk (hremap k)

theorem onPage_activate (hremap : ∀ k, s.debugger ≠ .remap k)
    (hon : OnPage s (s.wp n).pageAddress) (hpage : (activateWatchpoint s n).unmapped page = true) :
    OnPage s page := by
  rcases unmapped_activate.mp hpage with heq | hold
  · exact heq ▸ hon
  · exact h.onPage hremap hold

theorem inv_suspendAll (hidle : s.debugger = .idle) :
    Inv { s with debugger := .suspending s.watchpointsList, resumed := false } := by
  refine inv_map h hidle nofun nofun rfl ?_ ?_
  · exact fun page => h.onPage (by rw [hidle]; nofun)
  · exact fun page _ _ => .inr trivial

theorem inv_resumeAll (hidle : s.debugger = .idle) :
    Inv { s with debugger := .resuming s.watchpointsList } := by
  refine inv_map h hidle nofun nofun (List.Subset.refl _) ?_ ?_
  · exact fun page => h.onPage (by rw [hidle]; nofun)
  · rintro page ⟨n, hn, hpage⟩ _
    refine .inr ⟨n, hn, ?_⟩
    exact (h.filled n hn (by rw [hidle]; nofun)).trans hpage

theorem inv_unmap (hdebugger : s.debugger = .unmap n) :
    Inv { activateWatchpoint s n with debugger := .idle } := by
  have hmem : n ∈ s.watchpointsList := by
    have hbusy := h.busy
    rwa [Busy, hdebugger] at hbusy
  have hfilled := h.filled n hmem (by rw [hdebugger]; nofun)
  refine inv_map (s := s) h hdebugger nofun nofun trivial ?_ ?_
  · exact fun page => onPage_activate h (by rw [hdebugger]; nofun) ⟨n, hmem, hfilled.symm⟩
  · intro page _ hold
    rw [Excused, hdebugger] at hold
    rcases hold with hold | hresumed | heq
    · exact .inl (unmapped_activate.mpr (.inr hold))
    · exact .inr hresumed
    · exact .inl (unmapped_activate.mpr (.inl heq.symm))

theorem inv_remapLast (hdebugger : s.debugger = .remap n) :
    Inv { deactivateWatchpoint s n with debugger := .idle } := by
  have hno : ¬ OnPage s (s.wp n).pageAddress := by
    have hbusy := h.busy
    rwa [Busy, hdebugger] at hbusy
  refine inv_map (s := s) h hdebugger nofun nofun trivial ?_ ?_
  · intro page hpage
    obtain ⟨hne, hold⟩ := unmapped_deactivate.mp hpage
    rcases h.watched page hold with hon | hleaving
    · exact hon
    · obtain ⟨k, hk, heq⟩ := hleaving
      cases hdebugger.symm.trans hk
      exact absurd heq.symm hne
  · intro page hon hold
    rw [Excused, hdebugger] at hold
    have hne : page ≠ (s.wp n).pageAddress := fun heq => hno (heq ▸ hon)
    exact hold.imp_left fun hold => unmapped_deactivate.mpr ⟨hne, hold⟩

theorem inv_suspending (hdebugger : s.debugger = .suspending rest)
    (hs : serve s = some s') : Inv s' := by
  have hresumed : s.resumed = false := by
    have hbusy := h.busy
    rwa [Busy, hdebugger] at hbusy
  rw [serve, hdebugger] at hs
  cases rest with
  | nil =>
    cases hs
    refine inv_map (s := s) h hdebugger nofun nofun trivial ?_ ?_
    · exact fun page => h.onPage (by rw [hdebugger]; nofun)
    · exact fun page _ _ => .inr hresumed
  | cons n rest =>
    cases hs
    refine inv_map (s := s) h hdebugger nofun nofun hresumed ?_ ?_
    · exact fun page hpage => h.onPage (by rw [hdebugger]; nofun) (unmapped_deactivate.mp hpage).2
    · exact fun page _ _ => .inr trivial

theorem inv_resuming (hdebugger : s.debugger = .resuming rest)
    (hs : serve s = some s') : Inv s' := by
  have hsub : rest ⊆ s.watchpointsList := by
    have hbusy := h.busy
    rwa [Busy, hdebugger] at hbusy
  have hremap : ∀ k, s.debugger ≠ .remap k := by
    rw [hdebugger]
    nofun
  rw [serve, hdebugger] at hs
  cases rest with
  | nil =>
    cases hs
    refine inv_map (s := s) h hdebugger nofun nofun trivial ?_ ?_
    · exact fun page => h.onPage hremap
    · intro page _ hold
      rw [Excused, hdebugger] at hold
      rcases hold with hold | hrest
      · exact .inl hold
      · obtain ⟨k, hk, _⟩ := hrest
        nomatch hk
  | cons n rest =>
    cases hs
    obtain ⟨hmem, hrest⟩ := List.cons_subset.mp hsub
    have hfilled := h.filled n hmem (by rw [hdebugger]; nofun)
    refine inv_map (s := s) h hdebugger nofun nofun hrest ?_ ?_
    · exact fun page => onPage_activate h hremap ⟨n, hmem, hfilled.symm⟩
    · intro page _ hold
      rw [Excused, hdebugger] at hold
      rcases hold with hold | ⟨k, hk, heq⟩
      · exact .inl (unmapped_activate.mpr (.inr hold))
      · rcases List.mem_cons.mp hk with hkn | hk
        · exact .inl (unmapped_activate.mpr (.inl (hkn ▸ heq.symm)))
        · exact .inr ⟨k, hk, heq⟩

end

theorem held_of_mappedFor (h : mappedFor (s.cpu cpu) (s.dbSupport cpu) = some n) :
    Held s cpu n := by
  unfold Held
  cases hcpu : s.cpu cpu with
  | away =>
    rw [hcpu] at h
    exact .inl h
  | remap m | record m =>
    rw [hcpu] at h
    exact .inr h
  | clear m =>
    rw [hcpu] at h
    nomatch h

/-! ## Steps that change the list -/

structure WpStep (s s' : State) (k : Nat) : Prop where
  wp : ∀ n, n ≠ k → s'.wp n = s.wp n
  cpu : s'.cpu = s.cpu
  dbSupport : s'.dbSupport = s.dbSupport
  unmapped : s'.unmapped = s.unmapped
  held : ∀ cpu, ¬ Held s cpu k
  fresh : s.fresh ≤ s'.fresh
  below : ∀ n ∈ s'.watchpointsList, n < s'.fresh
  filled : ∀ n ∈ s'.watchpointsList, s'.debugger ≠ .fill n → Filled s' n
  complete : ∀ n, s'.debugger = .fill n → n = k
  remap : ∀ n, s.debugger ≠ .remap n
  busy : Busy s'
  onPage : ∀ page, OnPage s page → OnPage s' page
  excused : ∀ page, OnPage s' page → ¬ OnPage s page ∨ Excused s page → Excused s' page

theorem inv_wpStep {k : Nat} (h : Inv s) (hs : WpStep s s' k) : Inv s' := by
  have hheld : ∀ cpu n, Held s' cpu n → Held s cpu n ∧ s'.wp n = s.wp n := by
    intro cpu n hn
    rw [Held, hs.cpu, hs.dbSupport] at hn
    exact ⟨hn, hs.wp n fun heq => hs.held cpu (heq ▸ hn)⟩
  constructor
  · exact hs.below
  · exact hs.filled
  · intro cpu n hn
    obtain ⟨hold, hwp⟩ := hheld cpu n hn
    have hgood := h.good cpu n hold
    constructor
    · exact lt_of_lt_of_le hgood.below hs.fresh
    · rw [Filled, hwp]
      exact hgood.filled
    · exact fun hfill => hs.held cpu (hs.complete n hfill ▸ hold)
    · rw [hwp]
      exact hs.onPage _ hgood.onPage
  · intro cpu n m hn hm
    rw [(hheld cpu n (.inr hn)).2, (hheld cpu m (.inl hm)).2]
    rw [hs.cpu] at hn
    rw [hs.dbSupport] at hm
    exact h.same cpu n m hn hm
  · exact hs.busy
  · intro page hpage
    rw [hs.unmapped] at hpage
    exact .inl (hs.onPage page (h.onPage hs.remap hpage))
  · intro page hpage
    rw [hs.unmapped]
    by_cases hold : OnPage s page
    · rcases h.unmapped page hold with hunmapped | ⟨cpu, n, hn, heq⟩ | hexcused
      · exact .inl hunmapped
      · have hheld := held_of_mappedFor hn
        have hwp := hs.wp n fun hk => hs.held cpu (hk ▸ hheld)
        exact .inr (.inl ⟨cpu, n, by rw [hs.cpu, hs.dbSupport, hn], by rw [hwp, heq]⟩)
      · exact .inr (.inr (hs.excused page hpage (.inr hexcused)))
    · exact .inr (.inr (hs.excused page hpage (.inl hold)))

theorem inv_activate (h : Inv s) (hidle : s.debugger = .idle) (address : Nat)
    (junk : DbWatchpoint) :
    Inv (dbActivateWatchpoint s address junk) := by
  have hwp : ∀ n, n ≠ s.fresh → (dbActivateWatchpoint s address junk).wp n = s.wp n :=
    fun n hne => update_of_ne hne _ _
  have hne : ∀ n ∈ s.watchpointsList, n ≠ s.fresh := fun n hn => ne_of_lt (h.below n hn)
  apply inv_wpStep (k := s.fresh) h
  refine ⟨?_, rfl, rfl, rfl, ?_, ?_, ?_, ?_, ?_, ?_, ?_, ?_, ?_⟩
  · exact hwp
  · exact fun cpu hheld => lt_irrefl _ (h.good cpu _ hheld).below
  · exact Nat.le_succ _
  · intro n hn
    rcases List.mem_append.mp hn with hn | hn
    · exact Nat.lt_succ_of_lt (h.below n hn)
    · exact List.mem_singleton.mp hn ▸ Nat.lt_succ_self _
  · intro n hn hfill
    have hn := (List.mem_append.mp hn).resolve_right fun heq =>
      hfill (by rw [List.mem_singleton.mp heq]; rfl)
    rw [Filled, hwp n (hne n hn)]
    exact h.filled n hn (by rw [hidle]; nofun)
  · intro n hn
    cases hn
    rfl
  · rw [hidle]
    nofun
  · exact mem_append_right _ mem_cons_self
  · rintro page ⟨n, hn, hpage⟩
    exact ⟨n, mem_append_left _ hn, by rw [hwp n (hne n hn), hpage]⟩
  · rintro page ⟨n, hn, hpage⟩ hold
    cases hold with
    | inr hexcused =>
      rw [Excused, hidle] at hexcused
      exact .inl hexcused
    | inl hnew =>
      rcases List.mem_append.mp hn with hn | hn
      · exact absurd ⟨n, hn, by rw [← hwp n (hne n hn), hpage]⟩ hnew
      · rw [List.mem_singleton.mp hn] at hpage
        exact .inr hpage

theorem inv_fill (h : Inv s) (hfill : s.debugger = .fill n) (hs : serve s = some s') : Inv s' := by
  have hmem : n ∈ s.watchpointsList := by
    have hbusy := h.busy
    rwa [Busy, hfill] at hbusy
  rw [serve, hfill] at hs
  cases hs
  have haddress : ∀ m, (update s.wp n ⟨(s.wp n).address, roundPgdown (s.wp n).address,
      s.pfn (roundPgdown (s.wp n).address)⟩ m).address = (s.wp m).address := by
    intro m
    by_cases hm : m = n
    · rw [hm, update_self]
    · rw [update_of_ne hm]
  apply inv_wpStep (k := n) h
  refine ⟨?_, rfl, rfl, rfl, ?_, ?_, ?_, ?_, ?_, ?_, ?_, ?_, ?_⟩
  · exact fun m hm => update_of_ne hm _ _
  · exact fun cpu hheld => (h.good cpu n hheld).complete hfill
  · exact le_rfl
  · exact h.below
  · intro m hm _
    simp only [Filled]
    by_cases heq : m = n
    · rw [heq, update_self]
    · rw [update_of_ne heq]
      exact h.filled m hm fun hm => heq (Debugger.fill.inj (hm.symm.trans hfill))
  · nofun
  · rw [hfill]
    nofun
  · exact hmem
  · rintro page ⟨m, hm, hpage⟩
    exact ⟨m, hm, (congrArg roundPgdown (haddress m)).trans hpage⟩
  · rintro page ⟨m, hm, hpage⟩ hold
    have hon : OnPage s page := ⟨m, hm, (congrArg roundPgdown (haddress m)).symm.trans hpage⟩
    have hexcused := hold.resolve_left fun hno => hno hon
    rw [Excused, hfill] at hexcused
    rcases hexcused with hresumed | heq
    · exact .inl hresumed
    · exact .inr (by simp only [update_self]; exact heq)

theorem onPage_remove (hon : OnPage s page) (hne : roundPgdown (s.wp n).address ≠ page) :
    OnPage (remove s n) page := by
  obtain ⟨m, hm, hpage⟩ := hon
  have hmn : m ≠ n := fun heq => hne (heq ▸ hpage)
  exact ⟨m, (mem_erase_of_ne hmn).mpr hm, hpage⟩

theorem onPage_of_remove (hon : OnPage (remove s n) page) : OnPage s page := by
  obtain ⟨m, hm, hpage⟩ := hon
  exact ⟨m, mem_of_mem_erase hm, hpage⟩

theorem inv_remove (h : Inv s) (hidle : s.debugger = .idle)
    (hother : OnPage (remove s n) (roundPgdown (s.wp n).address)) : Inv (remove s n) := by
  have hon : ∀ page, OnPage s page → OnPage (remove s n) page := by
    intro page hpage
    by_cases heq : roundPgdown (s.wp n).address = page
    · exact heq ▸ hother
    · exact onPage_remove hpage heq
  constructor
  · exact fun m hm => h.below m (mem_of_mem_erase hm)
  · exact fun m hm => h.filled m (mem_of_mem_erase hm)
  · intro cpu m hm
    have hgood := h.good cpu m hm
    exact { hgood with onPage := hon _ hgood.onPage }
  · exact h.same
  · rw [Busy, remove, hidle]
    trivial
  · exact fun page hpage => .inl (hon page (h.onPage (by rw [hidle]; nofun) hpage))
  · exact fun page hpage => h.unmapped page (onPage_of_remove hpage)

theorem inv_removeLast (h : Inv s) (hidle : s.debugger = .idle) (hfilled : Filled s n)
    (hlast : ¬ OnPage (remove s n) (roundPgdown (s.wp n).address))
    (hfree : ∀ cpu m, Held s cpu m → (s.wp m).pageAddress ≠ roundPgdown (s.wp n).address) :
    Inv { remove s n with debugger := .remap n } := by
  constructor
  · exact fun m hm => h.below m (mem_of_mem_erase hm)
  · intro m hm _
    exact h.filled m (mem_of_mem_erase hm) (by rw [hidle]; nofun)
  · intro cpu m hm
    have hgood := h.good cpu m hm
    exact ⟨hgood.below, hgood.filled, nofun, onPage_remove hgood.onPage (hfree cpu m hm).symm⟩
  · exact h.same
  · exact fun hon => hlast (hfilled ▸ hon)
  · intro page hpage
    have hon := h.onPage (by rw [hidle]; nofun) hpage
    by_cases heq : roundPgdown (s.wp n).address = page
    · exact .inr ⟨n, rfl, hfilled.trans heq⟩
    · exact .inl (onPage_remove hon heq)
  · intro page hpage
    rcases h.unmapped page (onPage_of_remove hpage) with hunmapped | hmapped | hexcused
    · exact .inl hunmapped
    · exact .inr (.inl hmapped)
    · rw [Excused, hidle] at hexcused
      exact .inr (.inr hexcused)

theorem inv_deactivate (h : Inv s) (hidle : s.debugger = .idle)
    (hok : protectedStep s (.deactivate address)) : Inv (dbDeactivateWatchpoint s address) := by
  unfold dbDeactivateWatchpoint
  cases hget : getWatchpoint s address with
  | none => exact h
  | some n =>
    simp only
    by_cases hexact : (s.wp n).address = address
    · rw [if_pos hexact]
      have hmem := (getWatchpoint_some hget).1
      have hfilled : ∀ m ∈ s.watchpointsList, Filled s m :=
        fun m hm => h.filled m hm (by rw [hidle]; nofun)
      cases hother : getWatchpoint (remove s n) address with
      | some m =>
        apply inv_remove h hidle
        obtain ⟨hm, heq⟩ := getWatchpoint_some hother
        refine ⟨m, hm, ?_⟩
        rw [hexact]
        rcases heq with heq | heq
        · exact congrArg roundPgdown heq
        · exact (hfilled m (mem_of_mem_erase hm)).symm.trans heq
      | none =>
        apply inv_removeLast h hidle (hfilled n hmem)
        · rintro ⟨m, hm, heq⟩
          have hno := ((getWatchpointLoop_none hother).2 m hm).2
          apply hno
          rw [← hexact, ← heq]
          exact hfilled m (mem_of_mem_erase hm)
        · rw [hexact]
          exact hok n hget hexact hother
    · rw [if_neg hexact]
      exact h

theorem inv_serve (h : Inv s) (hs : serve s = some s') : Inv s' := by
  cases hdebugger : s.debugger with
  | idle => simp [serve, hdebugger] at hs
  | fill n => exact inv_fill h hdebugger hs
  | unmap n =>
    rw [serve, hdebugger] at hs
    cases hs
    exact inv_unmap h hdebugger
  | remap n =>
    rw [serve, hdebugger] at hs
    cases hs
    exact inv_remapLast h hdebugger
  | suspending rest => exact inv_suspending h hdebugger hs
  | resuming rest => exact inv_resuming h hdebugger hs

theorem inv_step {a : Label} (h : Inv s) (hok : protectedStep s a) (hs : step s a = some s') :
    Inv s' := by
  cases a with
  | fault cpu address =>
    obtain ⟨haway, rfl⟩ := of_when hs
    exact inv_fault h hok haway
  | handle cpu => exact inv_handle h hs
  | trap cpu =>
    obtain ⟨haway, rfl⟩ := of_when hs
    exact inv_trap h haway
  | activate address junk =>
    obtain ⟨hidle, rfl⟩ := of_when hs
    exact inv_activate h hidle address junk
  | deactivate address =>
    obtain ⟨hidle, rfl⟩ := of_when hs
    exact inv_deactivate h hidle hok
  | suspendAll =>
    obtain ⟨hidle, rfl⟩ := of_when hs
    exact inv_suspendAll h hidle
  | resumeAll =>
    obtain ⟨hidle, rfl⟩ := of_when hs
    exact inv_resumeAll h hidle
  | serve => exact inv_serve h hs

/-- At rest the debugger has unmapped the pages with watchpoints and no others. -/
theorem pages_protected (s : State) (h : Reach step protectedStep Initial s) : Protected s :=
  protected_of_inv (h.invariant (fun _ => inv_initial) fun _ _ _ hinv hok hs =>
    inv_step hinv hok hs)

/-! ## A watchpoint that outlives its removal -/

def boot : State :=
  ⟨fun _ => ⟨0, 0, 0⟩, 0, [], fun page => page / PAGE_SIZE, fun _ => false, fun _ => none,
  fun _ => .away, .idle, true⟩

theorem initial_boot : Initial boot := ⟨rfl, fun _ => rfl, fun _ => rfl, fun _ => rfl, rfl⟩

def activated : List Label := [.activate 0x5008 ⟨0, 0, 0⟩, .serve, .serve]

def accessed : List Label := [.fault 0 0x5000, .handle 0, .handle 0]

def stepped : List Label := [.trap 0, .handle 0]

theorem protectedStep_fault (hidle : s.debugger = .idle) (hnone : s.dbSupport cpu = none) :
    protectedStep s (.fault cpu address) := by
  intro n _ _
  rw [hidle, hnone]
  exact ⟨nofun, nofun⟩

theorem pages_protected_stepped : ∃ s, Reach step protectedStep Initial s ∧ AtRest s ∧
    s.unmapped 0x5000 = true ∧ s.unmapped 0x6000 = false ∧ Protected s := by
  have hstart : Reach step protectedStep Initial boot := .start initial_boot
  have hactivated := hstart.runOk activated (by simp [activated, protectedStep]) rfl
  have hfault := Reach.next (.fault 0 0x5000) hactivated (protectedStep_fault rfl rfl) rfl
  have hend :=
    hfault.runOk ([.handle 0, .handle 0] ++ stepped) (by simp [stepped, protectedStep]) rfl
  refine ⟨_, hend, ⟨rfl, rfl, ?_⟩, rfl, rfl, pages_protected _ hend⟩
  intro cpu
  cases cpu with
  | zero | succ cpu => exact ⟨rfl, rfl⟩

/-- The debugger removes the watchpoint while CPU 0 is between its fault and the step trap, and the
trap unmaps the page again. -/
theorem pages_not_protected : ∃ s, Reach step anyStep Initial s ∧ AtRest s ∧ s.watchpointsList =
    [] ∧
    s.unmapped 0x5000 = true ∧ ¬ Protected s := by
  have hrun :
    ∃ s, run step boot (activated ++ accessed ++ [.deactivate 0x5008, .serve] ++ stepped) = some s ∧
      s.watchpointsList = [] ∧ s.unmapped 0x5000 = true ∧ AtRest s := by
    refine ⟨_, rfl, rfl, rfl, rfl, rfl, ?_⟩
    intro cpu
    cases cpu with
    | zero | succ cpu => exact ⟨rfl, rfl⟩
  obtain ⟨s, hs, hlist, hunmapped, hrest⟩ := hrun
  refine ⟨s, (Reach.start initial_boot).run _ hs, hrest, hlist, hunmapped, fun hprotected => ?_⟩
  obtain ⟨n, hn, _⟩ := (hprotected hrest 0x5000).mp hunmapped
  rw [hlist] at hn
  nomatch hn

end Guk.Watchpoint
