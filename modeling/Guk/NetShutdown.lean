import Guk.NetRxBuffers

/-!
# Shutting the network frontend down (`netfront.c`)

`netfront_shutdown` ends the grants of all receive buffers, each of them with
`gnttab_end_transfer` and then with `gnttab_end_access`. Both put the reference on the
free list.
-/
namespace Guk.NetRxGrants

open Chain GrantTable Guk.Ring Runs Function Option
open NetTx (NetState)

def unmapRxBuffers (gref : Nat → Nat) : (n i : Nat) → GrantTable.State → Option GrantTable.State
  | 0, _, g => some g
  | n + 1, i, g => (endTransfer (gref i) g).bind fun g =>
      unmapRxBuffers gref n (i + 1) (endAccess (gref i) g)

def netfrontShutdown (s : State) : Option (Int × State) :=
  if s.backend = false ∨ s.state ≠ .ready then some (1, s)
  else (unmapRxBuffers s.gref NET_RX_RING_SIZE 0 s.grants).map fun g =>
    (0, { s with
      state := .suspended
      reqProdPvt := 0
      reqProd := 0
      grants := g
      rxGrants := s.rxGrants.filter (· ∈ g.outstanding) })

structure ReturnedOnce (s t : State) : Prop where
  list : ∃ l l', Follows s.grants.gnttabList 0 (s.grants.gnttabList 0) l ∧
    Follows t.grants.gnttabList 0 (t.grants.gnttabList 0) l' ∧ l'.Perm (s.rxGrants ++ l)
  count : t.grants.numFree = s.grants.numFree + s.rxGrants.length
  later : ∀ u, Reach GrantTable.step noResume (· = t.grants) u → u.outstanding.Nodup

variable {frame : Nat → BitVec 32} {s t : State} {g g' : GrantTable.State} {gref : Nat → Nat}
  {ref r n i j : Nat} {ret : Int}

/-! ## Ending a grant twice -/

theorem endTransfer_numFree (h : endTransfer ref g = some g') : g'.numFree = g.numFree + 1 := by
  rcases endTransfer_cases h with rfl | ⟨_, rfl⟩
  · rfl
  · rfl

theorem endAccess_numFree (g : GrantTable.State) (ref : Nat) :
    g.numFree ≤ (endAccess ref g).numFree := by
  rcases endAccess_cases ref g with he | he <;> rw [he]
  · simp only [giveBack, putFreeEntry, clearFlags]
    omega

theorem not_inUse_clearFlags (g : GrantTable.State) (ref : Nat) :
    ¬inUse (giveBack ref (clearFlags ref g)) ref := by
  simp only [inUse, giveBack, putFreeEntry, clearFlags, update_self]
  decide

theorem endTransfer_eq (hidle : ¬inUse g ref) (h : endTransfer ref g = some g') :
    g' = giveBack ref (clearFlags ref g) := by
  refine (endTransfer_cases h).resolve_right fun hcompleted => hcompleted.1 ?_
  have hflags := not_not.mp hidle
  calc (g.gnttabTable ref).flags &&& GTF_transfer_completed
      = (g.gnttabTable ref).flags &&& (GTF_reading ||| GTF_writing) &&& GTF_transfer_completed := by
        rw [BitVec.and_assoc]
        rfl
    _ = 0 := by
        rw [hflags]
        rfl

theorem endTransfer_idle (hidle : ¬inUse g r) (h : endTransfer ref g = some g') : ¬inUse g' r := by
  by_cases hr : r = ref
  · subst hr
    rw [endTransfer_eq hidle h]
    exact not_inUse_clearFlags g r
  · rwa [inUse_congr (endTransfer_other h hr).2]

theorem endAccess_idle (hidle : ¬inUse g r) : ¬inUse (endAccess ref g) r := by
  by_cases hr : r = ref
  · subst hr
    rw [endAccess_eq hidle]
    exact not_inUse_clearFlags g r
  · rwa [inUse_congr (endAccess_other hr).2]

theorem unmap_pass (hidle : ¬inUse g ref) (h : endTransfer ref g = some g') :
    endAccess ref g' = giveBack ref (clearFlags ref (giveBack ref (clearFlags ref g))) := by
  have heq := endTransfer_eq hidle h
  subst heq
  rw [endAccess_eq (not_inUse_clearFlags g ref)]

theorem unmapRxBuffers_numFree (h : unmapRxBuffers gref n i g = some g') :
    g.numFree + n ≤ g'.numFree := by
  induction n generalizing i g with
  | zero =>
    obtain rfl := some.inj h
    simp
  | succ n ih =>
    obtain ⟨g₁, hend, h⟩ := bind_eq_some_iff.mp h
    have hrest := ih h
    have hput := endTransfer_numFree hend
    have hle := endAccess_numFree g₁ (gref i)
    push_cast
    omega

theorem unmapRxBuffers_numFree_lt (h : unmapRxBuffers gref n i g = some g') (hi : i ≤ j)
    (hj : j < i + n) (hidle : ¬inUse g (gref j)) : g.numFree + n < g'.numFree := by
  induction n generalizing i g with
  | zero => omega
  | succ n ih =>
    obtain ⟨g₁, hend, h⟩ := bind_eq_some_iff.mp h
    have hput := endTransfer_numFree hend
    by_cases hij : i = j
    · subst hij
      have hrest := unmapRxBuffers_numFree h
      rw [unmap_pass hidle hend] at hrest
      simp only [giveBack, putFreeEntry, clearFlags] at hrest
      push_cast
      omega
    · have hrest := ih h (by omega) (by omega) (endAccess_idle (endTransfer_idle hidle hend))
      have hle := endAccess_numFree g₁ (gref i)
      push_cast
      omega

theorem unmapRxBuffers_last (h : unmapRxBuffers gref (n + 1) i g = some g')
    (hidle : ¬inUse g (gref (i + n))) (hne : gref (i + n) ≠ 0) :
    g'.gnttabList 0 = gref (i + n) ∧ g'.gnttabList (gref (i + n)) = gref (i + n) := by
  induction n generalizing i g with
  | zero =>
    obtain ⟨g₁, hend, h⟩ := bind_eq_some_iff.mp h
    obtain rfl := some.inj h
    rw [Nat.add_zero] at hidle hne ⊢
    rw [unmap_pass hidle hend]
    simp [giveBack, putFreeEntry, clearFlags, update_of_ne hne]
  | succ n ih =>
    obtain ⟨g₁, hend, h⟩ := bind_eq_some_iff.mp h
    have hshift : i + (n + 1) = i + 1 + n := by omega
    rw [hshift] at hidle hne ⊢
    exact ih h (endAccess_idle (endTransfer_idle hidle hend)) hne

theorem unmapRxBuffers_suspended (h : unmapRxBuffers gref n i g = some g') :
    g'.gnttabSuspended = g.gnttabSuspended := by
  induction n generalizing i g with
  | zero =>
    obtain rfl := some.inj h
    rfl
  | succ n ih =>
    obtain ⟨g₁, hend, h⟩ := bind_eq_some_iff.mp h
    rw [ih h, endAccess_suspended, endTransfer_suspended hend]

theorem grant_own_successor (hmapped : g.gnttabSuspended = 0) (hfree : 0 < g.numFree)
    (hhead : g.gnttabList 0 = r) (hnext : g.gnttabList r = r) :
    ∃ g', GrantTable.step g (.grantAccess 0 0 0) = some g' ∧ g'.outstanding = r :: g.outstanding ∧
      g'.gnttabList = g.gnttabList ∧ g'.numFree = g.numFree - 1 ∧ g'.gnttabSuspended = 0 := by
  refine ⟨_, (if_pos hmapped).trans (recordGrant_of (not_exhausted hfree) _), ?_, ?_, rfl, hmapped⟩
  · simp only [getFreeEntry, hhead]
  · simp only [getFreeEntry, hhead, hnext]
    rw [update_eq_self_iff, hhead]

theorem grant_twice (hmapped : g.gnttabSuspended = 0) (hfree : 1 < g.numFree)
    (hhead : g.gnttabList 0 = r) (hnext : g.gnttabList r = r) :
    ∃ u, Reach GrantTable.step noResume (· = g) u ∧ ¬u.outstanding.Nodup := by
  obtain ⟨g₁, hstep, hout, hlist, hnum, hmapped₁⟩ :=
    grant_own_successor hmapped (by omega) hhead hnext
  rw [← hlist] at hhead hnext
  obtain ⟨g₂, hstep', hout', _⟩ := grant_own_successor hmapped₁ (by omega) hhead hnext
  have hfirst : Reach GrantTable.step noResume (· = g) g₁ :=
    .next _ (.start rfl) (by simp [noResume]) hstep
  refine ⟨g₂, .next _ hfirst (by simp [noResume]) hstep', ?_⟩
  rw [hout', hout]
  simp

/-! ## Shutting down -/

def GTF_type_mask : BitVec 16 := 3

def GrantedIdle (g : GrantTable.State) (ref : Nat) : Prop :=
  (g.gnttabTable ref).flags &&& GTF_type_mask = GTF_permit_access ∧ ¬inUse g ref

theorem netfrontShutdown_early (h : s.backend = false ∨ s.state ≠ .ready) :
    netfrontShutdown s = some (1, s) :=
  if_pos h

theorem netfrontShutdown_some (hback : ¬(s.backend = false ∨ s.state ≠ .ready))
    (h : netfrontShutdown s = some (ret, t)) :
    unmapRxBuffers s.gref NET_RX_RING_SIZE 0 s.grants = some t.grants := by
  rw [netfrontShutdown, if_neg hback] at h
  obtain ⟨g, hg, heq⟩ := map_eq_some_iff.mp h
  cases heq
  exact hg

theorem returnedOnce_before (h : Inv s) (hinit : s.initialised = false) :
    netfrontShutdown s = some (1, s) ∧ ReturnedOnce s s := by
  obtain ⟨hstate, _, hrx, _⟩ := h.before hinit
  have hearly : s.state ≠ .ready := by simp [hstate]
  obtain ⟨l, hl, _⟩ := h.window.live.table.chain
  refine ⟨netfrontShutdown_early (.inr hearly), ⟨l, l, hl, hl, ?_⟩, ?_, ?_⟩
  · rw [hrx]
    exact List.Perm.refl l
  · simp [hrx]
  · intro u hu
    exact (hu.invariant (fun _ heq => heq ▸ h.window.live.table)
      (fun _ _ _ hinv hok hs => GrantTable.inv_step hinv hok hs)).nodup

theorem not_count_after (h : Inv s) (hinit : s.initialised = true) (hpc : s.pc = .idle)
    (hidle : ∀ r ∈ s.rxGrants, GrantedIdle s.grants r) (hs : netfrontShutdown s = some (ret, t)) :
    t.grants.numFree ≠ s.grants.numFree + s.rxGrants.length := by
  obtain ⟨hwindow, hheld⟩ := h.atIdle hpc
  have hroom := hwindow.room
  have hpos := h.some hinit
  rw [hheld] at hpos
  by_cases hearly : s.backend = false ∨ s.state ≠ .ready
  · rw [netfrontShutdown_early hearly] at hs
    cases hs
    omega
  · have hmem := live_mem hwindow.live le_rfl (by omega)
    have hlt : s.rspCons % NET_RX_RING_SIZE < 0 + NET_RX_RING_SIZE := by
      rw [Nat.zero_add]
      exact Nat.mod_lt _ (by decide)
    have hputs :=
      unmapRxBuffers_numFree_lt (netfrontShutdown_some hearly hs) (Nat.zero_le _) hlt
      (hidle _ hmem).2
    omega

/-- The receive grants are put back once each exactly as long as there are none: `init_rx_buffers`
has not run. -/
theorem shutdown_returns_once_iff (frame : Nat → BitVec 32) (s : State)
    (h : Reach (step frame) orderly Initial s)
    (hpc : s.pc = .idle) (hidle : ∀ r ∈ s.rxGrants, GrantedIdle s.grants r) :
    (∃ ret t, netfrontShutdown s = some (ret, t) ∧ ReturnedOnce s t) ↔ s.initialised = false := by
  have hinv := inv_reach (fun _ _ hok => hok) h
  constructor
  · rintro ⟨ret, t, hs, honce⟩
    by_contra hinit
    exact not_count_after hinv (Bool.eq_true_of_not_eq_false hinit) hpc hidle hs honce.count
  · intro hinit
    exact ⟨1, s, returnedOnce_before hinv hinit⟩

instance (g : GrantTable.State) (ref : Nat) : Decidable (GrantedIdle g ref) :=
  inferInstanceAs (Decidable (_ ∧ _))

theorem reach_atStart : Reach (step fun _ => 0) orderly Initial atStart := .start initial_atStart

theorem exists_granted : ∃ s, Reach (step fun _ => 0) orderly Initial s ∧ s.pc = .idle ∧
    s.initialised = true ∧ s.backend = true ∧ s.state = .ready ∧ Window s 0 NET_RX_RING_SIZE 0 ∧
      ∀ r ∈ s.rxGrants, GrantedIdle s.grants r := by
  obtain ⟨s, h, hpc, hinit, hback, hstate, ⟨hcons, hpvt⟩, hidle⟩ := reach_atStart.runGuardedTo
    (P := fun s => s.pc = .idle ∧ s.initialised = true ∧ s.backend = true ∧ s.state = .ready ∧
      (s.rspCons = 0 ∧ s.reqProdPvt = NET_RX_RING_SIZE) ∧
        ∀ r ∈ s.rxGrants, GrantedIdle s.grants r)
    comeUp (by decide +kernel)
  have hwindow := ((inv_reach (fun _ _ hok => hok) h).atIdle hpc).1
  rw [hcons, hpvt] at hwindow
  exact ⟨s, h, hpc, hinit, hback, hstate, hwindow, hidle⟩

theorem shutdown_returns_once_start :
    (∃ ret t, netfrontShutdown atStart = some (ret, t) ∧ ReturnedOnce atStart t) ∧
    ∃ s, Reach (step fun _ => 0) orderly Initial s ∧ s.rxGrants.length = 256 ∧
      ¬∃ ret t, netfrontShutdown s = some (ret, t) ∧ ReturnedOnce s t := by
  constructor
  · exact (shutdown_returns_once_iff (fun _ => 0) _ reach_atStart rfl
      (by simp [atStart, start])).mpr rfl
  · obtain ⟨s, h, hpc, hinit, _, _, hwindow, hidle⟩ := exists_granted
    have hmade := hwindow.made
    refine ⟨s, h, ?_, fun honce => ?_⟩
    · rw [Nat.zero_add] at hmade
      exact hmade.symm
    · rw [(shutdown_returns_once_iff _ s h hpc hidle).mp honce] at hinit
      cases hinit

/-- The frontend is shut down right after it has come up. Then two grants in a row get the
reference of the last receive buffer. -/
theorem shutdown_returns_twice :
    ¬∀ (frame : Nat → BitVec 32) (s : State), Reach (step frame) orderly Initial s → s.pc = .idle →
      (∀ r ∈ s.rxGrants, GrantedIdle s.grants r) → ∃ ret t, netfrontShutdown s = some (ret, t) ∧
        ReturnedOnce s t := by
  intro hall
  obtain ⟨s, h, hpc, _, hback, hstate, hwindow, hidle⟩ := exists_granted
  obtain ⟨ret, t, hs, honce⟩ := hall _ s h hpc hidle
  have hunmap := netfrontShutdown_some (by simp [hback, hstate]) hs
  have hlt : 255 < 0 + s.rxGrants.length := by
    rw [← hwindow.made]
    decide
  have hmem : s.gref (0 + 255) ∈ s.rxGrants := live_mem hwindow.live (Nat.zero_le 255) hlt
  have hne : s.gref (0 + 255) ≠ 0 := by
    have hrange := (hwindow.live.table.range _ (hwindow.live.out _ hmem)).1
    have hpos := reserved_pos
    omega
  obtain ⟨hhead, hnext⟩ := unmapRxBuffers_last hunmap (hidle _ hmem).2 hne
  have hnum : 1 < t.grants.numFree := by
    have hle := unmapRxBuffers_numFree hunmap
    have hsize : (NET_RX_RING_SIZE : Int) = 256 := rfl
    obtain ⟨l, _, _, hcount⟩ := hwindow.live.table.chain
    omega
  have hmapped := (unmapRxBuffers_suspended hunmap).trans hwindow.live.mapped
  obtain ⟨u, hu, htwice⟩ := grant_twice hmapped hnum hhead hnext
  exact htwice (honce.later u hu)

end Guk.NetRxGrants
