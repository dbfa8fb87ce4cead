import Guk.BlkRing

/-!
# Ids and rings of the block frontend

The free list and the outstanding requests of all devices share out the ids above
0, which bounds the requests of each device.
-/
namespace Guk.BlkRing

open Chain FsFreelist Guk.Ring Runs Function List

variable {n d i id request : Nat} {s t : State} {okay : Bool}

theorem mem_ids (h : (d, i) ∈ s.outstanding) : i ∈ ids s := List.mem_map.mpr ⟨(d, i), h, rfl⟩

theorem dev_unique {d' : Nat} (h : (ids s).Nodup) (hd : (d, i) ∈ s.outstanding)
    (hd' : (d', i) ∈ s.outstanding) : d = d' := by
  have he := inj_on_of_nodup_map h hd hd' rfl
  exact congrArg Prod.fst he

theorem length_chain {l : List Nat} (h : Inv n s) (hf : Follows s.freelist 0 (s.freelist 0) l)
    (hmem : ∀ i, i ∈ l ↔ 0 < i ∧ i < n ∧ i ∉ ids s) : l.length + s.outstanding.length = n - 1 := by
  have hnodup : (l ++ ids s).Nodup := by
    apply List.nodup_append.mpr
    refine ⟨follows_nodup hf, h.nodup, ?_⟩
    rintro a ha b hb rfl
    exact ((hmem a).mp ha).2.2 hb
  have hperm : (l ++ ids s).Perm (List.range' 1 (n - 1)) := by
    apply (perm_ext_iff_of_nodup hnodup nodup_range').mpr
    intro a
    rw [mem_append, hmem, mem_range'_1]
    constructor
    · rintro (⟨h₁, h₂, -⟩ | ha)
      · omega
      · have := h.range a ha
        omega
    · intro ha
      by_cases hout : a ∈ ids s
      · exact .inr hout
      · exact .inl ⟨by omega, by omega, hout⟩
  have hlen := hperm.length_eq
  rw [length_append, length_range', ids, length_map] at hlen
  exact hlen

theorem freelist_zero_iff (h : Inv n s) : s.freelist 0 = 0 ↔ s.outstanding.length = n - 1 := by
  obtain ⟨l, hf, hmem⟩ := h.chain
  have hlen := length_chain h hf hmem
  constructor
  · intro h0
    have hnil : l = [] := follows_unique hf h0
    rw [hnil, length_nil] at hlen
    omega
  · intro hfull
    have hnil : l = [] := eq_nil_of_length_eq_zero (by omega)
    rw [hnil] at hf
    exact hf

theorem doIo_enomem : (doIo n s d request).2 = some .enomem ↔ s.freelist 0 = 0 := by
  unfold doIo getFreelistId
  simp only
  split
  · simp [*]
  · simp [*]

theorem consistent_of_inv (hn : n < idxMod) (h : Inv n s) : Consistent n s := by
  refine ⟨h.nodup, fun h0 => absurd (h.range 0 h0).1 (lt_irrefl 0), ?_, ?_, ?_, ?_⟩
  · intro d request
    rw [doIo_enomem, freelist_zero_iff h]
  · intro d
    obtain ⟨queued, answered, hd⟩ := h.dev d
    obtain ⟨hwindow, -⟩ := devInv_window hd
    have hbound := hd.bound
    have hcursor := hd.cursor
    rw [subIdx_eq (by omega) (by omega)]
    omega
  · intro d id hout
    obtain ⟨queued, answered, hd⟩ := h.dev d
    exact devInv_intact hd hout
  · intro d cons prod hc hne
    obtain ⟨queued, answered, hd⟩ := h.dev d
    obtain ⟨id, okay, rest, rfl, hslot, -⟩ := devInv_next hd hc hne
    have hout := (hd.owned id).mpr (by simp)
    obtain ⟨hfree, hstate⟩ := h.shadow id (mem_ids hout)
    exact ⟨id, okay, hslot, hfree, hstate⟩

theorem inv_initial (hn : n ≤ 65536) (hpos : 0 < n) (h : Initial n s) : Inv n s := by
  obtain ⟨l, hf, hmem⟩ := alloc_chain n hn
  have hids : ids s = [] := by rw [ids, h.outstanding, map_nil]
  refine ⟨⟨l, ?_, ?_⟩, ?_, ?_, ?_, ?_, ?_⟩
  · rw [h.freelist]
    exact hf
  · intro i
    simp [hmem, hids]
  · rw [hids]
    exact nodup_nil
  · simp [hids]
  · simp [hids]
  · simp [hids]
  · intro d
    refine ⟨[], [], devInv_initial hpos ?_ (h.dev d)⟩
    simp [h.outstanding]

theorem inv_setDev {v : BlkDev} (h : Inv n s)
    (hv : ∃ queued answered, DevInv n v (fun i => (d, i) ∈ s.outstanding) queued answered) :
    Inv n (setDev s d v) := by
  refine { h with dev := ?_ }
  intro e
  by_cases he : e = d
  · subst he
    simpa [setDev] using hv
  · simpa [setDev, he] using h.dev e

theorem inv_enomem (h : Inv n s) (h0 : s.freelist 0 = 0) : Inv n (getFreelistId s).2 := by
  have hsame : update s.freelist 0 (s.freelist (s.freelist 0)) = s.freelist := by
    rw [h0]
    exact update_eq_self ..
  refine { h with chain := ?_, shadow := ?_ }
  · simp only [getFreelistId, hsame]
    exact h.chain
  · intro i hi
    have hne : i ≠ s.freelist 0 := by
      have := (h.range i hi).1
      omega
    simp only [getFreelistId, update_of_ne hne]
    exact h.shadow i hi

def submit (n : Nat) (s : State) (d id request : Nat) : State :=
  setDev { s with
    freelist := update s.freelist 0 (s.freelist id)
    free := update s.free id false
    request := update s.request id request
    reqState := update s.reqState request .submitted
    outstanding := (d, id) :: s.outstanding } d { s.dev d with
      ring := update (s.dev d).ring ((s.dev d).reqProdPvt % n) (.request id)
      reqProdPvt := (s.dev d).reqProdPvt + 1 }

theorem doIo_submit (hne : s.freelist 0 ≠ 0) :
    { (doIo n s d request).1 with outstanding := issued s d } =
    submit n s d (s.freelist 0) request := by
  unfold doIo submit
  simp [getFreelistId, hne, issued, setDev]

theorem chain_take (h : Inv n s) (hid : s.freelist 0 = id) (hne : id ≠ 0) :
    (0 < id ∧ id < n ∧ id ∉ ids s) ∧
      ∃ l, Follows (update s.freelist 0 (s.freelist id)) 0 (s.freelist id) l ∧
        ∀ i, i ∈ l ↔ 0 < i ∧ i < n ∧ i ∉ id :: ids s := by
  subst hid
  obtain ⟨hfirst, l, hf, hmem⟩ := freeIds_take h.chain hne
  rw [update_self] at hf
  refine ⟨hfirst, l, hf, ?_⟩
  intro i
  rw [hmem, mem_cons, or_comm]

theorem dev_submit (h : Inv n s) (hidle : (s.dev d).handler = none) (hpos : 0 < id) (hlt : id < n)
    (hout : id ∉ ids s) (e : Nat) : ∃ queued answered, DevInv n ((submit n s d id request).dev e)
      (fun i => (e, i) ∈ (d, id) :: s.outstanding) queued answered := by
  obtain ⟨queued, answered, he⟩ := h.dev e
  by_cases hde : e = d
  · subst hde
    have hnot : (e, id) ∉ s.outstanding := fun hm => hout (mem_ids hm)
    have hroom := devInv_room he hnot (by
      rintro i (hi | rfl)
      · exact h.range i (mem_ids hi)
      · exact ⟨hpos, hlt⟩)
    refine ⟨queued ++ [id], answered, ?_⟩
    simp only [submit, setDev, update_self]
    apply devInv_congr _ (devInv_submit he hidle hnot hroom)
    simp [or_comm]
  · refine ⟨queued, answered, ?_⟩
    simp only [submit, setDev, update_of_ne hde]
    apply devInv_congr _ he
    simp [hde]

theorem inv_submit (h : Inv n s) (hidle : (s.dev d).handler = none)
    (hfresh : s.reqState request = .empty) (hid : s.freelist 0 = id) (hne : id ≠ 0) :
    Inv n (submit n s d id request) := by
  obtain ⟨⟨hpos, hlt, hout⟩, l, hf, hmem⟩ := chain_take h hid hne
  -- an outstanding request has been submitted, so it is not the new one
  have hnew : ∀ i ∈ ids s, s.request i ≠ request := by
    intro i hi he
    have hstate := (h.shadow i hi).2
    rw [he, hfresh] at hstate
    cases hstate
  have hold : ∀ i ∈ ids s, i ≠ id := fun i hi => ne_of_mem_of_not_mem hi hout
  refine ⟨⟨l, ?_, hmem⟩, List.nodup_cons.mpr ⟨hout, h.nodup⟩, ?_, ?_, ?_,
    dev_submit h hidle hpos hlt hout⟩
  · simp only [submit, setDev, update_self]
    exact hf
  · intro i hi
    rcases List.mem_cons.mp hi with rfl | hi
    · exact ⟨hpos, hlt⟩
    · exact h.range i hi
  · intro i hi
    rcases List.mem_cons.mp hi with rfl | hi
    · simp [submit, setDev]
    · simp only [submit, setDev, update_of_ne (hold i hi), update_of_ne (hnew i hi)]
      exact h.shadow i hi
  · intro i hi j hj he
    simp only [submit, setDev] at he
    rcases List.mem_cons.mp hi with hir | hi <;> rcases List.mem_cons.mp hj with hjr | hj
    · rw [hir, hjr]
    · rw [hir, update_self, update_of_ne (hold j hj)] at he
      exact absurd he.symm (hnew j hj)
    · rw [hjr, update_self, update_of_ne (hold i hi)] at he
      exact absurd he (hnew i hi)
    · rw [update_of_ne (hold i hi), update_of_ne (hold j hj)] at he
      exact h.requests i hi j hj he

theorem inv_doIo (h : Inv n s) (hidle : (s.dev d).handler = none)
    (hfresh : s.reqState request = .empty) :
    Inv n { (doIo n s d request).1 with outstanding := issued s d } := by
  by_cases h0 : s.freelist 0 = 0
  · have hfail : (doIo n s d request).1 = (getFreelistId s).2 := by
      unfold doIo
      simp [getFreelistId, h0]
    rw [hfail, issued, if_pos h0]
    exact inv_enomem h h0
  · rw [doIo_submit h0]
    exact inv_submit h hidle hfresh rfl h0

def complete (s : State) (d c p id : Nat) (okay : Bool) : State :=
  setDev { addIdFreelist s id with
    reqState := update s.reqState (s.request id) (if okay then .doneSuccess else .doneError)
    outstanding := s.outstanding.filter (·.2 ≠ id) } d { s.dev d with handler := some (c + 1, p) }

theorem mem_ids_complete {c p : Nat} :
    i ∈ ids (complete s d c p id okay) ↔ i ∈ ids s ∧ i ≠ id := by
  have hids : ids (complete s d c p id okay) = (ids s).filter (· ≠ id) := by
    simp only [ids, complete, setDev, filter_map]
    rfl
  rw [hids]
  simp

theorem inv_complete {c p : Nat} {queued rest : List Nat} (hn : n ≤ 65536)
    (h : Inv n s) (hd : DevInv n (s.dev d) (fun i => (d, i) ∈ s.outstanding) queued (id :: rest))
    (hc : (s.dev d).handler = some (c, p)) (hlt : c < p) : Inv n (complete s d c p id okay) := by
  have hout := (hd.owned id).mpr (by simp)
  have hid := mem_ids hout
  obtain ⟨hpos, hlast⟩ := h.range id hid
  obtain ⟨l, hf, hl⟩ := freeIds_put hn h.chain hpos hlast hid
  refine ⟨⟨l, hf, ?_⟩, ?_, ?_, ?_, ?_, ?_⟩
  · intro i
    rw [mem_ids_complete]
    exact hl i
  · exact (List.filter_sublist.map Prod.snd).nodup h.nodup
  · intro i hi
    exact h.range i (mem_ids_complete.mp hi).1
  · intro i hi
    obtain ⟨hi, hne⟩ := mem_ids_complete.mp hi
    have hreq : s.request i ≠ s.request id := fun he => hne (h.requests i hi id hid he)
    simp only [complete, setDev, addIdFreelist, update_of_ne hne, update_of_ne hreq]
    exact h.shadow i hi
  · intro i hi j hj he
    exact h.requests i (mem_ids_complete.mp hi).1 j (mem_ids_complete.mp hj).1 he
  · intro e
    by_cases hde : e = d
    · subst hde
      refine ⟨queued, rest, ?_⟩
      simp only [complete, setDev, update_self]
      apply devInv_congr _ (devInv_handle hd hc hlt)
      simp
    · obtain ⟨queued', answered', he⟩ := h.dev e
      refine ⟨queued', answered', ?_⟩
      simp only [complete, setDev, update_of_ne hde]
      apply devInv_congr _ he
      intro i
      simp only [mem_filter, decide_eq_true_eq, and_iff_left_iff_imp]
      rintro hei rfl
      exact hde (dev_unique h.nodup hei hout)

theorem inv_stepHandler (hn : n ≤ 65536) (h : Inv n s) (ht : stepHandler n s d = some t) :
    Inv n { t with outstanding := retired n s d } := by
  obtain ⟨queued, answered, hd⟩ := h.dev d
  cases hc : (s.dev d).handler with
  | none =>
    rw [stepHandler, hc] at ht
    cases ht
  | some window =>
    obtain ⟨c, p⟩ := window
    simp only [stepHandler, hc] at ht
    split at ht
    · rename_i hsame
      cases ht
      rw [retired, nextId_same hc hsame]
      exact inv_setDev h ⟨queued, answered, devInv_return hd hc⟩
    · rename_i hne
      obtain ⟨id, okay, rest, rfl, hslot, hlt⟩ := devInv_next hd hc hne
      rw [hslot] at ht
      obtain ⟨-, rfl⟩ := of_unless ht
      rw [retired, nextId_response hc hne hslot]
      exact inv_complete hn h hd hc hlt

theorem inv_step {a : Label} (hn : n ≤ 65536) (h : Inv n s) (ht : step n s a = some t) :
    Inv n t := by
  cases a with
  | doIo d request =>
    obtain ⟨⟨hidle, hfresh⟩, rfl⟩ := of_when ht
    exact inv_doIo h hidle hfresh
  | take d =>
    obtain ⟨v, hv, rfl⟩ := Option.map_eq_some_iff.mp ht
    obtain ⟨queued, answered, hd⟩ := h.dev d
    obtain ⟨queued', hd⟩ := devInv_take hd hv
    exact inv_setDev h ⟨queued', answered, hd⟩
  | answer d id okay =>
    obtain ⟨v, hv, rfl⟩ := Option.map_eq_some_iff.mp ht
    obtain ⟨queued, answered, hd⟩ := h.dev d
    exact inv_setDev h ⟨queued, answered ++ [id], devInv_answer hd hv⟩
  | interrupt d =>
    obtain ⟨hidle, rfl⟩ := of_when ht
    obtain ⟨queued, answered, hd⟩ := h.dev d
    exact inv_setDev h ⟨queued, answered, devInv_interrupt hd hidle⟩
  | handle d =>
    obtain ⟨u, hu, rfl⟩ := Option.map_eq_some_iff.mp ht
    exact inv_stepHandler hn h hu

theorem ring_ids_consistent (r : RingSize) (s : State)
    (h : Reach (step r.size) anyStep (Initial r.size) s) : Consistent r.size s := by
  have hn := r.size_le
  have hpos : 0 < r.size := Nat.two_pow_pos r.bits
  have hinv : Inv r.size s := by
    apply h.invariant
    · intro s hs
      exact inv_initial hn hpos hs
    · intro s a t hs _ ht
      exact inv_step hn hs ht
  exact consistent_of_inv (lt_of_le_of_lt hn (by decide)) hinv

def start (n : Nat) : State where
  freelist := allocRequestTable n
  free _ := true
  request _ := 0
  reqState _ := .empty
  dev _ := ⟨fun _ => .empty, 0, 0, 0, 0, [], none⟩
  outstanding := []

theorem start_initial (n : Nat) : Initial n (start n) :=
  ⟨rfl, rfl, fun _ => ⟨rfl, rfl, rfl, rfl, rfl, rfl⟩⟩

/-- The ids run out, both devices handle a response, and the two ids that come free are taken again
before the handler of device 0 has returned. -/
theorem consistent_after_exhaustion : ∃ s, Reach (step 4) anyStep (Initial 4) s ∧
    (ids s = [3, 2, 1] ∧ (s.dev 0).handler = some (1, 1) ∧ (s.dev 1).rspCons = 1) ∧
      Consistent 4 s := by
  have h₀ : Reach (step 4) anyStep (Initial 4) (start 4) := .start (start_initial 4)
  obtain ⟨s, hreach, hs⟩ := h₀.runTo
    (P := fun s => ids s = [3, 2, 1] ∧ (s.dev 0).handler = some (1, 1) ∧ (s.dev 1).rspCons = 1)
    [.doIo 0 0, .doIo 1 1, .doIo 0 2, .doIo 1 3, .take 1, .answer 1 2 true, .interrupt 1, .handle 1,
      .handle 1, .doIo 1 3, .take 0, .answer 0 3 false, .interrupt 0, .handle 0, .doIo 1 4]
    (by decide +kernel)
  exact ⟨s, hreach, hs, ring_ids_consistent ⟨2, by decide⟩ s hreach⟩

end Guk.BlkRing
