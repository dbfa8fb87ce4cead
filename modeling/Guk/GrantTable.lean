import Guk.Chain
import Guk.Runs
import Mathlib.Data.List.Perm.Subperm
import Mathlib.Data.List.Range

/-!
# The grant table (`gnttab.c`)

The free references are threaded through `gnttab_list`: cell 0 holds the head
and 0 ends the list. `num_free` counts them. The two grant functions take a
reference from the list, the two end functions put it back, and `init_frames`
puts every entry above the reserved ones on the list, at startup and again on
every resume.

The flag values and the size of a `grant_entry_t` are those of Xen's public
grant table interface.
-/
namespace Guk.GrantTable

open Chain Runs Function List

def NR_RESERVED_ENTRIES : Nat := 8
def NR_GRANT_FRAMES : Nat := 4
def NR_GRANT_ENTRIES : Nat := NR_GRANT_FRAMES * 4096 / 8

def GTF_permit_access : BitVec 16 := 1
def GTF_accept_transfer : BitVec 16 := 2
def GTF_readonly : Int := 4
def GTF_reading : BitVec 16 := 8
def GTF_writing : BitVec 16 := 16
def GTF_transfer_committed : BitVec 16 := 4
def GTF_transfer_completed : BitVec 16 := 8

structure GrantEntry where
  flags : BitVec 16
  domid : BitVec 16
  frame : BitVec 32
  deriving DecidableEq, Repr

/-- The list `outstanding` of the granted references is not in the code. -/
structure State where
  gnttabTable : Nat → GrantEntry
  gnttabList : Nat → Nat
  numFree : Int
  gnttabSuspended : Int
  outstanding : List Nat

def putFreeEntry (ref : Nat) (s : State) : State :=
  { s with
    gnttabList := update (update s.gnttabList ref (s.gnttabList 0)) 0 ref
    numFree := s.numFree + 1 }

def getFreeEntry (s : State) : Nat × State :=
  let ref := s.gnttabList 0
  (ref, { s with
    gnttabList := update s.gnttabList 0 (s.gnttabList ref)
    numFree := s.numFree - 1 })

def exhausted (s : State) : Prop := (getFreeEntry s).2.numFree < 0

instance (s : State) : Decidable (exhausted s) := inferInstanceAs (Decidable (_ < _))

def grant (entry : GrantEntry) (s : State) : Option State :=
  if exhausted s then none
  else
    let (ref, s) := getFreeEntry s
    some { s with gnttabTable := update s.gnttabTable ref entry }

def gnttabGrantAccess (domid : BitVec 16) (frame : BitVec 32) (readonly : Int) :
    State → Option State :=
  grant ⟨GTF_permit_access ||| BitVec.ofInt 16 (readonly * GTF_readonly), domid, frame⟩

def gnttabGrantTransfer (domid : BitVec 16) (pfn : BitVec 32) : State → Option State :=
  grant ⟨GTF_accept_transfer, domid, pfn⟩

def clearFlags (ref : Nat) (s : State) : State :=
  { s with gnttabTable := update s.gnttabTable ref { s.gnttabTable ref with flags := 0 } }

def gnttabEndAccess (ref : Nat) (s : State) : State :=
  if (s.gnttabTable ref).flags &&& (GTF_reading ||| GTF_writing) ≠ 0 then s
  else putFreeEntry ref (clearFlags ref s)

def gnttabEndTransfer (ref : Nat) (s : State) : Option State :=
  if (s.gnttabTable ref).flags &&& GTF_transfer_committed =
    0 then some (putFreeEntry ref (clearFlags ref s))
  else if (s.gnttabTable ref).flags &&& GTF_transfer_completed = 0 then none
  else some (putFreeEntry ref s)

def putAll (refs : List Nat) (s : State) : State := refs.foldl (fun s i => putFreeEntry i s) s

@[irreducible] def entries : List Nat :=
  List.range' NR_RESERVED_ENTRIES (NR_GRANT_ENTRIES - NR_RESERVED_ENTRIES)

def initFrames (s : State) : State := putAll entries s

def gnttabSuspend (s : State) : State := { s with gnttabSuspended := s.gnttabSuspended + 1 }

def gnttabResume (s : State) : Option State :=
  if s.gnttabSuspended ≠ 1 then none
  else
    let s := initFrames s
    some { s with gnttabSuspended := s.gnttabSuspended - 1 }

def initGnttab (table : Nat → GrantEntry) : State :=
  initFrames ⟨table, fun _ => 0, 0, 0, []⟩

/-! The calls with the record that is kept of them. -/

def recordGrant (call : State → Option State) (s : State) : Option State :=
  (call s).map fun t => { t with outstanding := s.gnttabList 0 :: s.outstanding }

/-- An end function that has put the reference back has counted it. -/
def recordEnd (ref : Nat) (s t : State) : State :=
  { t with outstanding := if t.numFree = s.numFree then s.outstanding else s.outstanding.erase ref }

def endAccess (ref : Nat) (s : State) : State := recordEnd ref s (gnttabEndAccess ref s)

def endTransfer (ref : Nat) (s : State) : Option State :=
  (gnttabEndTransfer ref s).map (recordEnd ref s)

inductive Label where
  | grantAccess (domid : BitVec 16) (frame : BitVec 32) (readonly : Int)
  | grantTransfer (domid : BitVec 16) (pfn : BitVec 32)
  | endAccess (ref : Nat)
  | endTransfer (ref : Nat)
  /-- Xen or the other domain changes the shared entry. -/
  | remote (ref : Nat) (entry : GrantEntry)
  | suspend
  | resume

def step (s : State) : Label → Option State
  | .grantAccess domid frame readonly =>
    if s.gnttabSuspended = 0 then recordGrant (gnttabGrantAccess domid frame readonly) s else none
  | .grantTransfer domid pfn =>
    if s.gnttabSuspended = 0 then recordGrant (gnttabGrantTransfer domid pfn) s else none
  | .endAccess ref =>
    if s.gnttabSuspended = 0 ∧ ref ∈ s.outstanding then some (endAccess ref s) else none
  | .endTransfer ref =>
    if s.gnttabSuspended = 0 ∧ ref ∈ s.outstanding then endTransfer ref s else none
  | .remote ref entry => some { s with gnttabTable := update s.gnttabTable ref entry }
  | .suspend =>
    if s.gnttabSuspended = 0 ∧ s.outstanding = [] then some (gnttabSuspend s) else none
  | .resume => gnttabResume s

def Initial (s : State) : Prop := ∃ table, s = initGnttab table

def Free (s : State) (r : Nat) : Prop :=
  NR_RESERVED_ENTRIES ≤ r ∧ r < NR_GRANT_ENTRIES ∧ r ∉ s.outstanding

structure Consistent (s : State) : Prop where
  chain : ∃ l, Follows s.gnttabList 0 (s.gnttabList 0) l ∧ l.Nodup ∧ (∀ r, r ∈ l ↔ Free s r) ∧
    s.numFree = l.length
  fresh : ¬ exhausted s → Free s (getFreeEntry s).1
  exhaustion : exhausted s ↔ ∀ r, ¬ Free s r

structure Inv (s : State) : Prop where
  chain : ∃ l, Follows s.gnttabList 0 (s.gnttabList 0) l ∧ (∀ r, r ∈ l ↔ Free s r) ∧
    s.numFree = l.length
  nodup : s.outstanding.Nodup
  range : ∀ r ∈ s.outstanding, NR_RESERVED_ENTRIES ≤ r ∧ r < NR_GRANT_ENTRIES
  quiet : s.gnttabSuspended = 0 ∨ s.outstanding = []

theorem reserved_pos : 0 < NR_RESERVED_ENTRIES := by decide

variable {s t : State} {l : List Nat} {ref : Nat}

theorem exhausted_iff (hnum : s.numFree = l.length) :
    exhausted s ↔ l = [] := by
  simp only [exhausted, getFreeEntry, hnum]
  rw [← length_eq_zero_iff]
  omega

theorem not_exhausted (h : 0 < s.numFree) : ¬ exhausted s := by
  simp only [exhausted, getFreeEntry]
  omega

theorem recordGrant_of (hne : ¬ exhausted s) (entry : GrantEntry) : recordGrant (grant entry) s =
    some { (getFreeEntry s).2 with
      gnttabTable := update s.gnttabTable (getFreeEntry s).1 entry
      outstanding := (getFreeEntry s).1 :: s.outstanding } := by
  rw [recordGrant, grant, if_neg hne]
  rfl

theorem consistent_of_inv (h : Inv s) : Consistent s := by
  obtain ⟨l, hf, hmem, hnum⟩ := h.chain
  have hex := exhausted_iff hnum
  refine ⟨⟨l, hf, follows_nodup hf, hmem, hnum⟩, ?_, ?_⟩
  · intro hne
    cases l with
    | nil => exact absurd (hex.mpr rfl) hne
    | cons r l =>
      have hr : (getFreeEntry s).1 = r := hf.1
      rw [hr]
      exact (hmem r).mp mem_cons_self
  · rw [hex]
    constructor
    · rintro rfl r hr
      exact not_mem_nil ((hmem r).mpr hr)
    · intro hnone
      exact List.eq_nil_iff_forall_not_mem.mpr fun r hr => hnone r ((hmem r).mp hr)

theorem follows_putFreeEntry
    (hf : Follows s.gnttabList 0 (s.gnttabList 0) l) (hne : ref ≠ 0) (hr : ref ∉ l) :
    Follows (putFreeEntry ref s).gnttabList 0 ((putFreeEntry ref s).gnttabList 0) (ref :: l) := by
  simp only [putFreeEntry, update_self]
  exact follows_put hf hne hr

theorem follows_getFreeEntry {r : Nat}
    (hf : Follows s.gnttabList 0 (s.gnttabList 0) (r :: l)) :
    Follows (getFreeEntry s).2.gnttabList 0 ((getFreeEntry s).2.gnttabList 0) l := by
  obtain ⟨hhead, _, hrest⟩ := hf
  simp only [getFreeEntry, update_self, hhead]
  exact follows_update hrest (stop_not_mem hrest) _

theorem putAll_fields (refs : List Nat) (s : State) :
    (putAll refs s).numFree = s.numFree + refs.length ∧
    (putAll refs s).outstanding = s.outstanding ∧
    (putAll refs s).gnttabSuspended = s.gnttabSuspended := by
  induction refs generalizing s with
  | nil => simp [putAll]
  | cons r refs ih =>
    obtain ⟨hnum, hout, hsusp⟩ := ih (putFreeEntry r s)
    refine ⟨?_, hout, hsusp⟩
    change (putAll refs (putFreeEntry r s)).numFree = _
    rw [hnum]
    simp only [putFreeEntry, length_cons]
    omega

theorem putAll_follows (refs l : List Nat) (s : State)
    (hf : Follows s.gnttabList 0 (s.gnttabList 0) l) (hnd : refs.Nodup)
    (hr : ∀ r ∈ refs, r ≠ 0 ∧ r ∉ l) :
    Follows (putAll refs s).gnttabList 0 ((putAll refs s).gnttabList 0) (refs.reverse ++ l) := by
  induction refs generalizing s l with
  | nil => exact hf
  | cons r refs ih =>
    obtain ⟨hnot, hnd⟩ := List.nodup_cons.mp hnd
    obtain ⟨hne, hl⟩ := hr r mem_cons_self
    have hrest :=
      ih (r :: l) (putFreeEntry r s) (follows_putFreeEntry hf hne hl) hnd (fun x hx => by
      obtain ⟨hx0, hxl⟩ := hr x (mem_cons_of_mem _ hx)
      refine ⟨hx0, ?_⟩
      intro hm
      rcases List.mem_cons.mp hm with rfl | hm
      · exact hnot hx
      · exact hxl hm)
    rw [reverse_cons, append_assoc]
    exact hrest

theorem mem_entries (r : Nat) : r ∈ entries ↔ NR_RESERVED_ENTRIES ≤ r ∧ r < NR_GRANT_ENTRIES := by
  have hle : NR_RESERVED_ENTRIES ≤ NR_GRANT_ENTRIES := by decide
  rw [entries, mem_range'_1]
  omega

theorem entries_nodup : entries.Nodup := by
  rw [entries]
  exact nodup_range'

theorem initGnttab_fields (table : Nat → GrantEntry) :
    (initGnttab table).outstanding = [] ∧ (initGnttab table).gnttabSuspended = 0 := by
  unfold initGnttab initFrames
  obtain ⟨_, hout, hsusp⟩ := putAll_fields entries ⟨table, fun _ => 0, 0, 0, []⟩
  exact ⟨hout, hsusp⟩

theorem inv_initGnttab (table : Nat → GrantEntry) : Inv (initGnttab table) := by
  unfold initGnttab initFrames
  obtain ⟨hnum, hout, hsusp⟩ := putAll_fields entries ⟨table, fun _ => 0, 0, 0, []⟩
  have hf :=
    putAll_follows entries [] ⟨table, fun _ => 0, 0, 0, []⟩ rfl entries_nodup (fun r hr => by
    have := ((mem_entries r).mp hr).1
    have := reserved_pos
    exact ⟨by omega, not_mem_nil⟩)
  refine ⟨⟨entries.reverse ++ [], hf, ?_, ?_⟩, ?_, ?_, .inl hsusp⟩
  · intro r
    rw [append_nil, mem_reverse, mem_entries]
    simp [Free, hout]
  · rw [hnum]
    simp
  · rw [hout]
    exact nodup_nil
  · intro r hr
    rw [hout] at hr
    exact absurd hr not_mem_nil

theorem inv_table (h : Inv s) (table : Nat → GrantEntry) :
    Inv { s with gnttabTable := table } := { h with }

theorem inv_grant {entry : GrantEntry} (h : Inv s) (hmapped : s.gnttabSuspended = 0)
    (hs : recordGrant (grant entry) s = some t) : Inv t := by
  obtain ⟨l, hf, hmem, hnum⟩ := h.chain
  obtain ⟨u, hu, rfl⟩ := Option.map_eq_some_iff.mp hs
  obtain ⟨hne, rfl⟩ := of_unless hu
  cases l with
  | nil => exact absurd ((exhausted_iff hnum).mpr rfl) hne
  | cons r l =>
    have hhead := hf.1
    have hfree : Free s r := (hmem r).mp mem_cons_self
    have hnd := List.nodup_cons.mp (follows_nodup hf)
    refine ⟨⟨l, follows_getFreeEntry hf, ?_, ?_⟩, ?_, ?_, .inl hmapped⟩
    · intro x
      have hx := hmem x
      simp only [Free, mem_cons, hhead] at hx ⊢
      constructor
      · intro hxl
        obtain ⟨h₁, h₂, h₃⟩ := hx.mp (.inr hxl)
        refine ⟨h₁, h₂, ?_⟩
        rintro (rfl | hxo)
        · exact hnd.1 hxl
        · exact h₃ hxo
      · rintro ⟨h₁, h₂, h₃⟩
        rcases hx.mpr ⟨h₁, h₂, fun hxo => h₃ (.inr hxo)⟩ with rfl | hxl
        · exact absurd (.inl rfl) h₃
        · exact hxl
    · simp only [hnum, length_cons]
      omega
    · simp only [hhead]
      exact List.nodup_cons.mpr ⟨hfree.2.2, h.nodup⟩
    · intro x hx
      simp only [hhead] at hx
      rcases List.mem_cons.mp hx with rfl | hx
      · exact ⟨hfree.1, hfree.2.1⟩
      · exact h.range x hx

def giveBack (ref : Nat) (s : State) : State :=
  { putFreeEntry ref s with outstanding := s.outstanding.erase ref }

theorem recordEnd_put (hnum : t.numFree = s.numFree) (hout : t.outstanding = s.outstanding) :
    recordEnd ref s (putFreeEntry ref t) = giveBack ref t := by
  have hcount : (putFreeEntry ref t).numFree ≠ s.numFree := by
    simp only [putFreeEntry, hnum]
    omega
  rw [recordEnd, if_neg hcount, giveBack, hout]

theorem inv_giveBack (h : Inv s) (hmapped : s.gnttabSuspended = 0)
    (hr : ref ∈ s.outstanding) : Inv (giveBack ref s) := by
  obtain ⟨l, hf, hmem, hnum⟩ := h.chain
  have hrange := h.range ref hr
  have hnot : ref ∉ l := fun hl => ((hmem ref).mp hl).2.2 hr
  have hne : ref ≠ 0 := by
    have := reserved_pos
    omega
  refine ⟨⟨ref :: l, follows_putFreeEntry hf hne hnot, ?_, ?_⟩, ?_, ?_, .inl hmapped⟩
  · intro x
    have hx := hmem x
    simp only [Free] at hx
    simp only [Free, giveBack, putFreeEntry, mem_cons, hx, List.Nodup.mem_erase_iff h.nodup]
    constructor
    · rintro (rfl | ⟨h₁, h₂, h₃⟩)
      · exact ⟨hrange.1, hrange.2, fun hm => hm.1 rfl⟩
      · exact ⟨h₁, h₂, fun hm => h₃ hm.2⟩
    · rintro ⟨h₁, h₂, h₃⟩
      by_cases he : x = ref
      · exact .inl he
      · exact .inr ⟨h₁, h₂, fun hm => h₃ ⟨he, hm⟩⟩
  · simp only [giveBack, putFreeEntry, hnum, length_cons]
    omega
  · exact h.nodup.erase ref
  · intro x hx
    exact h.range x (mem_of_mem_erase hx)

theorem endAccess_cases (ref : Nat) (s : State) :
    endAccess ref s = s ∨ endAccess ref s = giveBack ref (clearFlags ref s) := by
  unfold endAccess gnttabEndAccess
  split
  · exact .inl (by rw [recordEnd, if_pos rfl])
  · exact .inr (recordEnd_put rfl rfl)

theorem inv_endAccess (h : Inv s) (hmapped : s.gnttabSuspended = 0)
    (hr : ref ∈ s.outstanding) : Inv (endAccess ref s) := by
  rcases endAccess_cases ref s with he | he
  · rwa [he]
  · rw [he]
    exact inv_giveBack (inv_table h _) hmapped hr

theorem endTransfer_cases (hs : endTransfer ref s = some t) :
    t = giveBack ref (clearFlags ref s) ∨
      (s.gnttabTable ref).flags &&& GTF_transfer_completed ≠ 0 ∧ t = giveBack ref s := by
  obtain ⟨u, hu, rfl⟩ := Option.map_eq_some_iff.mp hs
  unfold gnttabEndTransfer at hu
  split at hu
  · cases hu
    exact .inl (recordEnd_put rfl rfl)
  · obtain ⟨hcompleted, rfl⟩ := of_unless hu
    exact .inr ⟨hcompleted, recordEnd_put rfl rfl⟩

theorem inv_endTransfer (h : Inv s) (hmapped : s.gnttabSuspended = 0)
    (hr : ref ∈ s.outstanding) (hs : endTransfer ref s = some t) : Inv t := by
  rcases endTransfer_cases hs with rfl | ⟨_, rfl⟩
  · exact inv_giveBack (inv_table h _) hmapped hr
  · exact inv_giveBack h hmapped hr

theorem inv_step {a : Label} (h : Inv s) (ha : a ≠ .resume)
    (hs : step s a = some t) : Inv t := by
  cases a with
  | grantAccess domid frame readonly | grantTransfer domid pfn =>
    obtain ⟨hmapped, hs⟩ := Option.ite_none_right_eq_some.mp hs
    exact inv_grant h hmapped hs
  | endAccess ref =>
    obtain ⟨⟨hmapped, hr⟩, rfl⟩ := of_when hs
    exact inv_endAccess h hmapped hr
  | endTransfer ref =>
    obtain ⟨⟨hmapped, hr⟩, hs⟩ := Option.ite_none_right_eq_some.mp hs
    exact inv_endTransfer h hmapped hr hs
  | remote ref entry =>
    cases hs
    exact inv_table h _
  | suspend =>
    obtain ⟨⟨_, hout⟩, rfl⟩ := of_when hs
    exact { h with quiet := .inr hout }
  | resume => exact absurd rfl ha

def noResume (_ : State) (a : Label) : Prop := a ≠ .resume

theorem inv_reach (h : Reach step noResume Initial s) : Inv s := by
  apply h.invariant
  · rintro s ⟨table, rfl⟩
    exact inv_initGnttab table
  · intro s a t hi ha hs
    exact inv_step hi ha hs

theorem numFree_le (h : Consistent s) : s.numFree ≤ entries.length := by
  obtain ⟨l, _, hnd, hmem, hnum⟩ := h.chain
  have hsub : l ⊆ entries := by
    intro r hr
    have hr := (hmem r).mp hr
    exact (mem_entries r).mpr ⟨hr.1, hr.2.1⟩
  have hle := (hnd.subperm hsub).length_le
  omega

theorem resume_numFree (hs : step s .resume = some t) :
    s.gnttabSuspended = 1 ∧ t.numFree = s.numFree + entries.length := by
  simp only [step, gnttabResume, initFrames] at hs
  split at hs <;> cases hs
  rename_i hsusp
  exact ⟨not_not.mp hsusp, (putAll_fields entries s).1⟩

theorem resume_breaks (h : Inv s) (hs : step s .resume = some t) : ¬ Consistent t := by
  intro hc
  obtain ⟨hsusp, hnum⟩ := resume_numFree hs
  obtain ⟨l, _, hmem, hlen⟩ := h.chain
  have hout : s.outstanding = [] := by
    rcases h.quiet with h0 | hout
    · omega
    · exact hout
  have hfirst : NR_RESERVED_ENTRIES ∈ l := by
    rw [hmem]
    exact ⟨le_refl _, by decide, by simp [hout]⟩
  have hpos := length_pos_of_mem hfirst
  have hle := numFree_le hc
  omega

/-- In every run without a resume the free list is consistent in every state, and the first
resume of a run always breaks it. -/
theorem consistent_until_resume (s : State) (h : Reach step noResume Initial s) :
    Consistent s ∧ ∀ t, step s .resume = some t → ¬ Consistent t := by
  have hinv := inv_reach h
  constructor
  · exact consistent_of_inv hinv
  · intro t hs
    exact resume_breaks hinv hs

theorem consistent_after_grant : ∃ t,
    step (initGnttab fun _ => ⟨0, 0, 0⟩) (.grantAccess 0 7 0) = some t ∧ Consistent t := by
  obtain ⟨hout, hsusp⟩ := initGnttab_fields fun _ => ⟨0, 0, 0⟩
  have hstart : Reach step noResume Initial (initGnttab fun _ => ⟨0, 0, 0⟩) := .start ⟨_, rfl⟩
  have hc := (consistent_until_resume _ hstart).1
  generalize initGnttab (fun _ => ⟨0, 0, 0⟩) = start at *
  have hfree : Free start NR_RESERVED_ENTRIES := ⟨le_refl _, by decide, by simp [hout]⟩
  have hne : ¬ exhausted start := fun he => hc.exhaustion.mp he _ hfree
  obtain ⟨t, ht⟩ : ∃ t, step start (.grantAccess 0 7 0) = some t :=
    ⟨_, (if_pos hsusp).trans (recordGrant_of hne _)⟩
  exact ⟨t, ht, (consistent_until_resume t (.next _ hstart (by simp [noResume]) ht)).1⟩

/-- One suspend and resume after startup: the free list is no longer consistent. -/
theorem resume_not_consistent : ¬ ∀ s, Reach step anyStep Initial s → Consistent s := by
  intro hall
  have hstart : Initial (initGnttab fun _ => ⟨0, 0, 0⟩) := ⟨_, rfl⟩
  have hinv : Inv (initGnttab fun _ => ⟨0, 0, 0⟩) := inv_initGnttab _
  obtain ⟨hout, hsusp⟩ := initGnttab_fields fun _ => ⟨0, 0, 0⟩
  generalize initGnttab (fun _ => ⟨0, 0, 0⟩) = start at *
  have h₁ : step start .suspend = some (gnttabSuspend start) := if_pos ⟨hsusp, hout⟩
  have hsusp' : (gnttabSuspend start).gnttabSuspended = 1 := by
    simp only [gnttabSuspend, hsusp]
    rfl
  obtain ⟨t, h₂⟩ : ∃ t, step (gnttabSuspend start) .resume = some t :=
    ⟨_, if_neg (not_not.mpr hsusp')⟩
  have hbad := resume_breaks (inv_step hinv (by simp) h₁) h₂
  exact hbad (hall t (.next .resume (.next .suspend (.start hstart) trivial h₁) trivial h₂))

end Guk.GrantTable
