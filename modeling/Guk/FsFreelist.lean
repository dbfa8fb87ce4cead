import Guk.Chain
import Guk.Owner
import Guk.Runs
import Mathlib.Data.List.Range

/-!
# Private request ids of the FS frontend (`fs-front.c`)

The free ids are a lock-free stack threaded through `freelist`: cell 0 holds
the id on top and each cell the id below it.

`get_id_from_freelist` and `add_id_to_freelist` are cut into their single reads
and writes of shared memory. A thread holds the id that its `cmpxchg` took
until the `cmpxchg` that puts it back has succeeded.
-/
namespace Guk.FsFreelist

open Chain Owner Runs Function List

def short (x : Nat) : Nat := x % 65536

inductive Pc where
  | idle
  | getRead
  | getNext (oldId : Nat)
  | getCas (oldId newId : Nat)
  | holding (id : Nat)
  | addRead (id : Nat)
  | addStore (id oldId : Nat)
  | addCas (id oldId : Nat)
  deriving DecidableEq, Repr

def Pc.held : Pc → Option Nat
  | .holding id | .addRead id | .addStore id _ | .addCas id _ => some id
  | _ => none

structure State where
  freelist : Nat → Nat
  thread : Nat → Pc

def setPc (s : State) (t : Nat) (pc : Pc) : State := { s with thread := update s.thread t pc }

def store (s : State) (i v : Nat) : State := { s with freelist := update s.freelist i v }

def step (s : State) (t : Nat) : Option State :=
  match s.thread t with
  | .idle => some (setPc s t .getRead)
  | .getRead => some (setPc s t (.getNext (s.freelist 0)))
  | .getNext oldId => some (setPc s t (.getCas oldId (s.freelist oldId)))
  | .getCas oldId newId =>
    if s.freelist 0 = oldId then some (setPc (store s 0 newId) t (.holding oldId))
    else some (setPc s t .getRead)
  | .holding id => some (setPc s t (.addRead id))
  | .addRead id => some (setPc s t (.addStore id (s.freelist 0)))
  | .addStore id oldId => some (setPc (store s id oldId) t (.addCas id oldId))
  | .addCas id oldId =>
    if s.freelist 0 = oldId then some (setPc (store s 0 (short id)) t .idle)
    else some (setPc s t (.addRead id))

def getIdFromFreelist (f : Nat → Nat) : Nat × (Nat → Nat) :=
  (f 0, update f 0 (f (f 0)))

def addIdToFreelist (f : Nat → Nat) (id : Nat) : Nat → Nat :=
  update (update f id (f 0)) 0 (short id)

def allocRequestTable (n : Nat) : Nat → Nat := (List.range n).foldl addIdToFreelist fun _ => 0

def Initial (n : Nat) (s : State) : Prop := s = ⟨allocRequestTable n, fun _ => .idle⟩

def held (s : State) (t : Nat) : Option Nat := (s.thread t).held

def OnList (s : State) (id : Nat) : Prop := ∃ k, s.freelist^[k] (s.freelist 0) = id

/-- No two threads hold the same id, and an id that nobody holds is on the list. -/
structure IdsExclusive (n : Nat) (s : State) : Prop where
  exclusive : ∀ t u id, held s t = some id → held s u = some id → t = u
  conserved : ∀ id < n, (∀ t, held s t ≠ some id) → OnList s id

/-- A `cmpxchg` that takes an id finds the link that was read, and takes the last one, id 0, only
while fewer than `n` ids are held; id 0 is put back on an empty list whose head did not move. -/
def safeStep (n : Nat) (s : State) (t : Nat) : Prop :=
  match s.thread t with
  | .getCas oldId newId => s.freelist 0 = oldId →
      s.freelist oldId = newId ∧ (oldId = 0 → Fewer (held s) n)
  | .addStore id oldId => id = 0 → s.freelist 0 = oldId
  | .addCas id oldId => id = 0 → s.freelist 0 = oldId → oldId = 0
  | _ => True

structure Inv (n : Nat) (s : State) : Prop where
  chain : ∃ l, Follows s.freelist 0 (s.freelist 0) l ∧
    ∀ i, i ∈ l ↔ 0 < i ∧ i < n ∧ Unowned (held s) i
  exclusive : Exclusive (held s)
  range : ∀ t id, held s t = some id → id < n
  cell : ∀ t id oldId, s.thread t = .addCas id oldId → id ≠ 0 → s.freelist id = oldId

theorem idsExclusive_of_inv {n : Nat} {s : State} (h : Inv n s) : IdsExclusive n s := by
  refine ⟨h.exclusive, ?_⟩
  intro id hid hfree
  obtain ⟨l, hf, hmem⟩ := h.chain
  by_cases h0 : id = 0
  · exact follows_iterate hf (.inr h0)
  · exact follows_iterate hf (.inl ((hmem id).mpr ⟨Nat.pos_of_ne_zero h0, hid, hfree⟩))

theorem alloc_chain (n : Nat) (hfit : n ≤ 65536) :
    ∃ l, Follows (allocRequestTable n) 0 (allocRequestTable n 0) l ∧ ∀ i, i ∈ l ↔ 0 < i ∧
      i < n := by
  induction n with
  | zero => exact ⟨[], rfl, fun i => by simp⟩
  | succ n ih =>
    obtain ⟨l, hf, hmem⟩ := ih (by omega)
    have hstep : allocRequestTable (n + 1) = addIdToFreelist (allocRequestTable n) n := by
      simp [allocRequestTable, range_succ]
    have hshort : short n = n := Nat.mod_eq_of_lt (by omega)
    rw [hstep, addIdToFreelist, hshort]
    by_cases h0 : n = 0
    · -- the first id is 0: the list stays empty
      subst h0
      refine ⟨[], by simp, ?_⟩
      intro i
      simp only [not_mem_nil, false_iff]
      omega
    · have hnot : n ∉ l := fun hm => by
        have := (hmem n).mp hm
        omega
      refine ⟨n :: l, ?_, ?_⟩
      · rw [update_self]
        exact follows_put hf h0 hnot
      · intro i
        rw [mem_cons, hmem]
        omega

/-! The same list is used by the block and network frontends and by the FS backend, under locks or
by one thread. -/

def FreeIds (n : Nat) (f : Nat → Nat) (out : Nat → Prop) : Prop :=
  ∃ l, Follows f 0 (f 0) l ∧ ∀ i, i ∈ l ↔ 0 < i ∧ i < n ∧ ¬ out i

section

variable {n id : Nat} {f : Nat → Nat} {out out' : Nat → Prop}

theorem freeIds_congr (hout : ∀ i, out' i ↔ out i) (h : FreeIds n f out) : FreeIds n f out' := by
  obtain ⟨l, hf, hl⟩ := h
  exact ⟨l, hf, fun i => by rw [hl, hout]⟩

theorem freeIds_alloc (hfit : n ≤ 65536) (hout : ∀ i, ¬ out i) :
    FreeIds n (allocRequestTable n) out := by
  obtain ⟨l, hf, hl⟩ := alloc_chain n hfit
  exact ⟨l, hf, fun i => by simp [hl, hout i]⟩

theorem freeIds_take (h : FreeIds n f out) (hne : f 0 ≠ 0) : (0 < f 0 ∧ f 0 < n ∧ ¬ out (f 0)) ∧
    FreeIds n (update f 0 (f (f 0))) fun i => out i ∨ i = f 0 := by
  obtain ⟨l, hf, hl⟩ := h
  obtain ⟨hfirst, l', hf', hl'⟩ := follows_pop hf rfl hne
  refine ⟨(hl _).mp hfirst, l', ?_, ?_⟩
  · rw [update_self]
    exact hf'
  · intro i
    rw [hl', hl, not_or, and_assoc, and_assoc]

theorem freeIds_put (hfit : n ≤ 65536) (h : FreeIds n f out) (hpos : 0 < id) (hlt : id < n)
    (hid : out id) : FreeIds n (addIdToFreelist f id) fun i => out i ∧ i ≠ id := by
  obtain ⟨l, hf, hl⟩ := h
  have hshort : short id = id := Nat.mod_eq_of_lt (by omega)
  have hnot : id ∉ l := fun hm => ((hl id).mp hm).2.2 hid
  refine ⟨id :: l, ?_, ?_⟩
  · rw [addIdToFreelist, hshort, update_self]
    exact follows_put hf (Nat.pos_iff_ne_zero.mp hpos) hnot
  · intro i
    rw [mem_cons, hl]
    by_cases hi : i = id
    · subst hi
      simp [hpos, hlt]
    · simp [hi]

theorem length_le_of_nodup_of_lt {l : List Nat} (hnodup : l.Nodup) (hl : ∀ i ∈ l, i < n) :
    l.length ≤ n := by
  have hsub : l ⊆ List.range n := fun i hi => List.mem_range.mpr (hl i hi)
  have hlen := (subperm_of_subset hnodup hsub).length_le
  rwa [length_range] at hlen

theorem freeIds_empty {ids : List Nat} (h : FreeIds n f (· ∈ ids)) (h0 : f 0 = 0) :
    n - 1 ≤ ids.length := by
  obtain ⟨l, hf, hl⟩ := h
  have hnil : l = [] := follows_unique hf h0
  have hsub : List.range' 1 (n - 1) ⊆ ids := by
    intro i hi
    rw [mem_range'_1] at hi
    by_contra hout
    have hmem := (hl i).mpr ⟨by omega, by omega, hout⟩
    rw [hnil] at hmem
    cases hmem
  have hlen := (subperm_of_subset nodup_range' hsub).length_le
  rwa [length_range'] at hlen

theorem freeIds_iterate (h : FreeIds n f out) :
    (∃ k, f^[k] (f 0) = id) ↔ id = 0 ∨ (0 < id ∧ id < n ∧ ¬ out id) := by
  obtain ⟨l, hf, hl⟩ := h
  rw [← hl]
  constructor
  · rintro ⟨k, rfl⟩
    exact (follows_iterate_mem hf k).symm
  · intro hid
    exact follows_iterate hf hid.symm

end

theorem inv_initial {n : Nat} (hfit : n ≤ 65536) {s : State} (h : Initial n s) : Inv n s := by
  subst h
  obtain ⟨l, hf, hmem⟩ := alloc_chain n hfit
  refine ⟨⟨l, hf, ?_⟩, ?_, ?_, ?_⟩
  · intro i
    simp [hmem, Unowned, held, Pc.held]
  · intro t u id ht
    cases ht
  · intro t id ht
    cases ht
  · intro t id oldId ht
    cases ht

variable {n t id oldId : Nat} {s : State} {pc : Pc}

theorem held_setPc (s : State) (t : Nat) (pc : Pc) :
    held (setPc s t pc) = update (held s) t pc.held := by
  funext u
  by_cases hu : u = t
  · subst hu
    simp [held, setPc]
  · simp [held, setPc, hu]

theorem inv_move {f : Nat → Nat} (h : Inv n s)
    (hchain : ∃ l, Follows f 0 (f 0) l ∧
      ∀ i, i ∈ l ↔ 0 < i ∧ i < n ∧ Unowned (update (held s) t pc.held) i)
    (hexcl : Exclusive (update (held s) t pc.held)) (hrange : ∀ i, pc.held = some i → i < n)
    (hcell : ∀ u i old, s.thread u = .addCas i old → i ≠ 0 → u ≠ t → f i = old)
    (hself : ∀ i old, pc = .addCas i old → i ≠ 0 → f i = old) :
    Inv n (setPc { s with freelist := f } t pc) := by
  have hheld : held (setPc { s with freelist := f } t pc) = update (held s) t pc.held :=
    held_setPc _ t pc
  constructor
  · rw [hheld]
    exact hchain
  · rw [hheld]
    exact hexcl
  · intro u i hu
    rw [hheld, update_apply] at hu
    split at hu
    · exact hrange i hu
    · exact h.range u i hu
  · intro u i old hu hi
    by_cases hut : u = t
    · subst hut
      simp only [setPc, update_self] at hu
      exact hself i old hu hi
    · simp only [setPc, update_of_ne hut] at hu
      exact hcell u i old hu hi hut

theorem update_held (hheld : pc.held = held s t) : update (held s) t pc.held = held s := by
  rw [hheld]
  exact update_eq_self t (held s)

theorem inv_setPc (h : Inv n s) (hheld : pc.held = held s t)
    (hpc : ∀ i old, pc = .addCas i old → i = 0) :
    Inv n (setPc s t pc) := by
  have hsame := update_held hheld
  refine inv_move h ?_ ?_ (fun i hi => h.range t i (hheld.symm.trans hi))
    (fun u i old hu hi _ => h.cell u i old hu hi) fun i old he hi => absurd (hpc i old he) hi
  · rw [hsame]
    exact h.chain
  · rw [hsame]
    exact h.exclusive

theorem inv_take (h : Inv n s) (ht : held s t = none) (htop : s.freelist 0 = id) (hne : id ≠ 0) :
    Inv n (setPc (store s 0 (s.freelist id)) t (.holding id)) := by
  obtain ⟨l, hf, hmem⟩ := h.chain
  obtain ⟨hid, l', hf', hmem'⟩ := follows_pop hf htop hne
  obtain ⟨_, hidn, hfree⟩ := (hmem id).mp hid
  refine inv_move h ⟨l', ?_, ?_⟩ (exclusive_take h.exclusive hfree) ?_ ?_ (by simp)
  · rw [update_self]
    exact hf'
  · intro i
    rw [hmem', hmem, Pc.held, unowned_take ht, and_assoc, and_assoc]
  · intro i hi
    cases hi
    exact hidn
  · intro u i old hu hi _
    rw [update_of_ne hi]
    exact h.cell u i old hu hi

theorem inv_take_zero (hn : 0 < n) (h : Inv n s) (ht : held s t = none)
    (hfree : Unowned (held s) 0) :
    Inv n (setPc s t (.holding 0)) := by
  obtain ⟨l, hf, hmem⟩ := h.chain
  refine inv_move h ⟨l, hf, ?_⟩ (exclusive_take h.exclusive hfree) ?_
    (fun u i old hu hi _ => h.cell u i old hu hi) (by simp)
  · intro i
    rw [Pc.held, unowned_take ht, hmem]
    constructor
    · rintro ⟨h₁, h₂, h₃⟩
      exact ⟨h₁, h₂, h₃, by omega⟩
    · rintro ⟨h₁, h₂, h₃, _⟩
      exact ⟨h₁, h₂, h₃⟩
  · intro i hi
    cases hi
    exact hn

theorem inv_addStore (h : Inv n s) (ht : s.thread t = .addStore id oldId) (hne : id ≠ 0) :
    Inv n (setPc (store s id oldId) t (.addCas id oldId)) := by
  have hown : held s t = some id := by simp [held, ht, Pc.held]
  have hsame : update (held s) t (Pc.addCas id oldId).held = held s := update_held hown.symm
  obtain ⟨l, hf, hmem⟩ := h.chain
  have hnot : id ∉ l := fun hm => ((hmem id).mp hm).2.2 t hown
  refine inv_move h ⟨l, ?_, ?_⟩ ?_ (fun i hi => h.range t i (hown.trans hi)) ?_ ?_
  · rw [update_of_ne (Ne.symm hne)]
    exact follows_update hf hnot oldId
  · rw [hsame]
    exact hmem
  · rw [hsame]
    exact h.exclusive
  · intro u i old hu hi hut
    have hu' : held s u = some i := by simp [held, hu, Pc.held]
    have hine : i ≠ id := by
      rintro rfl
      exact hut (h.exclusive u t i hu' hown)
    rw [update_of_ne hine]
    exact h.cell u i old hu hi
  · intro i old he _
    cases he
    exact update_self ..

theorem inv_addCas (h : Inv n s) (ht : s.thread t = .addCas id (s.freelist 0)) (hne : id ≠ 0) :
    Inv n (setPc (store s 0 id) t .idle) := by
  have hown : held s t = some id := by simp [held, ht, Pc.held]
  obtain ⟨l, hf, hmem⟩ := h.chain
  have hnot : id ∉ l := fun hm => ((hmem id).mp hm).2.2 t hown
  have hnext := h.cell t id _ ht hne
  have hpush : Follows s.freelist 0 id (id :: l) := ⟨rfl, hne, by rw [hnext]; exact hf⟩
  refine inv_move h ⟨id :: l, ?_, ?_⟩ (exclusive_drop h.exclusive) nofun ?_ (by simp)
  · rw [update_self]
    exact follows_update hpush (stop_not_mem hpush) id
  · intro i
    rw [show Pc.idle.held = none from rfl, unowned_drop h.exclusive hown, mem_cons, hmem]
    constructor
    · rintro (rfl | ⟨h₁, h₂, h₃⟩)
      · exact ⟨Nat.pos_of_ne_zero hne, h.range t i hown, .inr rfl⟩
      · exact ⟨h₁, h₂, .inl h₃⟩
    · rintro ⟨h₁, h₂, h₃ | rfl⟩
      · exact .inr ⟨h₁, h₂, h₃⟩
      · exact .inl rfl
  · intro u i old hu hi _
    rw [update_of_ne hi]
    exact h.cell u i old hu hi

theorem inv_return_zero (h : Inv n s) (hown : held s t = some 0) : Inv n (setPc s t .idle) := by
  obtain ⟨l, hf, hmem⟩ := h.chain
  refine inv_move h ⟨l, hf, ?_⟩ (exclusive_drop h.exclusive) nofun
    (fun u i old hu hi _ => h.cell u i old hu hi) (by simp)
  intro i
  rw [show Pc.idle.held = none from rfl, unowned_drop h.exclusive hown, hmem]
  constructor
  · rintro ⟨h₁, h₂, h₃⟩
    exact ⟨h₁, h₂, .inl h₃⟩
  · rintro ⟨h₁, h₂, h₃ | rfl⟩
    · exact ⟨h₁, h₂, h₃⟩
    · omega

theorem store_self (s : State) (i : Nat) : store s i (s.freelist i) = s := by
  simp [store]

theorem zero_unowned (h : Inv n s) (hempty : s.freelist 0 = 0) (hfewer : Fewer (held s) n) :
    Unowned (held s) 0 := by
  obtain ⟨l, hf, hmem⟩ := h.chain
  have hnil : l = [] := follows_unique hf hempty
  rw [← length_range (n := n)] at hfewer
  obtain ⟨id, hid, hfree⟩ := exists_unowned nodup_range hfewer
  have h0 : id = 0 := by
    by_contra hne
    have hon := (hmem id).mpr ⟨Nat.pos_of_ne_zero hne, List.mem_range.mp hid, hfree⟩
    rw [hnil] at hon
    cases hon
  rwa [h0] at hfree

theorem inv_getCas (hn : 0 < n) (h : Inv n s) (ht : held s t = none) (htop : s.freelist 0 = oldId)
    (hzero : oldId = 0 → Fewer (held s) n) :
    Inv n (setPc (store s 0 (s.freelist oldId)) t (.holding oldId)) := by
  by_cases h0 : oldId = 0
  · subst h0
    rw [store_self]
    exact inv_take_zero hn h ht (zero_unowned h htop (hzero rfl))
  · exact inv_take h ht htop h0

theorem inv_step {u : State} (hn : 0 < n) (hfit : n ≤ 65536) (h : Inv n s) (hok : safeStep n s t)
    (hs : step s t = some u) : Inv n u := by
  unfold safeStep at hok
  unfold step at hs
  cases hpc : s.thread t with
  | idle | getRead | getNext oldId | holding id | addRead id =>
    rw [hpc] at hs
    cases hs
    exact inv_setPc h (by rw [held, hpc]; rfl) (by simp)
  | getCas oldId newId =>
    rw [hpc] at hs hok
    simp only at hs hok
    have hnone : held s t = none := by simp [held, hpc, Pc.held]
    split at hs
    · rename_i htop
      cases hs
      obtain ⟨hnew, hzero⟩ := hok htop
      rw [← hnew]
      exact inv_getCas hn h hnone htop hzero
    · cases hs
      exact inv_setPc h (by rw [held, hpc]; rfl) (by simp)
  | addStore id oldId =>
    rw [hpc] at hs hok
    simp only at hs hok
    cases hs
    by_cases h0 : id = 0
    · subst h0
      rw [← hok rfl, store_self]
      exact inv_setPc h (by rw [held, hpc]; rfl) (by simp)
    · exact inv_addStore h hpc h0
  | addCas id oldId =>
    rw [hpc] at hs hok
    simp only at hs hok
    have hown : held s t = some id := by simp [held, hpc, Pc.held]
    split at hs
    · rename_i htop
      cases hs
      have hid : id < n := h.range t id hown
      rw [show short id = id from Nat.mod_eq_of_lt (by omega)]
      by_cases h0 : id = 0
      · subst h0
        have hst : store s 0 0 = s := by
          have hself := store_self s 0
          rwa [htop, hok rfl htop] at hself
        rw [hst]
        exact inv_return_zero h hown
      · subst htop
        exact inv_addCas h hpc h0
    · cases hs
      exact inv_setPc h (by rw [held, hpc]; rfl) (by simp)

/-- In every run whose steps are all safe, ids are held by one operation each and none is lost. -/
theorem ids_exclusive (n : Nat) (hn : 2 ≤ n) (hfit : n ≤ 65536) (s : State)
    (h : Reach step (safeStep n) (Initial n) s) : IdsExclusive n s := by
  refine idsExclusive_of_inv (h.invariant (fun s hs => inv_initial hfit hs) ?_)
  intro s t u hi hok hs
  exact inv_step (by omega) hfit hi hok hs

theorem ids_exclusive_two_gets : ∃ s, Reach step (safeStep 2) (Initial 2) s ∧
    (held s 0 = some 1 ∧ held s 1 = some 0) ∧ IdsExclusive 2 s := by
  have h₀ : Reach step (safeStep 2) (Initial 2) ⟨allocRequestTable 2, fun _ => .idle⟩ := .start rfl
  have h₁ := Reach.next 0 h₀ trivial rfl
  have h₂ := Reach.next 0 h₁ trivial rfl
  have h₃ := Reach.next 0 h₂ trivial rfl
  have h₄ := Reach.next 0 h₃ (fun _ => ⟨rfl, fun h => absurd h (by decide)⟩) rfl
  have h₅ := Reach.next 1 h₄ trivial rfl
  have h₆ := Reach.next 1 h₅ trivial rfl
  have h₇ := Reach.next 1 h₆ trivial rfl
  -- the list is empty and thread 0 is the only holder
  have hfewer : ∀ s, (∀ t ≠ 0, held s t = none) → Fewer (held s) 2 := by
    intro s hs
    refine ⟨[0], by decide, fun t ht => ?_⟩
    by_contra hne
    exact ht (hs t fun he => hne (by simp [he]))
  have h₈ := Reach.next 1 h₇ (fun _ => ⟨rfl, fun _ => hfewer _ ?_⟩) rfl
  · exact ⟨_, h₈, ⟨rfl, rfl⟩, ids_exclusive 2 (by decide) (by decide) _ h₈⟩
  · intro t ht
    by_cases h1 : t = 1 <;> simp [held, setPc, store, update_of_ne, ht, h1, Pc.held]

/-- Three threads and two ids: the list never runs empty of id 0, so the second and the third
thread both get it. -/
theorem ids_not_exclusive :
    ¬ ∀ n, 2 ≤ n → ∀ s, Reach step anyStep (Initial n) s → IdsExclusive n s := by
  intro hall
  have h₀ : Reach step anyStep (Initial 2) ⟨allocRequestTable 2, fun _ => .idle⟩ := .start rfl
  obtain ⟨s, hreach, h₁, h₂⟩ := h₀.runTo (P := fun s => held s 1 = some 0 ∧ held s 2 = some 0)
    [0, 0, 0, 0, 1, 1, 1, 1, 2, 2, 2, 2] (by decide)
  have hex := (hall 2 (le_refl 2) s hreach).exclusive 1 2 0
  exact absurd (hex h₁ h₂) (by decide)

end Guk.FsFreelist
