import Guk.Ring
import Guk.Runs
import Guk.Sched

/-!
# Xenstore watches (`xenbus.c`)

`xenbus_watch_path` registers a watch, `xenbus_thread_func` stores the path of
every event for its token in a circular buffer of `MAX_PATHS` slots, and
`xenbus_read_watch` takes the paths out again, waiting where there is none. Each
stretch of code under `watch_list_lock` is one step.

A watch keeps its address and is never removed here; what `xenbus_watch_path`
sends to xenstored, and its answer, are not part of this model.
-/
namespace Guk.XenbusWatch

open Guk.Ring Runs Sched Function List

abbrev Text := List UInt8

def cString (bytes : List UInt8) : Text := bytes.takeWhile (· ≠ 0)

def eventPath (payload : List UInt8) : Text := cString payload

def eventToken (payload : List UInt8) : Text :=
  cString (payload.drop ((eventPath payload).length + 1))

def maxPaths : Nat := 10

def intMax : Int := 2 ^ 31 - 1

def wrapInt (i : Int) : Int := Int.bmod i (2 ^ 32)

def slot (idx : Int) : Int := Int.tmod idx maxPaths

structure Watch where
  token : Text
  path : Text
  pathProdIdx : Int
  pathConsIdx : Int
  paths : Int → Text
  thread : Option Tid

inductive Pc where
  | idle
  /-- blocked in `xenbus_read_watch`, which keeps the pointer to the watch -/
  | reading (watch : Nat)
  deriving DecidableEq, Repr

structure State extends Ready where
  watchList : List Nat
  watch : Nat → Watch
  pc : Nat → Pc
  arrived : Nat → List Text
  returned : Nat → List Text

inductive Label where
  /-- with the address and the old content of the memory that `xmalloc` finds -/
  | watchPath (path token : Text) (addr : Nat) (paths : Int → Text)
  | event (payload : List UInt8)
  | readWatch (t : Nat) (token : Text)
  | again (t : Nat)
  | wake (t : Tid)

def findWatch (s : State) (token : Text) : Option Nat :=
  s.watchList.find? fun a => (s.watch a).token = token

def setWatch (s : State) (a : Nat) (w : Watch) : State :=
  { s with watch := update s.watch a w }

def watchPath (s : State) (path token : Text) (addr : Nat) (paths : Int → Text) : Option State :=
  if (findWatch s token).isSome then none
  else if addr ∈ s.watchList then none
  else some { s with
    watch := update s.watch addr ⟨token, path, 0, 0, paths, none⟩
    watchList := addr :: s.watchList
    arrived := update s.arrived addr []
    returned := update s.returned addr [] }

def storePath (s : State) (a : Nat) (path : Text) : State :=
  let w := s.watch a
  { setWatch s a { w with
      paths := update w.paths (slot w.pathProdIdx) path
      pathProdIdx := wrapInt (w.pathProdIdx + 1) } with
    arrived := update s.arrived a (s.arrived a ++ [path]) }

def watchEvent (s : State) (payload : List UInt8) : Option State :=
  match findWatch s (eventToken payload) with
  | none => some s -- "Spurious watch event for token"
  | some a =>
    -- BUG_ON(watch->path_prod_idx - watch->path_cons_idx > MAX_PATHS)
    if wrapInt ((s.watch a).pathProdIdx - (s.watch a).pathConsIdx) > maxPaths then none
    else
      let s' := storePath s a (eventPath payload)
      match (s.watch a).thread with
      | none => some s'
      | some t => (s'.gukWake t).map fun r => { s' with toReady := r }

def takePath (s : State) (t a : Nat) : State :=
  let w := s.watch a
  { setWatch s a { w with pathConsIdx := wrapInt (w.pathConsIdx + 1), thread := none } with
    returned := update s.returned a (s.returned a ++ [w.paths (slot w.pathConsIdx)])
    pc := update s.pc t .idle }

def readAgain (s : State) (t a : Nat) : State :=
  if (s.watch a).pathConsIdx < (s.watch a).pathProdIdx then takePath s t a
  else
    { setWatch s a { s.watch a with thread := some (.task t) } with
      toReady := s.block (.task t)
      pc := update s.pc t (.reading a) }

def step (s : State) : Label → Option State
  | .watchPath path token addr paths => watchPath s path token addr paths
  | .event payload => watchEvent s payload
  | .readWatch t token =>
    if s.pc t = .idle then (findWatch s token).map (readAgain s t) else none
  | .again t =>
    match s.pc t with
    | .idle => none
    | .reading a => if (s.thread (.task t)).runnable then some (readAgain s t a) else none
  | .wake t => (s.gukWake t).map fun r => { s with toReady := r }

structure Initial (s : State) : Prop where
  watchList : s.watchList = []
  pc : ∀ t, s.pc t = .idle

def DeliveredInOrder (s : State) : Prop := ∀ a ∈ s.watchList, s.returned a <+: s.arrived a

def keptUpStep (s : State) : Label → Prop
  | .event payload => ∀ a ∈ findWatch s (eventToken payload),
    (s.watch a).pathProdIdx - (s.watch a).pathConsIdx < maxPaths ∧ (s.watch a).pathProdIdx < intMax
  | _ => True

/-! ## The queue of one watch -/

structure Queue (w : Watch) (arrived returned unread : List Text) : Prop where
  history : arrived = returned ++ unread
  bound : unread.length ≤ maxPaths
  small : (arrived.length : Int) ≤ intMax
  prod : w.pathProdIdx = arrived.length
  cons : w.pathConsIdx = returned.length
  slots : Segment (fun i => w.paths i) maxPaths returned.length unread

theorem slot_natCast (n : Nat) : slot n = (n % maxPaths : Nat) := by
  rw [slot, ← Int.ofNat_tmod]

theorem wrapInt_of_small {i : Int} (h₀ : 0 ≤ i) (h : i ≤ intMax) : wrapInt i = i := by
  unfold intMax at h
  exact Int.bmod_eq_of_le (by omega) (by omega)

variable {w : Watch} {arrived returned unread : List Text} {path token : Text} {u : State}
  {paths : Int → Text}

theorem queue_nil :
    Queue ⟨token, path, 0, 0, paths, none⟩ [] [] [] :=
  ⟨rfl, by decide, by decide, rfl, rfl, trivial⟩

section

variable (h : Queue w arrived returned unread)

include h

theorem queue_setThread {t : Option Tid} : Queue { w with thread := t } arrived returned unread :=
  { h with }

theorem queue_push
    (hroom : w.pathProdIdx - w.pathConsIdx < maxPaths) (hsmall : w.pathProdIdx < intMax) :
    Queue { w with
        paths := update w.paths (slot w.pathProdIdx) path
        pathProdIdx := wrapInt (w.pathProdIdx + 1) }
      (arrived ++ [path]) returned (unread ++ [path]) := by
  have hlen : arrived.length = returned.length + unread.length := by
    rw [h.history, length_append]
  have hslot : slot w.pathProdIdx = ((returned.length + unread.length) % maxPaths : Nat) := by
    rw [h.prod, slot_natCast, hlen]
  rw [h.prod, h.cons, hlen] at hroom
  rw [h.prod] at hsmall
  constructor
  · rw [h.history, append_assoc]
  · rw [length_append, length_singleton]
    omega
  · rw [length_append, length_singleton]
    omega
  · change wrapInt (w.pathProdIdx + 1) = _
    rw [wrapInt_of_small (by rw [h.prod]; omega) (by rw [h.prod]; omega), h.prod,
      length_append, length_singleton, Int.natCast_add, Int.natCast_one]
  · exact h.cons
  · -- the slot behind the unread paths is not one of theirs
    apply segment_push
    · apply segment_congr h.slots
      intro i hi hi'
      have hne : i % maxPaths ≠ (returned.length + unread.length) % maxPaths :=
        slot_ne returned.length hi (by omega) (Nat.le_add_right _ _) (by omega) (ne_of_lt hi')
      simp only [hslot]
      rw [update_of_ne (Int.ofNat_inj.not.mpr hne)]
    · simp only [hslot]
      rw [update_self]

theorem queue_pop (hlt : w.pathConsIdx < w.pathProdIdx) :
    ∃ unread', Queue { w with pathConsIdx := wrapInt (w.pathConsIdx + 1), thread := none }
      arrived (returned ++ [w.paths (slot w.pathConsIdx)]) unread' := by
  cases unread with
  | nil =>
    rw [h.prod, h.cons, h.history, append_nil] at hlt
    exact absurd hlt (Int.lt_irrefl _)
  | cons p unread =>
    have hp : w.paths (slot w.pathConsIdx) = p := by
      rw [h.cons, slot_natCast]
      exact h.slots.1
    have hsmall := h.small
    have hlen : arrived.length = returned.length + (unread.length + 1) := by
      rw [h.history, length_append, length_cons]
    rw [hp]
    refine ⟨unread, ?_, ?_, h.small, h.prod, ?_, ?_⟩
    · rw [h.history, append_assoc, singleton_append]
    · exact le_trans (Nat.le_succ _) h.bound
    · change wrapInt (w.pathConsIdx + 1) = _
      rw [wrapInt_of_small (by rw [h.cons]; omega) (by rw [h.cons]; omega), h.cons,
        length_append, length_singleton, Int.natCast_add, Int.natCast_one]
    · rw [length_append, length_singleton]
      exact h.slots.2

end

/-! ## Runs -/

def Inv (s : State) : Prop :=
  ∀ a ∈ s.watchList, ∃ unread, Queue (s.watch a) (s.arrived a) (s.returned a) unread

variable {s : State} {t a : Nat}

theorem inv_initial (h : Initial s) : Inv s := by
  intro a ha
  rw [h.watchList] at ha
  cases ha

theorem deliveredInOrder_of_inv (h : Inv s) : DeliveredInOrder s := by
  intro a ha
  obtain ⟨unread, hq⟩ := h a ha
  exact ⟨unread, hq.history.symm⟩

theorem mem_of_findWatch (h : findWatch s token = some a) : a ∈ s.watchList :=
  List.mem_of_find?_eq_some h

theorem inv_watchPath {path : Text} {addr : Nat} (h : Inv s)
    (hs : watchPath s path token addr paths = some u) : Inv u := by
  unfold watchPath at hs
  split at hs
  · cases hs
  · split at hs <;> cases hs
    intro b hb
    by_cases hba : b = addr
    · subst hba
      simp only [update_self]
      exact ⟨[], queue_nil⟩
    · simp only [update_of_ne hba]
      exact h b (mem_of_ne_of_mem hba hb)

theorem inv_storePath (h : Inv s) (ha : a ∈ s.watchList)
    (hroom : (s.watch a).pathProdIdx - (s.watch a).pathConsIdx < maxPaths)
    (hsmall : (s.watch a).pathProdIdx < intMax) : Inv (storePath s a path) := by
  intro b hb
  by_cases hba : b = a
  · subst hba
    obtain ⟨unread, hq⟩ := h b ha
    simp only [storePath, setWatch, update_self]
    exact ⟨unread ++ [path], queue_push hq hroom hsmall⟩
  · simp only [storePath, setWatch, update_of_ne hba]
    exact h b hb

theorem inv_watchEvent {payload : List UInt8} (h : Inv s)
    (hok : keptUpStep s (.event payload)) (hs : watchEvent s payload = some u) : Inv u := by
  unfold watchEvent at hs
  cases hf : findWatch s (eventToken payload) with
  | none =>
    rw [hf] at hs
    cases hs
    exact h
  | some a =>
    obtain ⟨hroom, hsmall⟩ := hok a hf
    have hstored : Inv (storePath s a (eventPath payload)) :=
      inv_storePath h (mem_of_findWatch hf) hroom hsmall
    rw [hf] at hs
    simp only at hs
    split at hs
    · cases hs
    · split at hs
      · cases hs
        exact hstored
      · obtain ⟨r, -, hs⟩ := Option.map_eq_some_iff.mp hs
        subst hs
        exact hstored

theorem inv_readAgain (h : Inv s) : Inv (readAgain s t a) := by
  unfold readAgain
  split
  · rename_i hlt
    intro b hb
    by_cases hba : b = a
    · subst hba
      obtain ⟨unread, hq⟩ := h b hb
      simp only [takePath, setWatch, update_self]
      exact queue_pop hq hlt
    · simp only [takePath, setWatch, update_of_ne hba]
      exact h b hb
  · intro b hb
    obtain ⟨unread, hq⟩ := h b hb
    refine ⟨unread, ?_⟩
    by_cases hba : b = a
    · subst hba
      simp only [setWatch, update_self]
      exact queue_setThread hq
    · simp only [setWatch, update_of_ne hba]
      exact hq

theorem inv_step {l : Label} (h : Inv s) (hok : keptUpStep s l) (hs : step s l = some u) :
    Inv u := by
  cases l with
  | watchPath path token addr paths => exact inv_watchPath h hs
  | event payload => exact inv_watchEvent h hok hs
  | readWatch t token =>
    obtain ⟨-, hs⟩ := Option.ite_none_right_eq_some.mp hs
    obtain ⟨a, -, hs⟩ := Option.map_eq_some_iff.mp hs
    subst hs
    exact inv_readAgain h
  | again t =>
    cases hpc : s.pc t with
    | idle =>
      simp only [step, hpc] at hs
      cases hs
    | reading a =>
      simp only [step, hpc] at hs
      obtain ⟨-, rfl⟩ := of_when hs
      exact inv_readAgain h
  | wake t =>
    obtain ⟨r, -, hs⟩ := Option.map_eq_some_iff.mp hs
    subst hs
    exact h

/-- The readers get the events in order, none lost and none twice, in the runs in which no event
finds `MAX_PATHS` paths unread. -/
theorem delivered_in_order (s : State) (h : Reach step keptUpStep Initial s) :
    DeliveredInOrder s := by
  apply deliveredInOrder_of_inv
  apply h.invariant (fun _ => inv_initial)
  intro s l u hi hok hs
  exact inv_step hi hok hs

def noWatches : State where
  thread _ := ⟨true, true, false, false, false, false, false, true, false, 0⟩
  readyQueue := [.task 0]
  upcallsActive := false
  watchList := []
  watch _ := ⟨[], [], 0, 0, fun _ => [], none⟩
  pc _ := .idle
  arrived _ := []
  returned _ := []

theorem noWatches_initial : Initial noWatches := ⟨rfl, fun _ => rfl⟩

def eventFor (path : UInt8) : Label := .event [path, 0, 116, 0]

theorem delivered_to_waiting_reader :
    ∃ s, s.watchList = [7] ∧ s.returned 7 = [[97]] ∧ DeliveredInOrder s := by
  have h₀ : Reach step keptUpStep Initial noWatches := .start noWatches_initial
  have h₁ := Reach.next (Label.watchPath [47] [116] 7 fun _ => []) h₀ trivial rfl
  have h₂ := Reach.next (Label.readWatch 0 [116]) h₁ trivial rfl
  have h₃ := Reach.next (eventFor 97) h₂ (by rintro a ⟨⟩; decide) rfl
  have h₄ := Reach.next (Label.again 0) h₃ trivial rfl
  exact ⟨_, rfl, rfl, delivered_in_order _ h₄⟩

/-- The eleventh of eleven unread events takes the slot of the first one: `BUG_ON` lets it pass, and
the next read returns the eleventh path. -/
theorem event_lost : ¬ ∀ s, Reach step anyStep Initial s → DeliveredInOrder s := by
  intro hall
  have h₀ : Reach step anyStep Initial noWatches := .start noWatches_initial
  obtain ⟨s, hs, hlist, hreturned, harrived⟩ := h₀.runTo
    (P := fun s => s.watchList = [7] ∧ s.returned 7 = [[107]] ∧ (s.arrived 7).head? = some [97])
    (.watchPath [47] [116] 7 (fun _ => []) ::
      ([97, 98, 99, 100, 101, 102, 103, 104, 105, 106, 107].map eventFor ++ [.readWatch 0 [116]]))
    (by decide +kernel)
  obtain ⟨rest, hpre⟩ := hall s hs 7 (by rw [hlist]; exact mem_singleton_self 7)
  rw [← hpre, hreturned] at harrived
  simp at harrived

end Guk.XenbusWatch
