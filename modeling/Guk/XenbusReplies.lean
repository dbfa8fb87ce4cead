import Guk.BlockHeap
import Guk.CString
import Guk.Decimal

/-!
# Who frees the reply (`xenbus.c`)

The xenbus thread allocates a block for every reply and hands it to the thread
that waits for it. `errmsg` frees the reply of a failed request and leaves the
reply of a successful one to its caller. Each function of the interface is
modelled with the blocks it allocates, reads and frees.
-/
namespace Guk.XenbusReplies

open BlockHeap CString List Option

inductive MsgType where
  | directory | read | getPerms | watch | unwatch | transactionStart | transactionEnd | write | rm
  | setPerms | error
  deriving DecidableEq, Repr

inductive Answer where
  | success (payload : List UInt8)
  | error (payload : List UInt8)
  deriving DecidableEq, Repr

inductive Block where
  /-- a `struct xsd_sockmsg` with what follows it -/
  | reply (type : MsgType) (payload : List UInt8)
  | bytes (l : List UInt8)
  /-- a NULL terminated array -/
  | pointers (ps : List Nat)
  | watch
  deriving DecidableEq, Repr

def Block.type : Block → Option MsgType
  | .reply type _ => some type
  | _ => none

def Block.payload : Block → List UInt8
  | .reply _ payload => payload
  | .bytes l => l
  | _ => []

def Block.pointed : Block → List Nat
  | .pointers ps => ps
  | _ => []

def Answer.block (type : MsgType) : Answer → Block
  | .success payload => .reply type payload
  | .error payload => .reply .error payload

structure Watch where
  block : Nat
  path : List UInt8
  token : List UInt8
  deriving DecidableEq, Repr

@[ext]
structure State where
  heap : Heap Block
  watchList : List Watch
  replies : List Nat
  watchAllocated : ∀ w ∈ watchList, w.block < heap.next

abbrev M := StateT State Option

def allocated (s : State) (b : Block) : State where
  heap := s.heap.malloc b
  watchList := s.watchList
  replies := s.replies
  watchAllocated := fun w hw => Nat.lt_succ_of_lt (s.watchAllocated w hw)

def released (s : State) (p : Nat) : State := { s with heap := s.heap.free p }

def malloc (b : Block) : M Nat := fun s => some (s.heap.next, allocated s b)

def free (p : Nat) : M Unit := fun s => some ((), released s p)

def load (p : Nat) : M Block := fun s => some (s.heap.content p, { s with heap := s.heap.access p })

def store (p : Nat) (b : Block) : M Unit := fun s => some ((), { s with heap := s.heap.store p b })

def bugOn (condition : Bool) : M Unit := fun s => if condition then none else some ((), s)

/-! ## The interface -/

def xenbusMsgReply (type : MsgType) (a : Answer) : M Nat := do
  let rep ← malloc (a.block type)
  modify fun s => { s with replies := rep :: s.replies }
  return rep

def errmsg : Option Nat → M (Option Nat)
  | none => do
    let res ← malloc (.bytes (text "no reply" ++ [0]))
    return some res
  | some rep => do
    let m ← load rep
    if m.type ≠ some .error then
      return none
    else
      let m ← load rep
      let res ← malloc (.bytes (m.payload ++ [0]))
      free rep
      return some res

def copyStrings (repmsg : Nat) : (n x : Nat) → M (List Nat)
  | 0, _ => return []
  | n + 1, x => do
    let m ← load repmsg
    let s := cString (m.payload.drop x)
    let p ← malloc (.bytes (s ++ [0]))
    let rest ← copyStrings repmsg n (x + s.length + 1)
    return p :: rest

def withReply {α : Type} (type : MsgType) (a : Answer) (fail done : Nat → M α) : M α := do
  let rep ← xenbusMsgReply type a
  match ← errmsg (some rep) with
  | some msg => fail msg
  | none => done rep

def xenbusLs (a : Answer) : M (Option Nat × Option Nat) :=
  withReply .directory a (fun msg => return (some msg, none)) fun repmsg => do
    let m ← load repmsg
    let nrElems := m.payload.count 0
    let res ← malloc (.pointers [])
    let ps ← copyStrings repmsg nrElems 0
    store res (.pointers ps)
    free repmsg
    return (none, some res)

def readValue (type : MsgType) (a : Answer) : M (Option Nat × Option Nat) :=
  withReply type a (fun msg => return (some msg, none)) fun rep => do
    let m ← load rep
    let res ← malloc (.bytes (m.payload ++ [0]))
    free rep
    return (none, some res)

def gukXenbusRead : Answer → M (Option Nat × Option Nat) := readValue .read

def xenbusGetPerms : Answer → M (Option Nat × Option Nat) := readValue .getPerms

def request (type : MsgType) (a : Answer) : M (Option Nat) :=
  withReply type a (fun msg => return some msg) fun rep => do
    free rep
    return none

def xenbusWrite : Answer → M (Option Nat) := request .write

def xenbusRm : Answer → M (Option Nat) := request .rm

def xenbusSetPerms : Answer → M (Option Nat) := request .setPerms

def xenbusTransactionStart (a : Answer) : M (Option Nat × Option Nat) :=
  withReply .transactionStart a (fun err => return (some err, none)) fun rep => do
    let m ← load rep
    free rep
    return (none, (Decimal.scanUnsigned (cString m.payload)).map (·.1))

def xenbusTransactionEnd (a : Answer) : M (Option Nat × Bool) :=
  withReply .transactionEnd a
    (fun err => do
      let m ← load err
      if cString m.payload = text "EAGAIN" then
        free err
        return (none, true)
      else
        return (some err, false))
    fun rep => do
      free rep
      return (none, false)

def findWatch (s : State) (token : List UInt8) : Option Watch :=
  s.watchList.find? fun w => w.token = token

def delisted (s : State) (w : Watch) : State :=
  { s with
    watchList := s.watchList.erase w
    watchAllocated := fun v hv => s.watchAllocated v (mem_of_mem_erase hv) }

def listDel (w : Watch) : M Unit := fun s => some ((), delisted s w)

def watching (s : State) (path token : List UInt8) : State where
  heap := s.heap.malloc .watch
  watchList := ⟨s.heap.next, path, token⟩ :: s.watchList
  replies := s.replies
  watchAllocated := by
    intro w hw
    rcases List.mem_cons.mp hw with rfl | hw
    · exact Nat.lt_succ_self _
    · exact Nat.lt_succ_of_lt (s.watchAllocated w hw)

def addWatch (path token : List UInt8) : M Unit := fun s => some ((), watching s path token)

def xenbusWatchPath (path token : List UInt8) (a : Answer) : M (Option Nat) := do
  bugOn (findWatch (← get) token).isSome
  addWatch path token
  let rep ← xenbusMsgReply .watch a
  match ← errmsg (some rep) with
  | some msg =>
    free rep
    match findWatch (← get) token with
    | none => failure
    | some watch =>
      listDel watch
      free watch.block
      return some msg
  | none => return none

def xenbusRmWatch (token : List UInt8) (a : Answer) : M Unit := do
  match findWatch (← get) token with
  | some watch =>
    let _rep ← xenbusMsgReply .unwatch a
    listDel watch
    free watch.block
  | none => return ()

inductive Call where
  | ls | read | write | rm | transactionStart | transactionEnd | getPerms | setPerms
  | watchPath (path token : List UInt8)
  | rmWatch (token : List UInt8)
  deriving DecidableEq, Repr

structure Result where
  msg : Option Nat
  out : Option Nat
  deriving DecidableEq, Repr

def Call.run (a : Answer) : Call → M Result
  | .ls => do
    let (msg, contents) ← xenbusLs a
    return ⟨msg, contents⟩
  | .read => do
    let (msg, value) ← gukXenbusRead a
    return ⟨msg, value⟩
  | .getPerms => do
    let (msg, value) ← xenbusGetPerms a
    return ⟨msg, value⟩
  | .write => do return ⟨← xenbusWrite a, none⟩
  | .rm => do return ⟨← xenbusRm a, none⟩
  | .setPerms => do return ⟨← xenbusSetPerms a, none⟩
  | .transactionStart => do
    let (msg, _) ← xenbusTransactionStart a
    return ⟨msg, none⟩
  | .transactionEnd => do
    let (msg, _) ← xenbusTransactionEnd a
    return ⟨msg, none⟩
  | .watchPath path token => do return ⟨← xenbusWatchPath path token a, none⟩
  | .rmWatch token => do
    xenbusRmWatch token a
    return ⟨none, none⟩

def Result.handed (s : State) (r : Result) : List Nat :=
  r.msg.toList ++ r.out.toList ++ (r.out.toList.flatMap fun p => (s.heap.content p).pointed)

structure FreedOnce (s : State) (r : Result) (s' : State) : Prop where
  once : ∃ came, s'.replies = came ++ s.replies ∧
    ∀ rep ∈ came, s'.heap.freed.count rep = s.heap.freed.count rep + 1
  unread : s'.heap.stale = s.heap.stale
  leftOver : ∀ p, s'.heap.live p = true →
    s.heap.live p = true ∨ p ∈ r.handed s' ∨ ∃ w ∈ s'.watchList, w.block = p

def Refused (s : State) : Call → Prop
  | .watchPath _ token => (findWatch s token).isSome = true
  | _ => False

def Clean (s : State) (c : Call) (a : Answer) : Prop :=
  Refused s c ∨ ∃ r s', c.run a s = some (r, s') ∧ FreedOnce s r s'

def MishandlesReply (s : State) : Call → Prop
  | .watchPath _ token => findWatch s token = none
  | .rmWatch token => (findWatch s token).isSome = true
  | _ => False

/-! ## What each function does to the heap -/

variable {α γ : Type} {s s' : State} {h₀ : Heap Block} {owned freed : List Nat} {rep p : Nat}
  {payload token : List UInt8} {r : Result} {type : MsgType} {w : Watch}

@[simp] theorem bind_apply (x : M α) (f : α → M γ) (s : State) :
    (x >>= f) s = (x s).bind fun r => f r.1 r.2 := rfl

@[simp] theorem pure_apply (x : α) (s : State) : (pure x : M α) s = some (x, s) := rfl

def replied (s : State) (b : Block) : State :=
  { allocated s b with replies := s.heap.next :: s.replies }

@[simp] theorem malloc_apply (b : Block) (s : State) :
    malloc b s = some (s.heap.next, allocated s b) := rfl

@[simp] theorem free_apply (p : Nat) (s : State) : free p s = some ((), released s p) := rfl

theorem xenbusMsgReply_apply (type : MsgType) (a : Answer) (s : State) :
    xenbusMsgReply type a s = some (s.heap.next, replied s (a.block type)) := rfl

theorem load_apply (hs : Since h₀ owned freed s.heap) (hp : p ∈ owned) :
    load p s = some (s.heap.content p, s) := by
  have hsame : { s with heap := s.heap.access p } = s := State.ext (hs.access hp) rfl rfl
  rw [load, hsame]

theorem since_replied (s : State) (b : Block) :
    Since s.heap [s.heap.next] [] (replied s b).heap := (Since.start s.heap).malloc b

theorem errmsg_success (hs : Since h₀ owned freed s.heap) (hrep : rep ∈ owned)
    (htype : (s.heap.content rep).type ≠ some .error) : errmsg (some rep) s = some (none, s) := by
  simp only [errmsg, bind_apply, load_apply hs hrep, bind_some, if_pos htype, pure_apply]

theorem errmsg_error (hs : Since h₀ (rep :: owned) freed s.heap)
    (hc : s.heap.content rep = .reply .error payload) :
    errmsg (some rep) s =
        some (some s.heap.next, released (allocated s (.bytes (payload ++ [0]))) rep) ∧
      Since h₀ (s.heap.next :: owned) (rep :: freed)
        (released (allocated s (.bytes (payload ++ [0]))) rep).heap := by
  have htype : ¬ (s.heap.content rep).type ≠ some .error := by
    rw [hc]
    exact not_not_intro rfl
  constructor
  · simp only [errmsg, bind_apply, load_apply hs mem_cons_self, bind_some, if_neg htype,
      malloc_apply, free_apply, pure_apply]
    rw [hc]
    rfl
  · exact ((hs.malloc (.bytes (payload ++ [0]))).perm (.swap ..)).free

theorem freedOnce_of_since (hs : Since s.heap owned freed s'.heap)
    (hreplies : s'.replies = rep :: s.replies) (hcount : freed.count rep = 1)
    (hhanded : ∀ p ∈ owned, p ∈ r.handed s') : FreedOnce s r s' := by
  refine ⟨⟨[rep], hreplies, ?_⟩, hs.stale, ?_⟩
  · intro rep' hrep'
    rw [List.mem_singleton.mp hrep', hs.freed, count_append, hcount, Nat.add_comm]
  · intro p hp
    rcases (hs.live p).mp hp with hold | hnew
    · exact .inl hold
    · exact .inr (.inl (hhanded p hnew))

theorem reply_success (type : MsgType) (htype : type ≠ .error) (s : State) (payload : List UInt8) :
    errmsg (some s.heap.next) (replied s (.reply type payload)) =
      some (none, replied s (.reply type payload)) := by
  apply errmsg_success (since_replied s _) mem_cons_self
  simp [replied, allocated, Block.type, htype]

def failed (s : State) (payload : List UInt8) : State :=
  released (allocated (replied s (.reply .error payload)) (.bytes (payload ++ [0]))) s.heap.next

theorem reply_error (s : State) (payload : List UInt8) :
    errmsg (some s.heap.next) (replied s (.reply .error payload)) =
        some (some (s.heap.next + 1), failed s payload) ∧
      Since s.heap [s.heap.next + 1] [s.heap.next] (failed s payload).heap := by
  exact errmsg_error (since_replied s (.reply .error payload)) (Heap.content_malloc_next ..)

theorem withReply_spec (htype : type ≠ .error) (a : Answer) {fail done : Nat → M α}
    {Q : α → State → Prop}
    (hdone : ∀ payload, Since s.heap [s.heap.next] [] (replied s (.reply type payload)).heap →
      ∃ x s', done s.heap.next (replied s (.reply type payload)) = some (x, s') ∧ Q x s')
    (hfail : ∀ payload, Since s.heap [s.heap.next + 1] [s.heap.next] (failed s payload).heap →
      ∃ x s', fail (s.heap.next + 1) (failed s payload) = some (x, s') ∧ Q x s') :
    ∃ x s', withReply type a fail done s = some (x, s') ∧ Q x s' := by
  cases a with
  | success payload =>
    simp only [withReply, bind_apply, xenbusMsgReply_apply, Answer.block, bind_some,
      reply_success type htype]
    exact hdone payload (since_replied s _)
  | error payload =>
    obtain ⟨herr, hs⟩ := reply_error s payload
    simp only [withReply, bind_apply, xenbusMsgReply_apply, Answer.block, bind_some, herr]
    exact hfail payload hs

theorem freedOnce_failed (hs : Since s.heap [s.heap.next + 1] [s.heap.next] (failed s payload).heap)
    :
    FreedOnce s ⟨some (s.heap.next + 1), none⟩ (failed s payload) :=
  freedOnce_of_since hs rfl (by simp) (by simp [Result.handed])

theorem freedOnce_request (htype : type ≠ .error) (a : Answer) (s : State) :
    ∃ msg s', request type a s = some (msg, s') ∧ FreedOnce s ⟨msg, none⟩ s' :=
  withReply_spec htype a
    (fun _ hs => ⟨_, _, rfl, freedOnce_of_since hs.free rfl (by simp) (by simp)⟩)
    fun _ hs => ⟨_, _, rfl, freedOnce_failed hs⟩

theorem freedOnce_readValue (htype : type ≠ .error) (a : Answer) (s : State) :
    ∃ x s', readValue type a s = some (x, s') ∧ FreedOnce s ⟨x.1, x.2⟩ s' := by
  refine withReply_spec htype a (fun payload hs => ?_) fun _ hs => ⟨_, _, rfl, freedOnce_failed hs⟩
  simp only [bind_apply, load_apply hs mem_cons_self, bind_some, malloc_apply, free_apply,
    pure_apply]
  have hs' := ((hs.malloc (.bytes (payload ++ [0]))).perm (.swap ..)).free
  rw [show ((replied s (.reply type payload)).heap.content s.heap.next).payload = payload by
    exact congrArg Block.payload (Heap.content_malloc_next ..)]
  exact ⟨_, _, rfl, freedOnce_of_since hs' rfl (by simp) (by simp [Result.handed])⟩

theorem freedOnce_transactionStart (a : Answer) (s : State) :
    ∃ x s', xenbusTransactionStart a s = some (x, s') ∧ FreedOnce s ⟨x.1, none⟩ s' := by
  refine withReply_spec (by decide) a (fun payload hs => ?_) fun _ hs =>
    ⟨_, _, rfl, freedOnce_failed hs⟩
  simp only [bind_apply, load_apply hs mem_cons_self, bind_some, free_apply, pure_apply]
  exact ⟨_, _, rfl, freedOnce_of_since hs.free rfl (by simp) (by simp)⟩

theorem freedOnce_transactionEnd (a : Answer) (s : State) :
    ∃ x s', xenbusTransactionEnd a s = some (x, s') ∧ FreedOnce s ⟨x.1, none⟩ s' := by
  refine withReply_spec (by decide) a
    (fun _ hs => ⟨_, _, rfl, freedOnce_of_since hs.free rfl (by simp) (by simp)⟩) fun payload hs =>
      ?_
  simp only [bind_apply, load_apply hs mem_cons_self, bind_some]
  split
  · exact ⟨_, _, rfl, freedOnce_of_since hs.free rfl (by simp) (by simp)⟩
  · exact ⟨_, _, rfl, freedOnce_failed hs⟩

theorem copyStrings_spec (hs : Since h₀ owned freed s.heap) (hrep : rep ∈ owned) (n x : Nat) :
    ∃ ps s', copyStrings rep n x s = some (ps, s') ∧ Since h₀ (ps ++ owned) freed s'.heap ∧
      s'.replies = s.replies := by
  induction n generalizing s x owned with
  | zero => exact ⟨[], s, rfl, hs, rfl⟩
  | succ n ih =>
    obtain ⟨ps, s', hrest, hs', hreplies⟩ := ih
      (s := allocated s (.bytes (cString ((s.heap.content rep).payload.drop x) ++ [0])))
      (hs.malloc _) (mem_cons_of_mem _ hrep)
      (x + (cString ((s.heap.content rep).payload.drop x)).length + 1)
    refine ⟨s.heap.next :: ps, s', ?_, hs'.perm perm_middle, hreplies⟩
    simp only [copyStrings, bind_apply, load_apply hs hrep, bind_some, malloc_apply, hrest,
      pure_apply]

theorem freedOnce_ls (a : Answer) (s : State) :
    ∃ x s', xenbusLs a s = some (x, s') ∧ FreedOnce s ⟨x.1, x.2⟩ s' := by
  refine withReply_spec (by decide) a (fun payload hs => ?_) fun _ hs =>
    ⟨_, _, rfl, freedOnce_failed hs⟩
  obtain ⟨ps, s₂, hcopy, hs₂, hreplies⟩ := copyStrings_spec
    (s := allocated (replied s (.reply .directory payload)) (.pointers []))
    (hs.malloc (.pointers [])) (mem_cons_of_mem _ mem_cons_self)
    (((replied s (.reply .directory payload)).heap.content s.heap.next).payload.count 0) 0
  simp only [bind_apply, load_apply hs mem_cons_self, bind_some, malloc_apply, hcopy, store,
    free_apply, pure_apply]
  have hs₃ := hs₂.store (p := s.heap.next + 1) (by simp [replied, allocated]) (.pointers ps)
  have hperm :
      (ps ++ [s.heap.next + 1, s.heap.next]).Perm (s.heap.next :: (s.heap.next + 1) :: ps) :=
    List.perm_append_comm.trans (.swap ..)
  refine ⟨_, _, rfl, freedOnce_of_since (hs₃.perm hperm).free hreplies (by simp) ?_⟩
  intro p hp
  have hpointers : (s₂.heap.store (s.heap.next + 1) (.pointers ps)).content (s.heap.next + 1) =
      .pointers ps := Function.update_self ..
  change p ∈ [] ++ [s.heap.next + 1] ++
    [s.heap.next + 1].flatMap fun q =>
      ((s₂.heap.store (s.heap.next + 1) (.pointers ps)).content q).pointed
  simpa [hpointers, Block.pointed] using hp

/-! ## The two calls that are wrong -/

theorem not_freedOnce_of_count (hreplies : s'.replies = rep :: s.replies)
    (hcount : s'.heap.freed.count rep ≠ s.heap.freed.count rep + 1) : ¬ FreedOnce s r s' := by
  rintro ⟨⟨came, hcame, honce⟩, -, -⟩
  rw [hreplies, ← singleton_append, append_cancel_right_eq] at hcame
  exact hcount (honce rep (hcame ▸ mem_singleton_self rep))

theorem not_clean_of_run {c : Call} {a : Answer} (hgoes : ¬ Refused s c)
    (hrun : c.run a s = some (r, s')) (hnot : ¬ FreedOnce s r s') : ¬ Clean s c a := by
  rintro (hrefused | ⟨r', u, hrun', hfreed⟩)
  · exact hgoes hrefused
  · rw [hrun, some.injEq, Prod.mk.injEq] at hrun'
    obtain ⟨rfl, rfl⟩ := hrun'
    exact hnot hfreed

@[simp] theorem get_apply (s : State) : (get : M State) s = some (s, s) := rfl

theorem freedOnce_rmWatch_none (hw : findWatch s token = none) (a : Answer) :
    ∃ r s', Call.run a (.rmWatch token) s = some (r, s') ∧ FreedOnce s r s' := by
  simp only [Call.run, xenbusRmWatch, bind_apply, get_apply, bind_some, hw, pure_apply]
  exact ⟨_, _, rfl, ⟨[], rfl, by simp⟩, rfl, fun p hp => .inl hp⟩

theorem rmWatch_run (hw : findWatch s token = some w) (a : Answer) :
    ∃ r s', Call.run a (.rmWatch token) s = some (r, s') ∧ s'.replies = s.heap.next :: s.replies ∧
      s'.heap.freed = w.block :: s.heap.freed := by
  simp only [Call.run, xenbusRmWatch, bind_apply, get_apply, bind_some, hw,
    xenbusMsgReply_apply, listDel, free_apply, pure_apply]
  exact ⟨_, _, rfl, rfl, rfl⟩

theorem not_clean_rmWatch (hw : findWatch s token = some w) (a : Answer) :
    ¬ Clean s (.rmWatch token) a := by
  obtain ⟨r, s', hrun, hreplies, hfreed⟩ := rmWatch_run hw a
  have hold := s.watchAllocated w (List.mem_of_find?_eq_some hw)
  refine not_clean_of_run not_false hrun (not_freedOnce_of_count hreplies ?_)
  rw [hfreed, count_cons_of_ne (by omega)]
  omega

theorem findWatch_watching (s : State) (path token : List UInt8) :
    findWatch (watching s path token) token = some ⟨s.heap.next, path, token⟩ := by
  simp [findWatch, watching]

theorem watchPath_run (path : List UInt8) (hw : findWatch s token = none) (a : Answer) :
    ∃ r s', Call.run a (.watchPath path token) s = some (r, s') ∧
      s'.replies = (s.heap.next + 1) :: s.replies ∧ (s'.heap.freed = s.heap.freed ∨
        s'.heap.freed =
          s.heap.next :: (s.heap.next + 1) :: (s.heap.next + 1) :: s.heap.freed) := by
  have hnext : (watching s path token).heap.next = s.heap.next + 1 := rfl
  have hsuccess := reply_success .watch (by decide) (watching s path token)
  have herror := fun payload => (reply_error (watching s path token) payload).1
  have hfind (payload : List UInt8) :
      findWatch (released (failed (watching s path token) payload) (s.heap.next + 1)) token =
        some ⟨s.heap.next, path, token⟩ := findWatch_watching s path token
  rw [hnext] at hsuccess herror
  simp only [Call.run, xenbusWatchPath, bind_apply, get_apply, bind_some, hw, isSome_none,
    bugOn, Bool.false_eq_true, if_false, addWatch, xenbusMsgReply_apply, hnext]
  cases a with
  | success payload =>
    simp only [Answer.block, hsuccess, bind_some, pure_apply]
    exact ⟨_, _, rfl, rfl, .inl rfl⟩
  | error payload =>
    simp only [Answer.block, herror, bind_apply, bind_some, free_apply, get_apply, hfind, listDel,
      pure_apply]
    exact ⟨_, _, rfl, rfl, .inr rfl⟩

theorem not_clean_watchPath (path : List UInt8) (hw : findWatch s token = none)
    (a : Answer) :
    ¬ Clean s (.watchPath path token) a := by
  have hgoes : ¬ Refused s (.watchPath path token) := by simp [Refused, hw]
  obtain ⟨r, s', hrun, hreplies, hfreed⟩ := watchPath_run path hw a
  refine not_clean_of_run hgoes hrun (not_freedOnce_of_count hreplies ?_)
  rcases hfreed with hfreed | hfreed
  · rw [hfreed]
    omega
  · rw [hfreed, count_cons_of_ne (by omega), count_cons_self, count_cons_self]
    omega

/-! ## Which calls are right -/

/-- Whatever xenstored answers, a call leaves the heap in order exactly when it neither sets a watch
nor removes one. -/
theorem replies_freed_once_iff (s : State) (c : Call) (a : Answer) :
    Clean s c a ↔ ¬ MishandlesReply s c := by
  have hclean {α : Type} {x : M α} {f : α → Result}
    (h : ∃ y s', x s = some (y, s') ∧ FreedOnce s (f y) s') :
      ∃ r s', (x >>= fun y => pure (f y) : M Result) s = some (r, s') ∧ FreedOnce s r s' := by
    obtain ⟨y, s', hx, hfreed⟩ := h
    exact ⟨f y, s', by rw [bind_apply, hx]; rfl, hfreed⟩
  cases c with
  | ls => exact iff_of_true (.inr (hclean (freedOnce_ls a s))) not_false
  | read | getPerms =>
    exact iff_of_true (.inr (hclean (freedOnce_readValue (by decide) a s))) not_false
  | write | rm | setPerms =>
    exact iff_of_true (.inr (hclean (freedOnce_request (by decide) a s))) not_false
  | transactionStart => exact iff_of_true (.inr (hclean (freedOnce_transactionStart a s))) not_false
  | transactionEnd => exact iff_of_true (.inr (hclean (freedOnce_transactionEnd a s))) not_false
  | watchPath path token =>
    cases hw : findWatch s token with
    | none => exact iff_of_false (not_clean_watchPath _ hw a) (not_not_intro hw)
    | some w => exact iff_of_true (.inl (by simp [Refused, hw])) (by simp [MishandlesReply, hw])
  | rmWatch token =>
    cases hw : findWatch s token with
    | none => exact iff_of_true (.inr (freedOnce_rmWatch_none hw a)) (by simp [MishandlesReply, hw])
    | some w => exact iff_of_false (not_clean_rmWatch hw a) (by simp [MishandlesReply, hw])

def atBoot : State where
  heap := ⟨fun _ => .watch, fun _ => false, 0, [], [], fun _ _ => rfl⟩
  watchList := []
  replies := []
  watchAllocated := by simp

/-- `xenbus_watch_path` of a path that xenstored refuses to watch frees the reply twice. -/
theorem reply_freed_twice : ¬ ∀ s c a, Clean s c a :=
  fun hall => not_clean_watchPath (text "a") rfl (.error (text "EINVAL"))
    (hall atBoot (.watchPath (text "a") (text "t")) (.error (text "EINVAL")))

end Guk.XenbusReplies
