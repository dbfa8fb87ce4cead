import Guk.ExecStatus
import Mathlib.Data.List.Nodup

/-!
# Agreement on the status nodes

The invariant of the safe steps and, from it, agreement.
-/
namespace Guk.ExecStatus

open Runs Decimal Function List
open ExecChannel (scanWord scanWord_word Word)
open CString (text)

/-! ## Names -/

theorem statusStrings_eq (k : Kind) : statusStrings k = kindstatus k.request := by
  cases k <;> decide

theorem statusNode_eq (selfId : Nat) (id : Int) (k : Kind) :
    statusNode selfId id k = fullpath (frontendNode selfId id) (kindstatus k.request) := by
  rw [statusNode, statusStrings_eq]
  rfl

theorem ends_slash {rest : List UInt8} (h : rest.head? = some 47) : Ends rest := by
  intro b hb
  rw [h] at hb
  cases hb
  decide

variable {id domId id' : Int} {path : List UInt8} {r : Reply} {w : Worker}
  {i selfId issued retry : Nat} {read : Option Int} {p : Phase}

theorem fullpath_inj {domId' : Int} {path' : List UInt8}
    (h : fullpath (frontendNode domId id) path = fullpath (frontendNode domId' id') path') :
    domId = domId' ∧ id = id' ∧ path = path' := by
  simp only [fullpath, frontendNode, append_assoc] at h
  obtain ⟨hdom, h⟩ := decimalInt_append_inj (ends_slash rfl) (ends_slash rfl) (append_cancel_left h)
  obtain ⟨hid, h⟩ := decimalInt_append_inj (ends_slash rfl) (ends_slash rfl) (append_cancel_left h)
  exact ⟨hdom, hid, append_cancel_left h⟩

theorem statusNode_inj {selfId' : Nat} {k k' : Kind}
    (h : statusNode selfId id k = statusNode selfId' id' k') :
    selfId = selfId' ∧ id = id' ∧ k = k' := by
  rw [statusNode_eq, statusNode_eq] at h
  obtain ⟨hdom, hid, hkind⟩ := fullpath_inj h
  refine ⟨Int.ofNat_inj.mp hdom, hid, ?_⟩
  revert hkind
  cases k <;> cases k' <;> decide

theorem bytes_ne_statusNode (domId id : Int) (selfId : Nat) (id' : Int) (k : Kind) :
    fullpath (frontendNode domId id) (text "readbytes") ≠ statusNode selfId id' k := by
  intro h
  rw [statusNode_eq] at h
  obtain ⟨-, -, hkind⟩ := fullpath_inj h
  revert hkind
  cases k <;> decide

theorem skip_append (lit rest : List UInt8) : skip lit (lit ++ rest) = some rest := by
  simp [skip]

theorem scanRequestPath_requestPath (selfId : Nat) (id : Int) (k : Kind) (v : Vars) :
    scanRequestPath (requestPath selfId id k) v = ⟨selfId, id, k.request⟩ := by
  have hword : scanWord k.request = some k.request := by
    apply scanWord_word
    cases k <;> decide
  have hends (rest : List UInt8) : Ends (text "/" ++ rest) := ends_slash rfl
  have hdom := scanInt_decimalInt selfId (hends (decimalInt id ++ (text "/" ++ k.request)))
  have hid := scanInt_decimalInt id (hends k.request)
  have hpath :
    requestPath selfId id k = (watchNode ++ text "/") ++ (decimalInt selfId ++ (text "/" ++
      (decimalInt id ++ (text "/" ++ k.request)))) := by
    simp only [requestPath, append_assoc]
  simp only [scanRequestPath, hpath, skip_append, Option.bind_some, hdom, hid, hword]

theorem requestPath_ne_watchNode (selfId : Nat) (id : Int) (k : Kind) :
    requestPath selfId id k ≠ watchNode := by
  intro h
  have hlen := congrArg List.length h
  have hslash : (text "/").length = 1 := by decide
  simp only [requestPath, length_append, hslash] at hlen
  omega

/-! ## One node, one operation -/

/-- The operation has returned and nobody is going to write its node any more. -/
def Over (op : Op) (pending : Prop) : Prop := op.phase.isReturned = true ∧ ¬ pending

structure Fits (status : Option (List UInt8)) (op : Op) (pending : Prop) : Prop where
  held : ∀ text, ¬ Over op pending → status = some text →
    ¬ pending ∧ ∃ v, op.result = some v ∧ text = decimalInt v
  present : ∀ retry, ¬ pending → op.phase = .polling retry → status.isSome = true
  own : ∀ v, op.phase.value = some v → ¬ pending ∧ op.result = some v
  retries : ∀ retry, op.phase = .polling retry → 0 < retry
  gaveUp : op.phase = .removing none ∨ op.phase = .returned none → op.kind = .exec

/-- Of all operations on one node at most one is not over. -/
structure Nodes (store : List UInt8 → Option (List UInt8)) (op : Nat → Op) (issued : Nat)
    (pending : Nat → Prop) : Prop where
  alone : ∀ n m, n < issued → m < issued → m ≠ n → (op m).node = (op n).node →
    ¬ Over (op n) (pending n) → Over (op m) (pending m)
  fits : ∀ n, n < issued → Fits (store (op n).node) (op n) (pending n)

section Operation

variable {status : Option (List UInt8)} {op : Op} {pending : Prop}

theorem not_over (h : op.phase.isReturned = false) : ¬ Over op pending := by
  intro ho
  rw [ho.1] at h
  cases h

theorem fits_new (selfId : Nat) (id : Int) (k : Kind) (hpending : pending) :
    Fits none ⟨selfId, id, k, .polling maxWait, none⟩ pending where
  held _ _ h := nomatch h
  present _ h := absurd hpending h
  own _ h := nomatch h
  retries _ h := by
    cases h
    decide
  gaveUp h := by rcases h with h | h <;> cases h

section

variable (h : Fits status op pending)

include h

theorem fits_phase (hop : op.phase = .polling retry)
    (hret : p.isReturned = false) (hown : ∀ v, p.value = some v → ¬ pending ∧ op.result = some v)
    (hretries : ∀ retry, p = .polling retry → 0 < retry)
    (hgave : p = .removing none → op.kind = .exec) :
    Fits status { op with phase := p } pending where
  held text _ hst := h.held text (not_over (by rw [hop]; rfl)) hst
  present _ hp _ := h.present retry hp hop
  own := hown
  retries := hretries
  gaveUp hp := by
    rcases hp with hp | hp
    · exact hgave hp
    · cases hp
      cases hret

theorem fits_removed (hop : op.phase = .removing read) :
    Fits none { op with phase := .returned read } pending where
  held _ _ h := nomatch h
  present _ _ h := nomatch h
  own v hv := h.own v (by rw [hop]; exact hv)
  retries _ h := nomatch h
  gaveUp hp := by
    rcases hp with hp | hp
    · cases hp
    · cases hp
      exact h.gaveUp (.inl hop)

theorem fits_result (hpending : pending) (v : Int) :
    Fits status { op with result := some v } pending where
  held text hover hst := absurd hpending (h.held text hover hst).1
  present _ hp := absurd hpending hp
  own w hw := absurd hpending (h.own w hw).1
  retries := h.retries
  gaveUp := h.gaveUp

theorem fits_written (hpending : pending) {v : Int}
    (hv : op.result = some v) {pending' : Prop} (hp : ¬ pending') :
    Fits (some (decimalInt v)) op pending' where
  held text _ hst := by
    cases hst
    exact ⟨hp, v, hv, rfl⟩
  present _ _ _ := rfl
  own w hw := absurd hpending (h.own w hw).1
  retries := h.retries
  gaveUp := h.gaveUp

theorem fits_over (hover : Over op pending) (status' : Option (List UInt8)) :
    Fits status' op pending where
  held _ ho := absurd hover ho
  present _ _ hp := by
    rw [Over, hp] at hover
    cases hover.1
  own := h.own
  retries := h.retries
  gaveUp := h.gaveUp

end

end Operation

theorem nodes_update {store t : List UInt8 → Option (List UInt8)} {op : Nat → Op} {issued' n : Nat}
    {pending pending' : Nat → Prop} (h : Nodes store op issued pending) (x : Op)
    (hissued : ∀ m, m < issued' → m ≠ n → m < issued)
    (hover : ∀ m, m < issued → m ≠ n → (op m).node = x.node → Over (op m) (pending m))
    (hstore : ∀ node, node ≠ x.node → t node = store node)
    (hp : ∀ m, m ≠ n → (pending' m ↔ pending m)) (hfits : Fits (t x.node) x (pending' n)) :
    Nodes t (update op n x) issued' pending' := by
  have hold (m : Nat) (hm : m < issued') (hmn : m ≠ n) :
      m < issued ∧ update op n x m = op m ∧ pending' m = pending m :=
    ⟨hissued m hm hmn, update_of_ne hmn .., propext (hp m hmn)⟩
  constructor
  · intro i j hi hj hji he hno
    by_cases hin : i = n
    · subst hin
      obtain ⟨hj, hopj, hpj⟩ := hold j hj hji
      rw [hopj, update_self] at he
      rw [hopj, hpj]
      exact hover j hj hji he
    · obtain ⟨hi, hopi, hpi⟩ := hold i hi hin
      rw [hopi, hpi] at hno
      rw [hopi] at he
      by_cases hjn : j = n
      · rw [hjn, update_self] at he
        exact absurd (hover i hi hin he.symm) hno
      · obtain ⟨hj, hopj, hpj⟩ := hold j hj hjn
        rw [hopj] at he
        rw [hopj, hpj]
        exact h.alone i j hi hj hji he hno
  · intro m hm
    by_cases hmn : m = n
    · rw [hmn, update_self]
      exact hfits
    · obtain ⟨hm, hop, hpm⟩ := hold m hm hmn
      rw [hop, hpm]
      by_cases he : (op m).node = x.node
      · exact fits_over (h.fits m hm) (hover m hm hmn he) _
      · rw [hstore _ he]
        exact h.fits m hm

/-! ## The invariant -/

abbrev Worker := Option Nat

def reply (s : State) (w : Worker) : Option Reply :=
  w.elim s.main.current fun n => (s.thread n).current.map (waitReply s n)

def said (s : State) (w : Worker) : Prop :=
  w.elim (s.main.written.isSome = true) fun n => ∃ r, s.thread n = .replying r

@[simp] theorem reply_none (s : State) : reply s none = s.main.current := rfl

@[simp] theorem reply_some (s : State) (n : Nat) :
    reply s (some n) = (s.thread n).current.map (waitReply s n) := rfl

/-- An operation is in one place of the backend at a time, and whoever works on it is going to
write its node. -/
structure Places (s : State) : Prop where
  nodup : (queued s).Nodup
  bound : ∀ n, n ∈ queued s → n < s.issued
  events : ∀ e, e ∈ s.events → e.1 = requestPath (s.op e.2).selfId (s.op e.2).id (s.op e.2).kind
  active : ∀ i r, s.activeRequests i = some r → r < s.requests
  work : ∀ w r, reply s w = some r →
    r.op < s.issued ∧ r.op ∉ queued s ∧ r.request < s.requests ∧ replyNode s r = (s.op r.op).node
  one : ∀ w w' r r', reply s w = some r → reply s w' = some r' → r.op = r'.op → w = w'

/-- What is going to be written is the `status` that was computed for the operation. -/
def Status (s : State) : Prop :=
  ∀ w r, reply s w = some r → said s w → (s.op r.op).result = some (s.request r.request).status

structure Inv (s : State) : Prop where
  places : Places s
  status : Status s
  nodes : Nodes s.store s.op s.issued (Unanswered s)

theorem inv_initial {s : State} (h : Initial s) : Inv s := by
  have hreply : ∀ w, reply s w = none := by
    intro w
    cases w <;> simp [h.main, h.thread, Main.current, Thread.current]
  refine ⟨?_, ?_, ?_⟩
  · constructor <;> simp [queued, h.events, h.activeRequests, hreply]
  · simp [Status, hreply]
  · constructor <;> simp [h.issued]

variable {s t : State} {n : Nat} {rest : List (List UInt8 × Nat)} {th : Thread} {m : Main}

theorem unanswered_iff : Unanswered s n ↔ n ∈ queued s ∨ ∃ w r, reply s w = some r ∧ r.op = n := by
  constructor
  · intro h
    rcases h with h | h | h
    · exact .inl h
    · exact .inr ⟨none, Option.map_eq_some_iff.mp h⟩
    · obtain ⟨r, hr⟩ := Option.isSome_iff_exists.mp h
      exact .inr ⟨some n, waitReply s n r, congrArg (Option.map _) hr, rfl⟩
  · intro h
    rcases h with h | ⟨w, r, hr, he⟩
    · exact .inl h
    · cases w with
      | none => exact .inr (.inl (Option.map_eq_some_iff.mpr ⟨r, hr, he⟩))
      | some m =>
        obtain ⟨x, hx, rfl⟩ := Option.map_eq_some_iff.mp hr
        cases he
        exact .inr (.inr (Option.isSome_iff_exists.mpr ⟨x, hx⟩))

theorem nodes_congr {store : List UInt8 → Option (List UInt8)} {op : Nat → Op}
    (h : Nodes store op issued (Unanswered s)) (hev : t.events = s.events)
    (hreply : ∀ w, reply t w = reply s w) :
    Nodes store op issued (Unanswered t) := by
  have hsame : Unanswered t = Unanswered s := by
    funext m
    rw [propext unanswered_iff, propext unanswered_iff, queued, hev]
    simp only [hreply]
    rfl
  rw [hsame]
  exact h

theorem Main.current_of_written (h : m.written = some r) : m.current = some r := by
  cases m with
  | bytes r' buffer | replying r' => exact h
  | idle | serving w r' | reaping i => cases h

/-! ### What a step leaves alone -/

def Op.identity (op : Op) : Nat × Int × Kind := (op.selfId, op.id, op.kind)

def Request.identity (q : Request) : Int × Int := (q.domId, q.requestId)

theorem update_keeps {α β : Type} (g : α → β) {f : Nat → α} {x : α} (h : g x = g (f n)) (m : Nat) :
    g (update f n x m) = g (f m) := by
  by_cases hm : m = n
  · rw [hm, update_self, h]
  · rw [update_of_ne hm]

theorem replyNode_congr (h : (t.request r.request).identity = (s.request r.request).identity) :
    replyNode t r = replyNode s r := by
  have hdom : (t.request r.request).domId = (s.request r.request).domId := congrArg Prod.fst h
  rw [replyNode, hdom]
  rfl

theorem reply_congr (hids : ∀ r, (t.request r).identity = (s.request r).identity)
    (hmain : t.main.current = s.main.current)
    (hthread : ∀ n, (t.thread n).current = (s.thread n).current) :
    reply t w = reply s w := by
  cases w with
  | none => exact hmain
  | some m =>
    have hwait : waitReply t m = waitReply s m := by
      funext r
      have hid : (t.request r).requestId = (s.request r).requestId := congrArg Prod.snd (hids r)
      rw [waitReply, hid]
      rfl
    rw [reply_some, reply_some, hthread, hwait]

variable {store : List UInt8 → Option (List UInt8)} {request : Nat → Request}
  {active : Nat → Option Nat} {main : Main} {thread : Nat → Thread} {op : Nat → Op}

theorem places_mono (h : Places s) (hop : ∀ n, (op n).identity = (s.op n).identity)
    (hids : ∀ r, (request r).identity = (s.request r).identity)
    (hactive : ∀ i r, active i = some r → s.activeRequests i = some r)
    (hreply : ∀ w r, reply { s with request := request, main := main, thread := thread } w =
      some r → reply s w = some r) :
    Places { s with
      store := store, request := request, activeRequests := active
      main := main, thread := thread, op := op } where
  nodup := h.nodup
  bound := h.bound
  events e he := by
    have hid := hop e.2
    simp only [Op.identity, Prod.mk.injEq] at hid
    simp only [hid.1, hid.2.1, hid.2.2]
    exact h.events e he
  active i r hi := h.active i r (hactive i r hi)
  work w r hr := by
    obtain ⟨hlt, hq, hrq, hnode⟩ := h.work w r (hreply w r hr)
    have hid := hop r.op
    simp only [Op.identity, Prod.mk.injEq] at hid
    refine ⟨hlt, hq, hrq, (replyNode_congr (hids r.request)).trans (hnode.trans ?_)⟩
    simp only [Op.node, hid.1, hid.2.1, hid.2.2]
  one w w' r r' hr hr' := h.one w w' r r' (hreply w r hr) (hreply w' r' hr')

theorem status_mono (h : Status s) (hresult : ∀ n, (op n).result = (s.op n).result)
    (hstatus : ∀ r, (request r).status = (s.request r).status)
    (hreply : ∀ w r, reply { s with request := request, main := main, thread := thread } w =
      some r → reply s w = some r)
    (hsaid : ∀ w, said { s with main := main, thread := thread } w → said s w) :
    Status { s with
      store := store, request := request, activeRequests := active
      main := main, thread := thread, op := op } := by
  intro w r hr hw
  simp only [hresult, hstatus]
  exact h w r (hreply w r hr) (hsaid w hw)

/-! ### The frontend's steps -/

theorem queued_issueOp (s : State) (selfId : Nat) (k : Kind) (id : Int) :
    queued (issueOp s selfId k id) = queued s ++ [s.issued] := by
  simp [queued, issueOp]

theorem unanswered_issueOp (s : State) (selfId : Nat) (k : Kind) (id : Int) (n : Nat) :
    Unanswered (issueOp s selfId k id) n ↔ Unanswered s n ∨ n = s.issued := by
  have hdef : Unanswered (issueOp s selfId k id) n ↔ n ∈ queued (issueOp s selfId k id) ∨
      s.main.current.map (·.op) = some n ∨ (s.thread n).current.isSome := Iff.rfl
  rw [hdef, queued_issueOp, mem_append, mem_singleton, or_right_comm]
  rfl

theorem places_issueOp (h : Places s) (selfId : Nat) (k : Kind) (id : Int) :
    Places (issueOp s selfId k id) := by
  have hold : ∀ n, n < s.issued → (issueOp s selfId k id).op n = s.op n :=
    fun n hn => update_of_ne (ne_of_lt hn) ..
  refine ⟨?_, ?_, ?_, h.active, ?_, h.one⟩
  · rw [queued_issueOp, ← concat_eq_append]
    exact h.nodup.concat fun h' => lt_irrefl _ (h.bound _ h')
  · intro m hm
    rw [queued_issueOp, mem_append, mem_singleton] at hm
    rcases hm with hm | hm
    · exact Nat.lt_succ_of_lt (h.bound m hm)
    · exact hm ▸ Nat.lt_succ_self _
  · intro e he
    have he : e ∈ s.events ++ [(requestPath selfId id k, s.issued)] := he
    rw [mem_append, mem_singleton] at he
    rcases he with he | he
    · rw [hold e.2 (h.bound e.2 (mem_map_of_mem he))]
      exact h.events e he
    · rw [he]
      simp [issueOp]
  · intro w r hr
    obtain ⟨hlt, hq, hrq, hnode⟩ := h.work w r hr
    rw [queued_issueOp, hold r.op hlt, mem_append, mem_singleton]
    exact ⟨Nat.lt_succ_of_lt hlt, fun h' => h'.elim hq (ne_of_lt hlt), hrq, hnode⟩

theorem inv_issue (h : Inv s) {k : Kind} (hsafe : safeIssue s selfId k id) :
    Inv (issueOp s selfId k id) := by
  have hun := unanswered_issueOp s selfId k id
  refine ⟨places_issueOp h.places selfId k id, ?_, ?_⟩
  · intro w r hr hw
    have hne := ne_of_lt (h.places.work w r hr).1
    simp only [issueOp, update_of_ne hne]
    exact h.status w r hr hw
  · apply nodes_update h.nodes
    · intro m hm hne
      have hm : m < s.issued + 1 := hm
      omega
    · exact fun m hm _ he => hsafe.2 m hm (statusNode_inj he)
    · exact fun _ _ => rfl
    · exact fun m hm => (hun m).trans (or_iff_left hm)
    · have hnone : (issueOp s selfId k id).store (Op.node ⟨selfId, id, k, .polling maxWait, none⟩) =
          none :=
        hsafe.1
      rw [hnone]
      exact fits_new selfId id k ((hun _).mpr (.inr rfl))

theorem inv_setPhase (h : Inv s) (hn : n < s.issued) (hop : (s.op n).phase.isReturned = false)
    (hstore : ∀ node, node ≠ (s.op n).node → store node = s.store node)
    (hfits : Fits (store (s.op n).node) { s.op n with phase := p } (Unanswered s n)) :
    Inv (setPhase { s with store := store } n p) := by
  refine ⟨?_, ?_, ?_⟩
  · exact places_mono (s := s) h.places (update_keeps Op.identity rfl) (fun _ => rfl)
      (fun _ _ hi => hi) fun _ _ hr => hr
  · exact status_mono (s := s) h.status (update_keeps Op.result rfl) (fun _ => rfl)
      (fun _ _ hr => hr) fun _ hw => hw
  · exact nodes_update h.nodes _ (fun _ hm _ => hm)
      (fun m hm hmn he => h.nodes.alone n m hn hm hmn he (not_over hop)) hstore
      (fun _ _ => Iff.rfl) hfits

theorem inv_poll (h : Inv s) (hn : n < s.issued) (hop : (s.op n).phase = .polling retry) :
    Inv (pollOp s n retry) := by
  have hfits := h.nodes.fits n hn
  have hretry := hfits.retries retry hop
  have hret : (s.op n).phase.isReturned = false := by
    rw [hop]
    rfl
  unfold pollOp
  split
  · -- nothing there: the thread gives up or polls again
    have hagain {retry' : Nat} (h' : 0 < retry') : Inv (setPhase s n (.polling retry')) := by
      refine inv_setPhase h hn hret (fun _ _ => rfl) (fits_phase hfits hop rfl nofun ?_ nofun)
      intro r hr
      cases hr
      exact h'
    by_cases hexec : (s.op n).kind = .exec
    · simp only [if_pos hexec]
      by_cases hlast : retry - 1 = 0
      · rw [if_pos hlast]
        exact inv_setPhase h hn hret (fun _ _ => rfl) (fits_phase hfits hop rfl nofun nofun fun _ =>
          hexec)
      · rw [if_neg hlast]
        exact hagain (Nat.pos_of_ne_zero hlast)
    · simp only [if_neg hexec, if_neg (ne_of_gt hretry)]
      exact hagain hretry
  · -- what is there is the operation's own result
    rename_i status hst
    obtain ⟨hanswered, v, hv, htext⟩ := hfits.held status (not_over hret) hst
    have hscan : ((scanInt status).map (·.1)).getD (-EAGAIN) = v := by
      have hends : Ends [] := nofun
      have hback := scanInt_decimalInt v hends
      rw [append_nil] at hback
      rw [htext, hback]
      rfl
    rw [hscan]
    refine inv_setPhase h hn hret (fun _ _ => rfl) (fits_phase hfits hop rfl ?_ nofun nofun)
    intro w hw
    cases hw
    exact ⟨hanswered, hv⟩

theorem inv_remove (h : Inv s) (hn : n < s.issued)
    (hop : (s.op n).phase = .removing read) : Inv (removeNode s n read) := by
  apply inv_setPhase h hn
  · rw [hop]
    rfl
  · exact fun node hne => update_of_ne hne ..
  · rw [update_self]
    exact fits_removed (h.nodes.fits n hn) hop

/-! ### Taking an event -/

theorem findRequest_some {r : Nat} (h : findRequest s domId id = some r) :
    (∃ i, s.activeRequests i = some r) ∧ (s.request r).domId = domId ∧
      (s.request r).requestId = id := by
  obtain ⟨i, -, hi⟩ := exists_of_findSome?_eq_some h
  unfold matching at hi
  split at hi
  · cases hi
  · rename_i r' hr
    obtain ⟨hids, rfl⟩ := of_when hi
    exact ⟨⟨i, hr⟩, hids⟩

structure Taken (s : State) (n : Nat) : Prop where
  idle : s.main = .idle
  issued : n < s.issued
  unqueued : n ∉ queued s
  unserved : ∀ w r, reply s w = some r → r.op ≠ n
  places : Places s
  status : Status s
  nodes : Nodes s.store s.op s.issued fun m => Unanswered s m ∨ m = n

theorem taken_of_inv (h : Inv s) (hidle : s.main = .idle)
    (hev : s.events = (path, n) :: rest) : Taken { s with events := rest } n := by
  have hqueued : queued s = n :: rest.map (·.2) := by
    rw [queued, hev]
    rfl
  obtain ⟨hnodup, hbound, hevents, hactive, hwork, hone⟩ := h.places
  rw [hqueued] at hnodup hbound
  simp only [hqueued, mem_cons, not_or] at hwork
  obtain ⟨hnot, hnodup⟩ := nodup_cons.mp hnodup
  have hsame : Unanswered s = fun m => Unanswered { s with events := rest } m ∨ m = n := by
    funext m
    rw [Unanswered, hqueued, mem_cons, or_assoc, or_comm (a := m = n)]
    rfl
  refine ⟨hidle, hbound n mem_cons_self, hnot, fun w r hr => (hwork w r hr).2.1.1, ?_, h.status,
    hsame ▸ h.nodes⟩
  refine ⟨hnodup, fun m hm => hbound m (mem_cons_of_mem _ hm), ?_, hactive, ?_, hone⟩
  · exact fun e he => hevents e (hev ▸ mem_cons_of_mem _ he)
  · intro w r hr
    obtain ⟨hlt, hq, hrest⟩ := hwork w r hr
    exact ⟨hlt, hq.2, hrest⟩

theorem reply_node {op : Op} (hdom : (t.request r.request).domId = op.selfId)
    (hid : r.requestId = op.id) (hkind : r.kind = op.kind.request) : replyNode t r = op.node := by
  rw [replyNode, hdom, hid, hkind, Op.node, statusNode_eq]

theorem reply_request {k : Nat} (hrequest : ∀ r, r < k → request r = s.request r)
    (hlt : ∀ r, reply s w = some r → r.request < k) :
    reply { s with request := request } w = reply s w := by
  cases w with
  | none => rfl
  | some m =>
    cases hc : (s.thread m).current with
    | none => simp only [reply_some, hc, Option.map_none]
    | some x =>
      have hx : x < k := hlt (waitReply s m x) (congrArg (Option.map _) hc)
      simp only [reply_some, hc, Option.map_some, waitReply, hrequest x hx]

section Handling

variable (h : Taken s n) {requests : Nat}
include h

theorem inv_handed (hrequests : s.requests ≤ requests)
    (hrequest : ∀ r, r < s.requests → request r = s.request r)
    (hactive : ∀ i r, active i = some r → r < requests) (w : Worker)
    (hw : reply { s with request := request, main := main, thread := thread } w = some r)
    (hfree : reply s w = none)
    (hothers : ∀ w', w' ≠ w → reply { s with main := main, thread := thread } w' = reply s w')
    (hsaid : ∀ w', said { s with main := main, thread := thread } w' → w' ≠ w ∧ said s w')
    (hop : r.op = n) (hlt : r.request < requests)
    (hnode : replyNode { s with request := request } r = (s.op n).node) :
    Inv { s with
      requests := requests, request := request, activeRequests := active
      main := main, thread := thread } := by
  have hold (w' : Worker) (hw' : w' ≠ w) :
      reply { s with request := request, main := main, thread := thread } w' = reply s w' := by
    rw [← hothers w' hw']
    apply reply_request (s := { s with main := main, thread := thread }) hrequest
    intro r' hr'
    rw [hothers w' hw'] at hr'
    exact (h.places.work w' r' hr').2.2.1
  have hcases (w' : Worker) (r' : Reply)
      (hr' : reply { s with request := request, main := main, thread := thread } w' = some r') :
      w' = w ∧ r' = r ∨ reply s w' = some r' := by
    by_cases hw' : w' = w
    · rw [hw', hw] at hr'
      exact .inl ⟨hw', (Option.some.inj hr').symm⟩
    · exact .inr (hold w' hw' ▸ hr')
  refine ⟨⟨h.places.nodup, h.places.bound, h.places.events, hactive, ?_, ?_⟩, ?_, ?_⟩
  · intro w' r' hr'
    rcases hcases w' r' hr' with ⟨-, rfl⟩ | hr'
    · rw [hop]
      exact ⟨h.issued, h.unqueued, hlt, hnode⟩
    · obtain ⟨hlt', hq, hrq, hnode'⟩ := h.places.work w' r' hr'
      refine ⟨hlt', hq, lt_of_lt_of_le hrq hrequests, (replyNode_congr ?_).trans hnode'⟩
      exact congrArg Request.identity (hrequest _ hrq)
  · intro w₁ w₂ r₁ r₂ hr₁ hr₂ he
    rcases hcases w₁ r₁ hr₁ with ⟨rfl, rfl⟩ | hr₁
    · rcases hcases w₂ r₂ hr₂ with ⟨rfl, -⟩ | hr₂
      · rfl
      · exact absurd (he.symm.trans hop) (h.unserved w₂ r₂ hr₂)
    · rcases hcases w₂ r₂ hr₂ with ⟨rfl, rfl⟩ | hr₂
      · exact absurd (he.trans hop) (h.unserved w₁ r₁ hr₁)
      · exact h.places.one w₁ w₂ r₁ r₂ hr₁ hr₂ he
  · intro w' r' hr' hs
    obtain ⟨hne, hs⟩ := hsaid w' hs
    rcases hcases w' r' hr' with ⟨rfl, -⟩ | hr'
    · exact absurd rfl hne
    · rw [h.status w' r' hr' hs]
      simp only [hrequest _ (h.places.work w' r' hr').2.2.1]
  · refine (funext fun m => propext ?_ : Unanswered _ = fun m => Unanswered s m ∨ m = n) ▸ h.nodes
    rw [unanswered_iff, unanswered_iff, or_assoc]
    refine or_congr Iff.rfl ⟨?_, ?_⟩
    · rintro ⟨w', r', hr', he⟩
      rcases hcases w' r' hr' with ⟨-, rfl⟩ | hr'
      · exact .inr (he.symm.trans hop)
      · exact .inl ⟨w', r', hr', he⟩
    · rintro (⟨w', r', hr', he⟩ | he)
      · refine ⟨w', r', (hold w' fun hw' => ?_).trans hr', he⟩
        rw [hw', hfree] at hr'
        cases hr'
      · exact ⟨w, r, hw, hop.trans he.symm⟩

theorem inv_serving (hrequests : s.requests ≤ requests) (hrequest : ∀ r, r < s.requests → request r = s.request r)
    (hactive : ∀ i r, active i = some r → r < requests) (w : Work) (hop : r.op = n)
    (hlt : r.request < requests) (hdom : (request r.request).domId = (s.op n).selfId)
    (hid : r.requestId = (s.op n).id) (hkind : r.kind = (s.op n).kind.request) :
    Inv { s with
      requests := requests, request := request, activeRequests := active
      main := .serving w r } := by
  refine inv_handed h hrequests hrequest hactive none rfl ?_ ?_ ?_ hop hlt
    (reply_node hdom hid hkind)
  · rw [reply_none, h.idle]
    rfl
  · intro w' hw'
    cases w' with
    | none => exact absurd rfl hw'
    | some m => rfl
  · intro w' hs
    cases w' with
    | none => cases hs
    | some m => exact ⟨nofun, hs⟩

theorem inv_allocate
    (hnew : ∀ i r, active i = some r → s.activeRequests i = some r ∨ r = s.requests) (q : Request)
    (w : Work) (hop : r.op = n) (hr : r.request = s.requests) (hdom : q.domId = (s.op n).selfId)
    (hid : r.requestId = (s.op n).id) (hkind : r.kind = (s.op n).kind.request) :
    Inv (allocate { s with activeRequests := active } q w r) := by
  apply inv_serving h (Nat.le_succ _) (fun m hm => update_of_ne (ne_of_lt hm) ..) ?_ w hop ?_ ?_ hid
    hkind
  · intro i m hm
    rcases hnew i m hm with hm | hm
    · exact Nat.lt_succ_of_lt (h.places.active i m hm)
    · exact hm ▸ Nat.lt_succ_self _
  · exact hr ▸ Nat.lt_succ_self _
  · rw [hr, update_self, hdom]

theorem inv_bad (rkind : List UInt8) (memory : Request) (hid : id = (s.op n).id)
    (hkind : rkind = (s.op n).kind.request) :
    Inv (writeBadRequest s (s.op n).selfId id rkind n memory) :=
  inv_allocate h (fun _ _ h => .inl h) _ .badRequest rfl rfl rfl hid hkind

theorem inv_exec {v : Vars} (memory : Request) (hdom : v.domId = (s.op n).selfId)
    (hid : v.requestId = (s.op n).id) (hkind : (s.op n).kind = .exec) :
    Inv (handleExec s v n memory) := by
  have hname : text "exec" = (s.op n).kind.request := by
    rw [hkind]
    rfl
  unfold handleExec
  split
  · exact inv_allocate h (fun _ _ h => .inl h) _ .tooMany rfl rfl hdom hid hname
  · rename_i i hi
    refine inv_allocate h ?_ _ .exec rfl rfl hdom hid hname
    intro j r hr
    rw [update_apply] at hr
    split at hr
    · cases hr
      exact .inr rfl
    · exact .inl hr

theorem inv_wait (memory : Request) (hkind : (s.op n).kind = .wait) :
    Inv (checkFindRequest s (s.op n).selfId (s.op n).id (text "wait") n memory fun r =>
      { s with thread := update s.thread n (.waiting r), main := .reaping 0 }) := by
  have hname : text "wait" = (s.op n).kind.request := by
    rw [hkind]
    rfl
  unfold checkFindRequest
  split
  · exact inv_bad h _ memory rfl hname
  · rename_i r hfind
    obtain ⟨⟨i, hi⟩, hd, hid⟩ := findRequest_some hfind
    refine inv_handed h le_rfl (fun _ _ => rfl) h.places.active (some n) (r := waitReply s n r)
      ?_ ?_ ?_ ?_ rfl (h.places.active i r hi) (reply_node hd hid hname)
    · simp only [reply_some, update_self]
      rfl
    · refine Option.eq_none_iff_forall_ne_some.mpr fun r' hr' => h.unserved (some n) r' hr' ?_
      obtain ⟨x, -, rfl⟩ := Option.map_eq_some_iff.mp hr'
      rfl
    · intro w' hw'
      cases w' with
      | none => simp only [reply_none, h.idle, Main.current]
      | some m =>
        have hm : m ≠ n := fun hm => hw' (congrArg some hm)
        simp only [reply_some, update_of_ne hm]
        rfl
    · intro w' hs
      cases w' with
      | none => cases hs
      | some m =>
        obtain ⟨x, hx⟩ := hs
        by_cases hm : m = n
        · simp only [hm, update_self] at hx
          cases hx
        · simp only [update_of_ne hm] at hx
          exact ⟨fun he => hm (Option.some.inj he), x, hx⟩

theorem inv_fd (memory : Request) (w : Work) {rkind : List UInt8}
    (hkind : rkind = (s.op n).kind.request)
    (hsafe : (findRequest s (s.op n).selfId (execRequestId (s.op n).id)).isSome ∨
      execRequestId (s.op n).id = (s.op n).id) :
    Inv (checkFindRequest s (s.op n).selfId (execRequestId (s.op n).id) rkind n memory fun r =>
      { s with main := .serving w ⟨n, r, rkind, (s.op n).id⟩ }) := by
  unfold checkFindRequest
  split
  · rename_i hnone
    rw [hnone] at hsafe
    rcases hsafe with hsafe | hsafe
    · cases hsafe
    · exact inv_bad h _ memory hsafe hkind
  · rename_i r hfind
    obtain ⟨⟨i, hi⟩, hd, -⟩ := findRequest_some hfind
    exact inv_serving h le_rfl (fun _ _ => rfl) h.places.active w rfl (h.places.active i r hi) hd
      rfl hkind

theorem inv_connection (v : Vars) (memory : Request) (hdom : v.domId = (s.op n).selfId)
    (hid : v.requestId = (s.op n).id) (hrkind : v.rkind = (s.op n).kind.request)
    (hsafe : safeTake s (s.op n)) : Inv (handleConnection s v n memory) := by
  have hfd (hk : (s.op n).kind = .read ∨ (s.op n).kind = .write ∨ (s.op n).kind = .close) :=
    hsafe.2 hk
  rw [handleConnection, hrkind]
  cases hkind : (s.op n).kind with
  | exec =>
    rw [if_pos (by rfl)]
    exact inv_exec h memory hdom hid hkind
  | wait =>
    rw [hdom, hid, if_neg (by decide), if_pos (by rfl)]
    exact inv_wait h memory hkind
  | read =>
    rw [hdom, hid, if_neg (by decide), if_neg (by decide), if_pos (by rfl)]
    exact inv_fd h memory .read (by rw [hkind]) (hfd (.inl hkind))
  | write =>
    rw [hdom, hid, if_neg (by decide), if_neg (by decide), if_neg (by decide), if_pos (by rfl)]
    exact inv_fd h memory .write (by rw [hkind]) (hfd (.inr (.inl hkind)))
  | close =>
    rw [hdom, hid, if_neg (by decide), if_neg (by decide), if_neg (by decide), if_neg (by decide),
      if_pos (by rfl)]
    exact inv_fd h memory .close (by rw [hkind]) (hfd (.inr (.inr hkind)))
  | destroy =>
    rw [hdom, hid, if_neg (by decide), if_neg (by decide), if_neg (by decide), if_neg (by decide),
      if_neg (by decide), if_pos (by rfl), checkFindRequest, hsafe.1 hkind]
    exact inv_bad h _ memory rfl (by rw [hkind])

end Handling

theorem inv_take (h : Inv s) (hidle : s.main = .idle)
    (hev : s.events = (path, n) :: rest) (memory : Request) (hsafe : safeTake s (s.op n)) :
    Inv (takeEvent { s with events := rest } path n memory) := by
  have hpath : path = requestPath (s.op n).selfId (s.op n).id (s.op n).kind :=
    h.places.events (path, n) (hev ▸ mem_cons_self)
  have ht := taken_of_inv h hidle hev
  rw [takeEvent, hpath, if_neg (requestPath_ne_watchNode _ _ _)]
  simp only [scanRequestPath_requestPath]
  rw [if_pos (Int.natCast_nonneg _)]
  exact inv_connection
    (s := { s with events := rest, vars := ⟨(s.op n).selfId, (s.op n).id, (s.op n).kind.request⟩ })
    { ht with places := { ht.places with } } ⟨(s.op n).selfId, (s.op n).id, (s.op n).kind.request⟩
      memory rfl rfl rfl hsafe

/-! ### Writing a status -/

theorem Work.effect_identity (o : Outcome) (requestId : Int) (q : Request) (w : Work) :
    (w.effect o requestId q).identity = q.identity := by
  cases w with
  | exec =>
    simp only [Work.effect]
    split <;> rfl
  | close =>
    simp only [Work.effect, closeFd]
    split
    · rfl
    · split <;> rfl
  | tooMany | read | write | destroy | badRequest => rfl

theorem inv_compute (h : Inv s) (hr : reply s w = some r) (q : Request)
    (hq : q.identity = (s.request r.request).identity)
    (hmain : main.current = s.main.current)
    (hthread : ∀ n, (thread n).current = (s.thread n).current)
    (hothers : ∀ w' r', w' ≠ w → said { s with main := main, thread := thread } w' →
      reply s w' = some r' → said s w' ∧ r'.request ≠ r.request) :
    Inv { s with
      op := update s.op r.op { s.op r.op with result := some q.status }
      request := update s.request r.request q, main := main, thread := thread } := by
  have hids := update_keeps Request.identity hq
  have hreply (w' : Worker) : reply { s with
      request := update s.request r.request q, main := main, thread := thread } w' = reply s w' :=
    reply_congr hids hmain hthread
  have hu := unanswered_iff.mpr (.inr ⟨w, r, hr, rfl⟩)
  have hlt := (h.places.work w r hr).1
  refine ⟨?_, ?_, ?_⟩
  · exact places_mono h.places (update_keeps Op.identity rfl) hids (fun _ _ hi => hi) fun w' r' =>
      hreply w' ▸ id
  · intro w' r' hr' hs
    have hr' := hreply w' ▸ hr'
    by_cases hw : w' = w
    · rw [hw, hr] at hr'
      cases hr'
      simp only [update_self]
    · obtain ⟨hs, hne⟩ := hothers w' r' hw hs hr'
      have hop : r'.op ≠ r.op := fun he => hw (h.places.one w' w r' r hr' hr he)
      simp only [update_of_ne hop, update_of_ne hne]
      exact h.status w' r' hr' hs
  · refine nodes_congr (s := s) ?_ rfl hreply
    exact nodes_update h.nodes _ (fun _ hm _ => hm)
      (fun m hm hmn he => h.nodes.alone _ m hlt hm hmn he fun ho => ho.2 hu) (fun _ _ => rfl)
      (fun _ _ => Iff.rfl) (fits_result (h.nodes.fits _ hlt) hu q.status)

theorem op_some {m : Nat} (hr : reply s (some m) = some r) : r.op = m := by
  obtain ⟨x, -, rfl⟩ := Option.map_eq_some_iff.mp hr
  rfl

theorem said_some {m : Nat} (hs : said s (some m)) (hr : reply s (some m) = some r) :
    s.thread m = .replying r.request := by
  obtain ⟨x, hx⟩ := hs
  obtain ⟨y, hy, rfl⟩ := Option.map_eq_some_iff.mp hr
  rw [hx] at hy
  cases hy
  exact hx

theorem inv_answer (h : Inv s) {w : Work} (hmain : s.main = .serving w r)
    (hsafe : NoThread s r.request) (o : Outcome) : Inv (answerRequest s w r o) := by
  have hr : reply s none = some r := by
    rw [reply_none, hmain]
    rfl
  refine inv_compute h hr { w.effect o r.requestId (s.request r.request) with status := w.status o }
    (Work.effect_identity o r.requestId _ w) ?_ (fun _ => rfl) ?_
  · rw [show s.main.current = some r from hr]
    split <;> rfl
  · intro w' r' hw hs hr'
    cases w' with
    | none => exact absurd rfl hw
    | some m =>
      have hx : s.thread m = .replying r'.request := said_some hs hr'
      exact ⟨⟨_, hx⟩, fun he => hsafe m (op_some hr' ▸ (h.places.work (some m) _ hr').1) (he ▸ hx)⟩

theorem inv_waited (h : Inv s) {r : Nat} (hthread : s.thread n = .waiting r)
    (hsafe : (∀ reply ∈ s.main.written, reply.request ≠ r) ∧ NoThread s r) (status : Int) :
    Inv { setResult (setRequest s r { s.request r with status := status }) n status with
      thread := update s.thread n (.replying r) } := by
  have hr : reply s (some n) = some (waitReply s n r) := by
    rw [reply_some, hthread]
    rfl
  refine inv_compute h hr { s.request r with status := status } rfl rfl
    (update_keeps Thread.current (by rw [hthread]; rfl)) ?_
  intro w' r' hw hs hr'
  cases w' with
  | none =>
    refine ⟨hs, hsafe.1 r' ?_⟩
    obtain ⟨x, hx⟩ := Option.isSome_iff_exists.mp hs
    have hc : s.main.current = some x := Main.current_of_written hx
    rw [show s.main.current = some r' from hr'] at hc
    cases hc
    exact hx
  | some m =>
    have hm : m ≠ n := fun hm => hw (congrArg some hm)
    simp only [said, Option.elim, update_of_ne hm] at hs
    have hx : s.thread m = .replying r'.request := said_some hs hr'
    refine ⟨⟨_, hx⟩, fun he => hsafe.2 m (op_some hr' ▸ (h.places.work (some m) _ hr').1) ?_⟩
    rw [hx, he]
    rfl

/-! ### The other steps of the backend -/

theorem inv_leave (h : Inv s) (hr : reply s w = some r) (hw : said s w)
    (hgone : reply { s with main := main, thread := thread } w = none)
    (hothers : ∀ w', w' ≠ w → reply { s with main := main, thread := thread } w' = reply s w')
    (hsaid : ∀ w', said { s with main := main, thread := thread } w' → said s w') :
    Inv { writeStatusId s r with main := main, thread := thread } := by
  have hreply (w' : Worker) (r' : Reply)
    (hr' : reply { s with main := main, thread := thread } w' = some r') :
      w' ≠ w ∧ reply s w' = some r' := by
    by_cases hw' : w' = w
    · rw [hw', hgone] at hr'
      cases hr'
    · exact ⟨hw', hothers w' hw' ▸ hr'⟩
  obtain ⟨hlt, hq, -, hnode⟩ := h.places.work w r hr
  have hu := unanswered_iff.mpr (.inr ⟨w, r, hr, rfl⟩)
  have hun (m : Nat) : Unanswered { writeStatusId s r with main := main, thread := thread } m ↔
      Unanswered s m ∧ m ≠ r.op := by
    rw [unanswered_iff, unanswered_iff]
    constructor
    · rintro (hm | ⟨w', r', hr', rfl⟩)
      · exact ⟨.inl hm, fun he => hq (he ▸ hm)⟩
      · obtain ⟨hne, hr'⟩ := hreply w' r' hr'
        exact ⟨.inr ⟨w', r', hr', rfl⟩, fun he => hne (h.places.one w' w r' r hr' hr he)⟩
    · rintro ⟨hm | ⟨w', r', hr', rfl⟩, hne⟩
      · exact .inl hm
      · refine .inr ⟨w', r', (hothers w' fun hw' => ?_).trans hr', rfl⟩
        rw [hw', hr] at hr'
        exact hne (congrArg Reply.op (Option.some.inj hr').symm)
  refine ⟨?_, ?_, ?_⟩
  · exact places_mono (s := s) h.places (fun _ => rfl) (fun _ => rfl) (fun _ _ hi => hi)
      fun w' r' hr' => (hreply w' r' hr').2
  · exact status_mono (s := s) h.status (fun _ => rfl) (fun _ => rfl)
      (fun w' r' hr' => (hreply w' r' hr').2) hsaid
  · have hwritten := nodes_update (n := r.op) (t := (writeStatusId s r).store) h.nodes (s.op r.op)
      (fun _ hm _ => hm) (fun m hm hmn he => h.nodes.alone _ m hlt hm hmn he fun ho => ho.2 hu)
      (fun node hne => update_of_ne (hnode ▸ hne) ..)
      (fun m hm => (hun m).trans (and_iff_left hm)) ?_
    · rwa [update_eq_self] at hwritten
    · simp only [writeStatusId, hnode, update_self]
      exact fits_written (h.nodes.fits _ hlt) hu (h.status w r hr hw) fun h' =>
        ((hun _).mp h').2 rfl

theorem inv_reply (h : Inv s) (hmain : s.main = .replying r) :
    Inv { writeStatusId s r with main := .reaping 0 } := by
  apply inv_leave (w := none) h
  · rw [reply_none, hmain]
    rfl
  · rw [said, hmain]
    rfl
  · rfl
  · intro w' hw'
    cases w' with
    | none => exact absurd rfl hw'
    | some m => rfl
  · intro w' hs
    cases w' with
    | none => cases hs
    | some m => exact hs

theorem replying_update {m r : Nat} (h : update s.thread n th m = .replying r)
    (hth : ∀ r, th ≠ .replying r) : s.thread m = .replying r := by
  by_cases hm : m = n
  · rw [hm, update_self] at h
    exact absurd h (hth r)
  · rwa [update_of_ne hm] at h

theorem said_update (hth : ∀ r, th ≠ .replying r) (w : Worker)
    (h : said { s with thread := update s.thread n th } w) : said s w := by
  cases w with
  | none => exact h
  | some m =>
    obtain ⟨x, hx⟩ := h
    exact ⟨x, replying_update hx hth⟩

theorem inv_threadReply (h : Inv s) {r : Nat} (hthread : s.thread n = .replying r) :
    Inv { writeStatusId s (waitReply s n r) with thread := update s.thread n (.exiting r) } := by
  apply inv_leave (w := some n) h
  · rw [reply_some, hthread]
    rfl
  · exact ⟨r, hthread⟩
  · simp only [reply_some, update_self]
    rfl
  · intro w' hw'
    cases w' with
    | none => rfl
    | some m =>
      have hm : m ≠ n := fun hm => hw' (congrArg some hm)
      simp only [reply_some, update_of_ne hm]
      rfl
  · exact said_update nofun

theorem inv_stay (h : Inv s) (hstore : ∀ n, store (s.op n).node = s.store (s.op n).node)
    (hids : ∀ r, (request r).identity = (s.request r).identity)
    (hstatus : ∀ r, (request r).status = (s.request r).status)
    (hactive : ∀ i r, active i = some r → s.activeRequests i = some r)
    (hmain : main.current = s.main.current)
    (hthread : ∀ n, (thread n).current = (s.thread n).current)
    (hsaid : ∀ w, said { s with main := main, thread := thread } w → said s w) :
    Inv { s with
      store := store, request := request, activeRequests := active
      main := main, thread := thread } := by
  have hreply (w : Worker) : reply { s with request := request, main := main, thread := thread } w =
      reply s w :=
    reply_congr hids hmain hthread
  refine ⟨?_, ?_, ?_⟩
  · exact places_mono h.places (fun _ => rfl) hids hactive fun w r => hreply w ▸ id
  · exact status_mono h.status (fun _ => rfl) hstatus (fun w r => hreply w ▸ id) hsaid
  · refine nodes_congr (s := s) ?_ rfl hreply
    refine ⟨h.nodes.alone, fun n hn => ?_⟩
    simp only [hstore]
    exact h.nodes.fits n hn

theorem inv_writeBytes (h : Inv s) {buffer : List UInt8} (hmain : s.main = .bytes r buffer) :
    Inv { s with store := update s.store (bytesNode s r) (some buffer), main := .replying r } := by
  refine inv_stay h ?_ (fun _ => rfl) (fun _ => rfl) (fun _ _ hi => hi) (by rw [hmain]; rfl)
    (fun _ => rfl) ?_
  · exact fun n => update_of_ne (bytes_ne_statusNode _ _ _ _ _).symm ..
  · intro w hs
    cases w with
    | none => rw [said, hmain]; rfl
    | some m => exact hs

theorem inv_threadExit (h : Inv s) {r : Nat} (hthread : s.thread n = .exiting r) :
    Inv { setRequest s r { s.request r with pid := -1 } with
      thread := update s.thread n .absent } :=
  inv_stay (s := s) h (fun _ => rfl) (update_keeps Request.identity rfl) (update_keeps Request.status rfl)
    (fun _ _ hi => hi) rfl (update_keeps Thread.current (by rw [hthread]; rfl)) (said_update nofun)

theorem of_update_none {j r : Nat} (h : update active i none j = some r) : active j = some r := by
  rw [update_apply] at h
  split at h
  · cases h
  · exact h

theorem inv_reaping (h : Inv s) (hmain : s.main = .reaping i)
    (hactive : ∀ j r, active j = some r → s.activeRequests j = some r) (hm : m.current = none)
    (hw : m.written = none) : Inv { s with activeRequests := active, main := m } := by
  refine inv_stay h (fun _ => rfl) (fun _ => rfl) (fun _ => rfl) hactive (by rw [hm, hmain]; rfl)
    (fun _ => rfl) ?_
  intro w hs
  cases w with
  | none =>
    simp only [said, hw] at hs
    cases hs
  | some m => exact hs

theorem inv_reap (h : Inv s) (hmain : s.main = .reaping i) :
    Inv { reapRequest s i with main := .reaping (i + 1) } := by
  unfold reapRequest
  split
  · exact inv_reaping h hmain (fun _ _ hi => hi) rfl rfl
  · split
    · exact inv_reaping (s := s) h hmain (fun _ _ hi => of_update_none hi) rfl rfl
    · exact inv_reaping h hmain (fun _ _ hi => hi) rfl rfl

/-! ## Agreement -/

theorem inv_step {a : Label} (h : Inv s) (hok : safeStep s a) (hs : step s a = some t) : Inv t := by
  cases a with
  | issue selfId k id =>
    cases hs
    exact inv_issue h hok
  | poll n =>
    simp only [step] at hs
    split at hs
    · rename_i hn
      split at hs <;> cases hs
      rename_i retry hop
      exact inv_poll h hn hop
    · cases hs
  | remove n =>
    simp only [step] at hs
    split at hs
    · rename_i hn
      split at hs <;> cases hs
      rename_i read hop
      exact inv_remove h hn hop
    · cases hs
  | take memory =>
    simp only [step] at hs
    split at hs <;> cases hs
    rename_i path n rest hmain hev
    exact inv_take h hmain hev memory (hok (path, n) (by rw [hev]; rfl))
  | answer o =>
    simp only [step] at hs
    split at hs <;> cases hs
    rename_i w r hmain
    exact inv_answer h hmain (hok r (by rw [hmain]; rfl)) o
  | writeBytes =>
    simp only [step] at hs
    split at hs <;> cases hs
    rename_i r buffer hmain
    exact inv_writeBytes h hmain
  | reply =>
    simp only [step] at hs
    split at hs <;> cases hs
    rename_i r hmain
    exact inv_reply h hmain
  | reap =>
    simp only [step] at hs
    split at hs
    · rename_i i hmain
      split at hs
      · cases hs
        exact inv_reap h hmain
      · cases hs
        exact inv_reaping h hmain (fun _ _ hi => hi) rfl rfl
    · cases hs
  | waited n status =>
    simp only [step] at hs
    split at hs <;> cases hs
    rename_i r hthread
    exact inv_waited h hthread (hok r (by rw [hthread]; rfl)) status
  | threadReply n =>
    simp only [step] at hs
    split at hs <;> cases hs
    rename_i r hthread
    exact inv_threadReply h hthread
  | threadExit n =>
    simp only [step] at hs
    split at hs <;> cases hs
    rename_i r hthread
    exact inv_threadExit h hthread

theorem main_proceeds (h : s.main ≠ .idle) : ∃ a t, a.ofBackend = true ∧ step s a = some t := by
  cases hmain : s.main with
  | idle => exact absurd hmain h
  | serving w r =>
    exact ⟨.answer ⟨none, none, fun _ => 0, []⟩, answerRequest s w r ⟨none, none, fun _ => 0, []⟩,
      rfl, by simp only [step, hmain]⟩
  | bytes r buffer =>
    exact ⟨.writeBytes,
      { s with store := update s.store (bytesNode s r) (some buffer), main := .replying r },
      rfl, by simp only [step, hmain]⟩
  | replying r =>
    exact ⟨.reply, { writeStatusId s r with main := .reaping 0 }, rfl, by simp only [step, hmain]⟩
  | reaping i =>
    by_cases hi : i < maxActiveRequests
    · exact ⟨.reap, { reapRequest s i with main := .reaping (i + 1) },
        rfl, by simp only [step, hmain, if_pos hi]⟩
    · exact ⟨.reap, { s with main := .idle }, rfl, by simp only [step, hmain, if_neg hi]⟩

theorem proceeds (h : Unanswered s n) : ∃ a t, a.ofBackend = true ∧ step s a = some t := by
  by_cases hmain : s.main = .idle
  · rcases h with h | h | h
    · cases hev : s.events with
      | nil =>
        rw [queued, hev] at h
        cases h
      | cons e rest =>
        obtain ⟨path, m⟩ := e
        exact ⟨.take (s.request 0), takeEvent { s with events := rest } path m (s.request 0), rfl,
          by simp only [step, hmain, hev]⟩
    · rw [hmain] at h
      cases h
    · cases hthread : s.thread n with
      | absent | exiting r =>
        rw [hthread] at h
        cases h
      | waiting r =>
        exact ⟨.waited n 0, _, rfl, by simp only [step, hthread]; rfl⟩
      | replying r =>
        exact ⟨.threadReply n, _, rfl, by simp only [step, hthread]; rfl⟩
  · exact main_proceeds hmain

theorem agreement_of_inv (h : Inv s) : Agreement s where
  own n v hn hv := ((h.nodes.fits n hn).own v hv).2
  reads n hn hp := (h.nodes.fits n hn).gaveUp (.inr hp)
  waits n retry hn hp := by
    by_cases hu : Unanswered s n
    · refine .inr ?_
      rcases hu with hu | hu
      · exact .inl hu
      · refine .inr ?_
        rcases hu with hu | hu
        · obtain ⟨r, hr, he⟩ := Option.map_eq_some_iff.mp hu
          exact .inl ⟨r, hr, he, he ▸ (h.places.work none r hr).2.2.2⟩
        · obtain ⟨r, hr⟩ := Option.isSome_iff_exists.mp hu
          exact .inr ⟨r, hr, (h.places.work (some n) _ (congrArg (Option.map _) hr)).2.2.2⟩
    · exact .inl ((h.nodes.fits n hn).present retry hu hp)
  proceeds n hu := ExecStatus.proceeds hu

/-- In every run in which operations on one node follow each other, destroys name requests that
the backend does not know, reads, writes and closes name a known request or the request's own id,
and no `status` is overwritten before it is in its node: whatever `wait_for_status` reads is the
result computed for its own operation, and every polled node is there or still to be written. -/
theorem exec_status_agreement (s : State) (h : Reach step safeStep Initial s) : Agreement s := by
  apply agreement_of_inv
  apply Reach.invariant (fun s hs => inv_initial hs) _ h
  intro s a t hi hok hs
  exact inv_step hi hok hs

theorem exec_status_agreement_concurrent : ∃ s, Reach step safeStep Initial s ∧ Agreement s ∧
    (s.op 1).phase = .returned (some 7) ∧ (s.op 2).phase = .returned (some 0) := by
  have h₀ : Reach step safeStep Initial start := .start start_initial
  obtain ⟨s, hreach, hphases⟩ := h₀.runGuardedTo
    (P := fun s => (s.op 1).phase = .returned (some 7) ∧ (s.op 2).phase = .returned (some 0))
    (started ++ handed 0 ++ [.poll 1] ++ served .write 0 ++
      [.waited 1 7, .poll 2, .threadReply 1, .remove 2, .poll 1, .remove 1])
    (by decide +kernel)
  exact ⟨s, hreach, exec_status_agreement s hreach, hphases⟩

end Guk.ExecStatus
