import Guk.Runs
import Guk.XenbusRing
import Mathlib.Data.Nat.Find

/-!
# The reader of the response ring (`xenbus_thread_func`)

Xenstored stores the bytes of a sequence of messages one after the other in the
response ring, never more than the ring holds ahead of `rsp_cons`, and now and
then publishes in `rsp_prod` how far it has got. `xenbus_thread_func` takes out
one message after the other and waits where the ring holds no whole message. The
producer index may move between any two of its readings of it.

Indices keep their unwrapped value; the code's comparisons are made modulo
`2 ^ 32`. What is done with a message, and the sleep inside `wait_event`, are not
part of this model.
-/
namespace Guk.XenbusStream

open Guk.Ring Runs XenbusRing Function List

structure Message where
  type : UInt32
  reqId : UInt32
  txId : UInt32
  payload : List UInt8
  small : payload.length < 2 ^ 32

def Message.header (m : Message) : Sockmsg :=
  ⟨m.type, m.reqId, m.txId, UInt32.ofNat m.payload.length⟩

def Message.bytes (m : Message) : List UInt8 := m.header.bytes ++ m.payload

def stream (ms : List Message) : List UInt8 := ms.flatMap Message.bytes

inductive Pc where
  /-- `wait_event(xb_waitq, (prod != xenstore_buf->rsp_prod) || suspend)` -/
  | wait
  /-- `prod = xenstore_buf->rsp_prod` -/
  | load
  /-- `xenstore_buf->rsp_prod - xenstore_buf->rsp_cons < sizeof(msg)` -/
  | testHeader
  | header
  /-- `xenstore_buf->rsp_prod - xenstore_buf->rsp_cons < sizeof(msg) + msg.len` -/
  | testMsg (msg : List UInt8)
  | copy (msg : List UInt8)
  /-- `xenstore_buf->rsp_cons += msg.len + sizeof(msg)` -/
  | advance (msg whole : List UInt8)
  deriving DecidableEq, Repr

/-- `written` counts the bytes that xenstored has stored, `prod` is the reader's local variable and
`extracted` the messages it has taken, header and whole message as it has copied them. -/
structure State where
  ring : Nat → UInt8
  written : Nat
  rspProd : Nat
  rspCons : Nat
  pc : Pc
  prod : Nat
  extracted : List (List UInt8 × List UInt8)

inductive Label where
  | store
  | publish (prod : Nat)
  | reader
  /-- the reader leaves `wait_event` because of `suspend`, and is resumed -/
  | resume

def Initial (s : State) : Prop :=
  s.written = 0 ∧ s.rspProd = 0 ∧ s.rspCons = 0 ∧ s.pc = .wait ∧ s.prod = 0 ∧ s.extracted = []

def msgLen (msg : List UInt8) : Nat := (Sockmsg.ofBytes msg).len.toNat + sizeofMsg

section

variable (r : RingSize) (ms : List Message)

def reader (s : State) : State :=
  match s.pc with
  | .wait => if sameIdx s.prod s.rspProd then s else { s with pc := .load }
  | .load => { s with prod := s.rspProd, pc := .testHeader }
  | .testHeader =>
      { s with pc := if subIdx s.rspProd s.rspCons < sizeofMsg then .wait else .header }
  | .header =>
      { s with pc := .testMsg (memcpyFromRing r.size s.ring (s.rspCons % r.size) sizeofMsg) }
  | .testMsg msg =>
      { s with pc := if subIdx s.rspProd s.rspCons < msgLen msg then .wait else .copy msg }
  | .copy msg =>
    { s with pc := .advance msg (memcpyFromRing r.size s.ring (s.rspCons % r.size) (msgLen msg)) }
  | .advance msg whole =>
    { s with
      rspCons := s.rspCons + msgLen msg, extracted := s.extracted ++ [(msg, whole)], pc := .load }

def step (s : State) : Label → Option State
  | .store =>
    if s.written < s.rspCons + r.size then
      (stream ms)[s.written]?.map fun b =>
        { s with ring := update s.ring (s.written % r.size) b, written := s.written + 1 }
    else none
  | .publish prod =>
    if s.rspProd ≤ prod ∧ prod ≤ s.written then some { s with rspProd := prod } else none
  | .reader => some (reader r s)
  | .resume => if s.pc = .wait then some { s with pc := .load } else none

def Quiet (s : State) : Prop := s.pc = .wait ∧ sameIdx s.prod s.rspProd

def copies (n : Nat) : List (List UInt8 × List UInt8) :=
  (ms.take n).map fun m => (m.header.bytes, m.bytes)

structure Reassembled (s : State) : Prop where
  extracted : s.extracted = copies ms s.extracted.length
  cons : sameIdx s.rspCons (s.extracted.map fun m => m.2.length).sum
  complete : s.rspProd = (stream ms).length →
    ∃ n, Quiet ((reader r)^[n] s) ∧ ((reader r)^[n] s).extracted = copies ms ms.length

def Stuck (s : State) : Prop :=
  subIdx s.rspProd s.rspCons = r.size ∧
    ∃ n, Quiet ((reader r)^[n] s) ∧ ((reader r)^[n] s).rspCons = s.rspCons

def PcFacts (s : State) : Prop :=
  match s.pc with
  | .wait => s.rspCons ≤ s.prod ∧
      ∀ m, ms[s.extracted.length]? = some m → s.prod < s.rspCons + m.bytes.length
  | .load => True
  | .testHeader => s.rspCons ≤ s.prod
  | .header => s.rspCons ≤ s.prod ∧ s.rspCons + sizeofMsg ≤ s.rspProd
  | .testMsg msg => s.rspCons ≤ s.prod ∧
      ∃ m, ms[s.extracted.length]? = some m ∧ msg = m.header.bytes
  | .copy msg => ∃ m, ms[s.extracted.length]? = some m ∧ msg = m.header.bytes ∧
      s.rspCons + m.bytes.length ≤ s.rspProd
  | .advance msg whole => ∃ m, ms[s.extracted.length]? = some m ∧ msg = m.header.bytes ∧
      whole = m.bytes ∧ s.rspCons + m.bytes.length ≤ s.rspProd

structure Inv (s : State) : Prop where
  extracted : s.extracted = copies ms s.extracted.length
  cons : s.rspCons = (stream (ms.take s.extracted.length)).length
  consProd : s.rspCons ≤ s.rspProd
  prodWritten : s.rspProd ≤ s.written
  written : s.written ≤ (stream ms).length
  bound : s.written ≤ s.rspCons + r.size
  seen : s.prod ≤ s.rspProd
  bytes : ∀ i, s.rspCons ≤ i → i < s.written → (stream ms)[i]? = some (s.ring (i % r.size))
  pc : PcFacts ms s

end

def noMessages : State := ⟨fun _ => 0, 0, 0, 0, .wait, 0, []⟩

theorem noMessages_initial : Initial noMessages := ⟨rfl, rfl, rfl, rfl, rfl, rfl⟩

/-! ## The stream -/

variable {r : RingSize} {ms : List Message} {m : Message} {s t : State} {n k : Nat}

theorem Message.length_bytes (m : Message) : m.bytes.length = sizeofMsg + m.payload.length := by
  rw [Message.bytes, length_append, Sockmsg.length_bytes]

theorem msgLen_header (m : Message) : msgLen m.header.bytes = m.bytes.length := by
  rw [msgLen, Sockmsg.ofBytes_bytes, Message.length_bytes, Message.header,
    UInt32.toNat_ofNat_of_lt' m.small, Nat.add_comm]

theorem stream_take_succ (h : ms[k]? = some m) :
    stream (ms.take (k + 1)) = stream (ms.take k) ++ m.bytes := by
  rw [take_add_one, h, Option.toList_some, stream, flatMap_append, flatMap_singleton]
  rfl

theorem length_stream_take_le (hk : k ≤ n) :
    (stream (ms.take k)).length ≤ (stream (ms.take n)).length := by
  rw [← take_append_drop k (ms.take n), take_take, Nat.min_eq_left hk, stream, stream,
    flatMap_append, length_append]
  exact Nat.le_add_right _ _

theorem length_stream_take_lt (hk : k < n) (hn : n ≤ ms.length) :
    (stream (ms.take k)).length < (stream (ms.take n)).length := by
  have hm : ms[k]? = some (ms.get ⟨k, by omega⟩) := List.getElem?_eq_getElem _
  have hle : (stream (ms.take (k + 1))).length ≤ _ := length_stream_take_le hk
  rw [stream_take_succ hm, length_append, Message.length_bytes] at hle
  unfold sizeofMsg at hle
  omega

theorem stream_drop (h : ms[k]? = some m) :
    (stream ms).drop (stream (ms.take k)).length = m.bytes ++ stream (ms.drop (k + 1)) := by
  have hsplit : stream ms = stream (ms.take k) ++ (m.bytes ++ stream (ms.drop (k + 1))) := by
    rw [← append_assoc, ← stream_take_succ h, stream, stream, stream, ← flatMap_append,
      take_append_drop]
  rw [hsplit, drop_left]

theorem length_copies (n : Nat) :
    ((copies ms n).map fun m => m.2.length).sum = (stream (ms.take n)).length := by
  rw [copies, map_map, stream, length_flatMap]
  rfl

/-! ## The invariant -/

theorem inv_initial (h : Initial s) : Inv r ms s := by
  obtain ⟨hwritten, hprod, hcons, hpc, hlocal, hext⟩ := h
  refine ⟨?_, ?_, by omega, by omega, by omega, by omega, by omega, ?_, ?_⟩
  · rw [hext]
    rfl
  · rw [hext, hcons]
    rfl
  · intro i _ hi
    omega
  · simp only [PcFacts, hpc, hlocal, hcons]
    refine ⟨le_refl 0, fun m _ => ?_⟩
    rw [Message.length_bytes]
    unfold sizeofMsg
    omega

section

variable (h : Inv r ms s)

include h

theorem subIdx_prod : subIdx s.rspProd s.rspCons = s.rspProd - s.rspCons := by
  have hbound := h.bound
  have hwritten := h.prodWritten
  have hlt := r.size_lt
  exact subIdx_eq h.consProd (by omega)

theorem segment_of_stream {l rest : List UInt8}
    (hl : (stream ms).drop s.rspCons = l ++ rest) (hlen : s.rspCons + l.length ≤ s.written) :
    Segment s.ring r.size s.rspCons l := by
  rw [segment_iff]
  intro i hi
  have hring := h.bytes (s.rspCons + i) (Nat.le_add_right _ _) (by omega)
  rw [← List.getElem?_drop, hl, List.getElem?_append_left hi, List.getElem?_eq_getElem hi] at hring
  exact (Option.some.inj hring).symm

theorem memcpyFromRing_stream {l rest : List UInt8}
    (hl : (stream ms).drop s.rspCons = l ++ rest) (hlen : s.rspCons + l.length ≤ s.rspProd) :
    memcpyFromRing r.size s.ring (s.rspCons % r.size) l.length = l := by
  have hprod := h.prodWritten
  have hbound := h.bound
  exact memcpyFromRing_eq (by omega) (segment_of_stream h hl (by omega))

theorem exists_next (hlt : s.rspCons < s.rspProd) : ∃ m, ms[s.extracted.length]? = some m := by
  by_contra hno
  have hnone := Option.eq_none_iff_forall_ne_some.mpr fun m hm => hno ⟨m, hm⟩
  have hcons := h.cons
  rw [take_of_length_le (List.getElem?_eq_none_iff.mp hnone)] at hcons
  have hwritten := h.written
  have hprod := h.prodWritten
  omega

theorem next_drop (hm : ms[s.extracted.length]? = some m) :
    (stream ms).drop s.rspCons = m.bytes ++ stream (ms.drop (s.extracted.length + 1)) := by
  rw [h.cons, stream_drop hm]

theorem inv_wait (hcons : s.rspCons ≤ s.prod)
    (hm : ∀ m, ms[s.extracted.length]? = some m → s.rspProd < s.rspCons + m.bytes.length) :
    Inv r ms { s with pc := .wait } :=
  { h with pc := ⟨hcons, fun m hnext => lt_of_le_of_lt h.seen (hm m hnext)⟩ }

theorem inv_advance {msg whole : List UInt8} (hpc : s.pc = .advance msg whole) : Inv r ms { s with
      rspCons := s.rspCons + msgLen msg, extracted := s.extracted ++ [(msg, whole)], pc :=
        .load } := by
  have hfacts := h.pc
  simp only [PcFacts, hpc] at hfacts
  obtain ⟨m, hm, rfl, rfl, hprod⟩ := hfacts
  have hlen : (s.extracted ++ [(m.header.bytes, m.bytes)]).length = s.extracted.length + 1 := by
    rw [length_append, length_singleton]
  rw [msgLen_header]
  refine ⟨?_, ?_, hprod, h.prodWritten, h.written, ?_, h.seen, ?_, trivial⟩
  · simp only [hlen]
    rw [copies, take_add_one, hm, Option.toList_some, map_append, ← copies, ← h.extracted,
      map_singleton]
  · simp only [hlen]
    rw [stream_take_succ hm, length_append, ← h.cons]
  · have hbound := h.bound
    simp only
    omega
  · intro i hi
    exact h.bytes i (le_trans (Nat.le_add_right _ _) hi)

theorem inv_reader : Inv r ms (reader r s) := by
  have hsub := subIdx_prod h
  have hfacts := h.pc
  unfold reader
  cases hpc : s.pc with
  | wait =>
    simp only
    split
    · exact h
    · exact { h with pc := trivial }
  | load => exact { h with seen := le_rfl, pc := h.consProd }
  | testHeader =>
    simp only [PcFacts, hpc] at hfacts
    simp only [hsub]
    split
    · apply inv_wait h hfacts
      intro m _
      rw [Message.length_bytes]
      omega
    · exact { h with pc := ⟨hfacts, by have := h.consProd; simp only; omega⟩ }
  | header =>
    simp only [PcFacts, hpc] at hfacts
    obtain ⟨m, hm⟩ := exists_next h (by unfold sizeofMsg at hfacts; omega)
    have hdrop := next_drop h hm
    rw [Message.bytes, append_assoc] at hdrop
    have hcopy := memcpyFromRing_stream h hdrop hfacts.2
    rw [Sockmsg.length_bytes] at hcopy
    exact { h with pc := ⟨hfacts.1, m, hm, hcopy⟩ }
  | testMsg msg =>
    simp only [PcFacts, hpc] at hfacts
    obtain ⟨hcons, m, hm, rfl⟩ := hfacts
    simp only [hsub, msgLen_header]
    split
    · apply inv_wait h hcons
      intro m' hm'
      cases hm.symm.trans hm'
      omega
    · exact { h with pc := ⟨m, hm, rfl, by have := h.consProd; simp only; omega⟩ }
  | copy msg =>
    simp only [PcFacts, hpc] at hfacts
    obtain ⟨m, hm, rfl, hprod⟩ := hfacts
    have hcopy := memcpyFromRing_stream h (next_drop h hm) hprod
    exact { h with pc := ⟨m, hm, rfl, by rw [msgLen_header, hcopy], hprod⟩ }
  | advance msg whole => exact inv_advance h hpc

end

theorem pcFacts_publish {prod : Nat} (h : PcFacts ms s) (hle : s.rspProd ≤ prod) :
    PcFacts ms { s with rspProd := prod } := by
  unfold PcFacts at h ⊢
  cases hpc : s.pc with
  | load => trivial
  | wait | testHeader | testMsg msg =>
    simp only [hpc] at h ⊢
    exact h
  | header =>
    simp only [hpc] at h ⊢
    exact ⟨h.1, le_trans h.2 hle⟩
  | copy msg =>
    simp only [hpc] at h ⊢
    obtain ⟨m, hm, hmsg, hprod⟩ := h
    exact ⟨m, hm, hmsg, le_trans hprod hle⟩
  | advance msg whole =>
    simp only [hpc] at h ⊢
    obtain ⟨m, hm, hmsg, hwhole, hprod⟩ := h
    exact ⟨m, hm, hmsg, hwhole, le_trans hprod hle⟩

theorem inv_store {b : UInt8} (h : Inv r ms s) (hlt : s.written < s.rspCons + r.size)
    (hb : (stream ms)[s.written]? = some b) :
    Inv r ms { s with
      ring := update s.ring (s.written % r.size) b, written := s.written + 1 } := by
  have hcons := h.consProd
  have hprod := h.prodWritten
  obtain ⟨hw, -⟩ := List.getElem?_eq_some_iff.mp hb
  refine ⟨h.extracted, h.cons, hcons, Nat.le_succ_of_le hprod, hw, hlt, h.seen, ?_, h.pc⟩
  intro i hi hi'
  by_cases he : i = s.written
  · simp only [he, update_self]
    exact hb
  · have hi' : i < s.written := by
      simp only at hi'
      omega
    have hne := slot_ne s.rspCons hi (by omega) (by omega) hlt he
    simp only [update_of_ne hne]
    exact h.bytes i hi hi'

theorem inv_step {a : Label} (h : Inv r ms s) (hs : step r ms s a = some t) : Inv r ms t := by
  cases a with
  | store =>
    obtain ⟨hlt, hs⟩ := Option.ite_none_right_eq_some.mp hs
    obtain ⟨b, hb, hs⟩ := Option.map_eq_some_iff.mp hs
    subst hs
    exact inv_store h hlt hb
  | publish prod =>
    obtain ⟨⟨hle, hwritten⟩, rfl⟩ := of_when hs
    exact { h with
      consProd := le_trans h.consProd hle
      prodWritten := hwritten
      seen := le_trans h.seen hle
      pc := pcFacts_publish h.pc hle }
  | reader =>
    cases hs
    exact inv_reader h
  | resume =>
    obtain ⟨-, rfl⟩ := of_when hs
    exact { h with pc := trivial }

theorem inv_of_reach (h : Reach (step r ms) anyStep Initial s) : Inv r ms s := by
  apply h.invariant (fun _ => inv_initial)
  intro s a t hi _ hs
  exact inv_step hi hs

/-! ## The reader alone -/

theorem reader_xenstored (s : State) :
    (reader r s).rspProd = s.rspProd ∧ (reader r s).written = s.written := by
  unfold reader
  cases s.pc with
  | wait =>
    simp only
    split <;> exact ⟨rfl, rfl⟩
  | _ => exact ⟨rfl, rfl⟩

theorem length_extracted_reader (s : State) :
    s.extracted.length ≤ (reader r s).extracted.length := by
  unfold reader
  cases s.pc with
  | wait =>
    simp only
    split <;> exact le_rfl
  | advance msg whole => simp
  | _ => exact le_rfl

def Pc.rank : Pc → Bool → Nat
  | .load, _ => 6
  | .wait, old => if old then 7 else 0
  | .testHeader, old => if old then 11 else 5
  | .header, old => if old then 10 else 4
  | .testMsg _, old => if old then 9 else 3
  | .copy _, old => if old then 8 else 2
  | .advance _ _, _ => 1

def toGo (ms : List Message) (s : State) : Nat :=
  12 * (ms.length - s.extracted.length) + s.pc.rank (decide (s.prod ≠ s.rspProd))

theorem toGo_reader (h : Inv r ms s) (hbusy : ¬ Quiet s) : toGo ms (reader r s) < toGo ms s := by
  have hfacts := h.pc
  unfold toGo reader
  cases hpc : s.pc with
  | wait =>
    have hnew : ¬ sameIdx s.prod s.rspProd := fun hsame => hbusy ⟨hpc, hsame⟩
    have hne : s.prod ≠ s.rspProd := fun he => hnew (by rw [he]; rfl)
    simp [hnew, hne, Pc.rank]
  | load => simp [Pc.rank]
  | testHeader | testMsg msg =>
    simp only
    split <;> by_cases hold : s.prod = s.rspProd <;> simp [Pc.rank, hold]
  | header | copy msg => by_cases hold : s.prod = s.rspProd <;> simp [Pc.rank, hold]
  | advance msg whole =>
    simp only [PcFacts, hpc] at hfacts
    obtain ⟨m, hm, -⟩ := hfacts
    obtain ⟨hlt, -⟩ := List.getElem?_eq_some_iff.mp hm
    simp only [Pc.rank, length_append, length_singleton]
    omega

theorem exists_quiet (h : Inv r ms s) : ∃ n, Quiet ((reader r)^[n] s) := by
  induction hgo : toGo ms s using Nat.strong_induction_on generalizing s with
  | _ go ih =>
    by_cases hq : Quiet s
    · exact ⟨0, hq⟩
    · obtain ⟨n, hn⟩ := ih _ (hgo ▸ toGo_reader h hq) (inv_reader h) rfl
      exact ⟨n + 1, hn⟩

theorem inv_readers (h : Inv r ms s) (n : Nat) : Inv r ms ((reader r)^[n] s) := by
  induction n generalizing s with
  | zero => exact h
  | succ n ih => exact ih (inv_reader h)

theorem readers_rspProd (n : Nat) (s : State) : ((reader r)^[n] s).rspProd = s.rspProd := by
  induction n generalizing s with
  | zero => rfl
  | succ n ih => rw [iterate_succ_apply, ih, (reader_xenstored s).1]

theorem readers_written (n : Nat) (s : State) : ((reader r)^[n] s).written = s.written := by
  induction n generalizing s with
  | zero => rfl
  | succ n ih => rw [iterate_succ_apply, ih, (reader_xenstored s).2]

theorem length_extracted_readers (n : Nat) (s : State) :
    s.extracted.length ≤ ((reader r)^[n] s).extracted.length := by
  induction n generalizing s with
  | zero => exact le_rfl
  | succ n ih => exact le_trans (length_extracted_reader s) (ih (reader r s))

theorem reach_readers (h : Reach (step r ms) anyStep Initial s) (n : Nat) :
    Reach (step r ms) anyStep Initial ((reader r)^[n] s) := by
  induction n generalizing s with
  | zero => exact h
  | succ n ih => exact ih (.next .reader h trivial rfl)

theorem quiet_short (h : Inv r ms s) (hq : Quiet s) (hm : ms[s.extracted.length]? = some m) :
    s.rspProd < s.rspCons + m.bytes.length := by
  obtain ⟨hpc, hsame⟩ := hq
  have hfacts := h.pc
  simp only [PcFacts, hpc] at hfacts
  have hprod := h.prodWritten
  have hbound := h.bound
  have hseen := h.seen
  have hlt := r.size_lt
  have he := (sameIdx_iff (by omega) (by omega)).mp hsame
  rw [← he]
  exact hfacts.2 m hm

theorem next_le_stream (h : Inv r ms s) (hm : ms[s.extracted.length]? = some m) :
    s.rspCons + m.bytes.length ≤ (stream ms).length := by
  have hle :
      (stream (ms.take (s.extracted.length + 1))).length ≤ (stream (ms.take ms.length)).length :=
    length_stream_take_le (List.getElem?_eq_some_iff.mp hm).1
  rw [stream_take_succ hm, length_append, ← h.cons, take_length] at hle
  exact hle

theorem length_extracted_le (h : Inv r ms s) : s.extracted.length ≤ ms.length := by
  have hlen := congrArg List.length h.extracted
  rw [copies, length_map, length_take] at hlen
  omega

theorem length_extracted_of_quiet (h : Inv r ms s) (hq : Quiet s) (hn : n ≤ ms.length)
    (hprod : s.rspProd = (stream (ms.take n)).length) : s.extracted.length = n := by
  have hle := length_extracted_le h
  rcases Nat.lt_trichotomy s.extracted.length n with hlt | he | hlt
  · have hm : ms[s.extracted.length]? = some (ms.get ⟨s.extracted.length, by omega⟩) :=
      List.getElem?_eq_getElem _
    have hshort := quiet_short h hq hm
    have htake : (stream (ms.take (s.extracted.length + 1))).length ≤ _ := length_stream_take_le hlt
    rw [stream_take_succ hm, length_append, ← h.cons] at htake
    omega
  · exact he
  · have htake := length_stream_take_lt hlt hle
    have hcons := h.consProd
    rw [← h.cons] at htake
    omega

/-- However xenstored fragments the stream, the reader extracts the messages that were sent. -/
theorem stream_reassembled (r : RingSize) (ms : List Message) (s : State)
    (h : Reach (step r ms) anyStep Initial s) : Reassembled r ms s := by
  have hinv := inv_of_reach h
  refine ⟨hinv.extracted, ?_, ?_⟩
  · rw [hinv.cons, ← length_copies, ← hinv.extracted]
    rfl
  · intro hall
    obtain ⟨n, hn⟩ := exists_quiet hinv
    have hrest := inv_readers hinv n
    have hlen : ((reader r)^[n] s).extracted.length = ms.length :=
      length_extracted_of_quiet hrest hn le_rfl (by rw [readers_rspProd, hall, take_length])
    exact ⟨n, hn, by rw [hrest.extracted, hlen]⟩

theorem second_message_reassembled :
    let ms : List Message := [⟨2, 0, 0, [65, 0], by decide⟩, ⟨2, 1, 0, [66, 0], by decide⟩]
    ∃ s, s.extracted.length = 2 ∧ s.rspCons = 36 ∧ Reassembled ⟨5, by decide⟩ ms s := by
  intro ms
  have h₀ : Reach (step ⟨5, by decide⟩ ms) anyStep Initial noMessages := .start noMessages_initial
  obtain ⟨s, hs, hlength, hcons⟩ := h₀.runTo (P := fun s => s.extracted.length = 2 ∧ s.rspCons = 36)
    (List.replicate 18 .store ++ .publish 18 :: List.replicate 7 .reader ++
      List.replicate 10 .store ++ .publish 28 :: List.replicate 6 .reader ++
      List.replicate 8 .store ++ .publish 36 :: List.replicate 7 .reader)
    (by decide +kernel)
  exact ⟨s, hlength, hcons, stream_reassembled _ ms s hs⟩

/-! ## Messages longer than the ring -/

theorem reach_store (h : Reach (step r ms) anyStep Initial s)
    (hroom : s.written + n ≤ s.rspCons + r.size) (hstream : s.written + n ≤ (stream ms).length) :
    ∃ ring, Reach (step r ms) anyStep Initial
      { s with ring := ring, written := s.written + n } := by
  induction n with
  | zero => exact ⟨s.ring, h⟩
  | succ n ih =>
    obtain ⟨ring, hn⟩ := ih (by omega) (by omega)
    have hb : (stream ms)[s.written + n]? = some ((stream ms).get ⟨s.written + n, by omega⟩) :=
      List.getElem?_eq_getElem _
    have hstep : step r ms { s with ring := ring, written := s.written + n } .store = some { s with
        ring := update ring ((s.written + n) % r.size) ((stream ms).get ⟨s.written + n, by omega⟩)
        written := s.written + n + 1 } := by
      simp only [step]
      rw [if_pos (by omega), hb, Option.map_some]
    exact ⟨_, hn.next .store trivial hstep⟩

theorem exists_sent (h : Reach (step r ms) anyStep Initial s) (hw : s.written = s.rspCons)
    (hroom : n ≤ r.size) (hstream : s.rspCons + n ≤ (stream ms).length) :
    ∃ t, Reach (step r ms) anyStep Initial t ∧ t.rspCons = s.rspCons ∧ t.extracted = s.extracted ∧
      t.rspProd = s.rspCons + n ∧ t.written = s.rspCons + n := by
  obtain ⟨ring, hstored⟩ := reach_store h (n := n) (by omega) (by omega)
  have hprod := (inv_of_reach h).prodWritten
  have hstep :
    step r ms { s with ring := ring, written := s.written + n } (.publish (s.written + n)) =
      some { s with ring := ring, written := s.written + n, rspProd := s.written + n } :=
    if_pos ⟨by simp only; omega, le_rfl⟩
  exact ⟨_, hstored.next _ trivial hstep, rfl, rfl, by rw [hw], by rw [hw]⟩

theorem exists_received (hfit : ∀ i m, i < k → ms[i]? = some m → m.bytes.length ≤ r.size)
    (hk : k ≤ ms.length) :
    ∃ s, Reach (step r ms) anyStep Initial s ∧ s.extracted.length = k ∧ s.written = s.rspCons := by
  induction k with
  | zero => exact ⟨noMessages, .start noMessages_initial, rfl, rfl⟩
  | succ k ih =>
    obtain ⟨s, hs, hlen, hw⟩ := ih (fun i m hi => hfit i m (by omega)) (by omega)
    have hm : ms[k]? = some (ms.get ⟨k, hk⟩) := List.getElem?_eq_getElem _
    generalize ms.get ⟨k, hk⟩ = m at hm
    have htake := congrArg List.length (stream_take_succ hm)
    rw [length_append, ← hlen, ← (inv_of_reach hs).cons, hlen] at htake
    obtain ⟨t, ht, -, -, hprod, hw⟩ := exists_sent hs hw (hfit k m (Nat.lt_succ_self k) hm)
      (next_le_stream (inv_of_reach hs) (hlen ▸ hm))
    obtain ⟨n, hq⟩ := exists_quiet (inv_of_reach ht)
    have hu := inv_readers (inv_of_reach ht) n
    have hlen' := length_extracted_of_quiet hu hq hk (by rw [readers_rspProd, hprod, htake])
    refine ⟨_, reach_readers ht n, hlen', ?_⟩
    rw [readers_written, hw, hu.cons, hlen', htake]

theorem exists_stuck (hlong : ∃ m ∈ ms, r.size < m.bytes.length) :
    ∃ s, Reach (step r ms) anyStep Initial s ∧ Stuck r s := by
  classical
  -- the first such message, before which all has come through
  have hex : ∃ i : Nat, ∃ m : Message, ms[i]? = some m ∧ r.size < m.bytes.length := by
    obtain ⟨m, hmem, hlt⟩ := hlong
    obtain ⟨i, hi⟩ := mem_iff_getElem?.mp hmem
    exact ⟨i, m, hi, hlt⟩
  obtain ⟨m, hm, hlt⟩ := Nat.find_spec hex
  have hfit : ∀ i m, i < Nat.find hex → ms[i]? = some m → m.bytes.length ≤ r.size := by
    intro i m hi hget
    by_contra hnot
    exact Nat.find_min hex hi ⟨m, hget, Nat.lt_of_not_le hnot⟩
  obtain ⟨hk, -⟩ := List.getElem?_eq_some_iff.mp hm
  obtain ⟨s, hs, hlen, hw⟩ := exists_received hfit (le_of_lt hk)
  generalize Nat.find hex = k at hm hk hlen
  have hle := next_le_stream (inv_of_reach hs) (hlen ▸ hm)
  obtain ⟨t, ht, hcons, hext, hprod, -⟩ := exists_sent hs hw (le_refl r.size) (by omega)
  obtain ⟨n, hq⟩ := exists_quiet (inv_of_reach ht)
  have hu := inv_readers (inv_of_reach ht) n
  -- the part of the message that is there is less than the reader takes
  have hlen' : ((reader r)^[n] t).extracted.length = k := by
    apply le_antisymm
    · by_contra hmore
      have htake : (stream (ms.take (k + 1))).length ≤ _ :=
        length_stream_take_le (Nat.lt_of_not_le hmore)
      have hprod' := hu.consProd
      rw [readers_rspProd, hprod, (inv_of_reach hs).cons, hlen] at hprod'
      rw [stream_take_succ hm, length_append, ← hu.cons] at htake
      omega
    · rw [← hlen, ← hext]
      exact length_extracted_readers n t
  refine ⟨t, ht, ?_, n, hq, ?_⟩
  · rw [subIdx_prod (inv_of_reach ht), hprod, hcons, Nat.add_sub_cancel_left]
  · rw [hu.cons, hlen', hcons, (inv_of_reach hs).cons, hlen]

/-- The reader is never stuck on a full ring exactly if no message is longer than the ring. -/
theorem never_stuck_iff (r : RingSize) (ms : List Message) :
    (∀ s, Reach (step r ms) anyStep Initial s → ¬ Stuck r s) ↔
      ∀ m ∈ ms, m.bytes.length ≤ r.size := by
  constructor
  · intro hnever
    by_contra hlong
    push Not at hlong
    obtain ⟨s, hs, hstuck⟩ := exists_stuck hlong
    exact hnever s hs hstuck
  · intro hfit s hs hstuck
    obtain ⟨hfull, n, hq, hcons⟩ := hstuck
    have hu := inv_readers (inv_of_reach hs) n
    have hprod : ((reader r)^[n] s).rspProd = ((reader r)^[n] s).rspCons + r.size := by
      rw [subIdx_prod (inv_of_reach hs)] at hfull
      have hle := (inv_of_reach hs).consProd
      rw [readers_rspProd, hcons]
      omega
    have hpos := r.size_pos
    obtain ⟨m, hm⟩ := exists_next hu (by omega)
    have hshort := quiet_short hu hq hm
    have hle := hfit m (mem_of_getElem? hm)
    omega

def longMessage : Message := ⟨2, 0, 0, List.replicate 4096 0, by rw [length_replicate]; decide⟩

theorem reader_stuck :
    ∃ s, Reach (step ring1024 [longMessage]) anyStep Initial s ∧ Stuck ring1024 s := by
  have hlong : ring1024.size < longMessage.bytes.length := by
    rw [Message.length_bytes, longMessage, length_replicate]
    decide
  exact exists_stuck ⟨longMessage, mem_singleton_self longMessage, hlong⟩

end Guk.XenbusStream
