import Guk.Ring
import Guk.Runs

/-!
# Console output (`console/console.c`, `console/xencons_ring.c`)

`console_print` looks for line feeds. It patches the caller's buffer around each
of them that is not the last byte, prints the piece up to there with
`checked_print`, and restores the buffer; what is left at the end is printed with
`"\r\n"` in the place of a last line feed. `checked_print` calls the ring writer
until everything has been taken.

The console daemon reads bytes and advances `out_cons` at its own pace, between
any two steps of the writer. The console is initialised; calls are made under
`xencons_lock`, so there is one at a time. Indices keep their unwrapped value
(`Guk.Ring`). Notifications are left out.
-/
namespace Guk.Console

open Guk.Ring Runs Function
open List hiding cons

def lf : UInt8 := 10
def cr : UInt8 := 13

def expand (str : List UInt8) : List UInt8 := str.flatMap fun b => if b = lf then [cr, lf] else [b]

/-- The size of the output ring, as a power of two. -/
structure OutSize where
  bits : Nat
  le : bits ≤ 31

def OutSize.size (r : OutSize) : Nat := 2 ^ r.bits

/-- The variables of `console_print`; `str` is the string it was called with. -/
structure Locals where
  str : List UInt8
  buf : List UInt8
  data : Nat
  length : Nat
  currChar : Nat
  deriving DecidableEq, Repr

/-- Where `checked_print` returns to. -/
inductive Return where
  /-- into the loop, behind the piece with an embedded line feed -/
  | embedded (savedChar : UInt8)
  /-- to `checked_print("\r\n", 2)` -/
  | tail
  | done
  deriving DecidableEq, Repr

inductive Pc where
  | idle
  /-- at the test of the `for` loop -/
  | loop (v : Locals)
  /-- in `checked_print`, with these bytes to send -/
  | print (v : Locals) (ret : Return) (bytes : List UInt8)
  /-- in the loop of `xencons_ring_send_no_notify` -/
  | store (v : Locals) (ret : Return) (bytes : List UInt8) (cons prod sent : Nat)
  deriving DecidableEq, Repr

/-- The daemon has read up to `reader` and got the bytes `taken`; `finished` are the calls that have
returned, by their string and by what the buffer held at the return. -/
structure State where
  out : Nat → UInt8
  outProd : Nat
  outCons : Nat
  reader : Nat
  taken : List UInt8
  pc : Pc
  finished : List (List UInt8 × List UInt8)

inductive Label where
  /-- a call of `console_print` -/
  | call (str : List UInt8)
  | run
  | take
  | release (k : Nat)

def scanChar (v : Locals) : Pc :=
  if v.currChar < v.data + v.length - 1 then
    if v.buf.getD v.currChar 0 = lf then
      let savedChar := v.buf.getD (v.currChar + 1) 0
      let buf := (v.buf.set v.currChar cr).set (v.currChar + 1) lf
      let partLen := v.currChar - v.data + 2
      .print { v with buf := buf } (.embedded savedChar) ((buf.drop v.data).take partLen)
    else .loop { v with currChar := v.currChar + 1 }
  else if v.buf.getD (v.data + v.length - 1) 0 = lf then
    .print v .tail ((v.buf.drop v.data).take (v.length - 1))
  else .print v .done ((v.buf.drop v.data).take v.length)

def resume (s : State) (v : Locals) : Return → State
  | .embedded savedChar =>
    let partLen := v.currChar - v.data + 2
    { s with pc := .loop { v with
        buf := (v.buf.set (v.currChar + 1) savedChar).set v.currChar lf
        data := v.currChar + 1
        length := v.length - (partLen - 1)
        currChar := v.currChar + 1 } }
  | .tail => { s with pc := .print v .done [cr, lf] }
  | .done => { s with pc := .idle, finished := s.finished ++ [(v.str, v.buf)] }

section

variable (size : Nat)

def storeByte (s : State) (v : Locals) (ret : Return) (bytes : List UInt8) (cons prod sent : Nat) :
    State :=
  if sent < bytes.length ∧ subIdx prod cons < size then
    { s with
      out := Function.update s.out (prod % size) (bytes.getD sent 0)
      pc := .store v ret bytes cons (prod + 1) (sent + 1) }
  else { s with outProd := prod, pc := .print v ret (bytes.drop sent) }

def stepRun (s : State) : Option State :=
  match s.pc with
  | .idle => none
  | .loop v => some { s with pc := scanChar v }
  | .print v ret bytes =>
    if bytes = [] then some (resume s v ret)
    else if subIdx s.outProd s.outCons > size then none
    else some { s with pc := .store v ret bytes s.outCons s.outProd 0 }
  | .store v ret bytes cons prod sent => some (storeByte size s v ret bytes cons prod sent)

def step (s : State) : Label → Option State
  | .call str =>
    if s.pc = .idle ∧ str ≠ [] then some { s with pc := .loop ⟨str, str, 0, str.length, 0⟩ }
      else none
  | .run => stepRun size s
  | .take =>
    if sameIdx s.reader s.outProd then none
    else some { s with reader := s.reader + 1, taken := s.taken ++ [s.out (s.reader % size)] }
  | .release k => if s.outCons ≤ k ∧ k ≤ s.reader then some { s with outCons := k } else none

structure Initial (base : Nat) (init : List UInt8) (s : State) : Prop where
  outCons : s.outCons = base ∧ s.reader = base
  outProd : s.outProd = base + init.length
  fits : init.length ≤ size
  bytes : ∀ k, base ≤ k → k < s.outProd → init[k - base]? = some (s.out (k % size))
  idle : s.taken = [] ∧ s.pc = .idle ∧ s.finished = []

end

def Pc.current : Pc → List (List UInt8)
  | .idle => []
  | .loop v | .print v _ _ | .store v _ _ _ _ _ => [v.str]

def strings (s : State) : List (List UInt8) := s.finished.map Prod.fst ++ s.pc.current

def stream (init : List UInt8) (s : State) : List UInt8 := init ++ (strings s).flatMap expand

/-- The daemon gets the expanded strings and nothing else, and every call returns. -/
structure StreamOk (size base : Nat) (init : List UInt8) (s : State) : Prop where
  /-- the daemon gets the stream from its first byte on -/
  taken : s.taken <+: stream init s
  /-- and all of it, once the calls have returned and it has read everything -/
  complete : s.pc = .idle → s.reader = s.outProd → s.taken = stream init s
  /-- the bytes that it has not given free are in the ring -/
  intact : s.outCons ≤ s.outProd ∧ s.outProd ≤ s.outCons + size ∧ ∀ k, s.outCons ≤ k →
    k < s.outProd →
    (stream init s)[k - base]? = some (s.out (k % size))
  /-- the buffers hold their strings when the calls return -/
  restored : ∀ call ∈ s.finished, call.2 = call.1
  /-- no `BUG_ON` -/
  proceeds : s.pc ≠ .idle → (stepRun size s).isSome
  /-- as long as the daemon goes on, the call returns, and the daemon gets everything -/
  finishes : ∃ t, Leads (step size) s t ∧ t.pc = .idle ∧ strings t = strings s ∧
    t.taken = stream init s

/-- The bytes that come behind the call of `checked_print`. -/
def after (v : Locals) : Return → List UInt8
  | .embedded _ => expand (v.str.drop (v.currChar + 1))
  | .tail => [cr, lf]
  | .done => []

/-- The bytes that the call has not stored yet. -/
def Pc.todo : Pc → List UInt8
  | .idle => []
  | .loop v => expand (v.str.drop v.data)
  | .print v ret bytes => bytes ++ after v ret
  | .store v ret bytes _ _ sent => bytes.drop sent ++ after v ret

/-- In the loop: no line feed between `data` and `curr_char`. -/
structure LoopOk (v : Locals) : Prop where
  data_le : v.data ≤ v.currChar
  curr_lt : v.currChar < v.str.length
  total : v.data + v.length = v.str.length
  scanned : lf ∉ (v.str.drop v.data).take (v.currChar - v.data)

def ReturnOk (v : Locals) : Return → Prop
  | .embedded savedChar => LoopOk v ∧ v.str[v.currChar]? = some lf ∧
      v.str[v.currChar + 1]? = some savedChar ∧
      v.buf = (v.str.set v.currChar cr).set (v.currChar + 1) lf
  | .tail | .done => v.buf = v.str

def PcOk : Pc → Prop
  | .idle => True
  | .loop v => v.buf = v.str ∧ LoopOk v
  | .print v ret _ => ReturnOk v ret
  | .store v ret bytes _ _ sent => ReturnOk v ret ∧ sent ≤ bytes.length ∧ bytes ≠ []

variable {size base c p sent : Nat} {init str l m bytes : List UInt8} {b : UInt8} {v : Locals}
  {s t : State} {ret : Return}

theorem expand_append : expand (l ++ m) = expand l ++ expand m := flatMap_append

theorem expand_lf : expand (lf :: l) = cr :: lf :: expand l := rfl

theorem expand_of_not_mem (h : lf ∉ l) : expand l = l := by
  induction l with
  | nil => rfl
  | cons b l ih =>
    rw [mem_cons, not_or] at h
    have hone : expand [b] = [b] := by simp [expand, Ne.symm h.1]
    rw [← singleton_append, expand_append, hone, ih h.2]

theorem LoopOk.split (h : LoopOk v) (hlf : v.str[v.currChar]? = some lf) :
    ∃ pre mid post, v.str = pre ++ (mid ++ lf :: post) ∧ pre.length = v.data ∧
      v.currChar = v.data + mid.length ∧ lf ∉ mid := by
  have hdata := h.data_le
  obtain ⟨hlt, hget⟩ := List.getElem?_eq_some_iff.mp hlf
  refine ⟨v.str.take v.data, (v.str.drop v.data).take (v.currChar - v.data),
    v.str.drop (v.currChar + 1), ?_, ?_, ?_, h.scanned⟩
  · have hcons : v.str.drop v.currChar = lf :: v.str.drop (v.currChar + 1) := by
      rw [drop_eq_getElem_cons hlt, hget]
    have hrest : (v.str.drop v.data).drop (v.currChar - v.data) = v.str.drop v.currChar := by
      rw [drop_drop, Nat.add_sub_cancel' hdata]
    rw [← hcons, ← hrest, take_append_drop, take_append_drop]
  · rw [length_take]
    omega
  · rw [length_take, length_drop]
    omega

theorem set_pair (l post : List UInt8) (x y x' y' : UInt8) :
    ((l ++ x :: y :: post).set l.length x').set (l.length + 1) y' = l ++ x' :: y' :: post := by
  rw [set_append_right _ _ le_rfl, set_append_right _ _ (Nat.le_succ _)]
  simp

theorem getD_lf {i : Nat} (hi : i < str.length) (h : str.getD i 0 = lf) : str[i]? = some lf := by
  rw [getD_eq_getElem?_getD, getElem?_eq_getElem hi, Option.getD_some] at h
  rw [getElem?_eq_getElem hi, h]

theorem LoopOk.take_succ (h : LoopOk v) : (v.str.drop v.data).take (v.currChar + 1 - v.data) =
    (v.str.drop v.data).take (v.currChar - v.data) ++ [v.str.getD v.currChar 0] := by
  rw [Nat.sub_add_comm h.data_le, take_add_one, getElem?_drop, Nat.add_sub_cancel' h.data_le,
    getD_eq_getElem?_getD, getElem?_eq_getElem h.curr_lt]
  rfl

theorem LoopOk.piece (h : LoopOk v) (hlf : v.str[v.currChar]? = some lf)
    (hnext : v.currChar + 1 < v.str.length) :
    ((((v.str.set v.currChar cr).set (v.currChar + 1) lf).drop v.data).take
      (v.currChar - v.data + 2)) ++
      expand (v.str.drop (v.currChar + 1)) = expand (v.str.drop v.data) := by
  obtain ⟨pre, mid, post, hstr, hpre, hmid, hnot⟩ := h.split hlf
  cases post with
  | nil =>
    rw [hstr] at hnext
    simp only [length_append, length_singleton] at hnext
    omega
  | cons y post =>
    have hlen : v.currChar = (pre ++ mid).length := by rw [length_append, hpre, hmid]
    have hsub : v.currChar - v.data = mid.length := by omega
    have hpatched : (v.str.set v.currChar cr).set (v.currChar + 1) lf =
        pre ++ (mid ++ cr :: lf :: post) := by
      rw [hstr, ← append_assoc, hlen, set_pair, append_assoc]
    have hpiece : (mid ++ cr :: lf :: post).take (mid.length + 2) = mid ++ [cr, lf] := by
      rw [take_append, take_of_length_le (by omega)]
      simp
    have hrest : v.str.drop (v.currChar + 1) = y :: post := by
      rw [hstr, ← append_assoc, hlen, ← drop_drop, drop_left]
      rfl
    have hdrop : v.str.drop v.data = mid ++ lf :: y :: post := by
      rw [hstr, ← hpre, drop_left]
    rw [hpatched, ← hpre, drop_left, hpre, hsub, hpiece, hrest, hdrop, expand_append,
      expand_of_not_mem hnot, expand_lf]
    simp

theorem scanChar_ok (hbuf : v.buf = v.str) (h : LoopOk v) :
    PcOk (scanChar v) ∧ (scanChar v).todo = expand (v.str.drop v.data) := by
  have hdata := h.data_le
  have hcurr := h.curr_lt
  have htotal := h.total
  unfold scanChar
  rw [hbuf]
  split
  · rename_i hlt
    split
    · rename_i hlf
      have hget := getD_lf hcurr hlf
      have hnext : v.currChar + 1 < v.str.length := by omega
      refine ⟨⟨⟨hdata, hcurr, htotal, h.scanned⟩, hget, ?_, rfl⟩, h.piece hget hnext⟩
      rw [getElem?_eq_getElem hnext, getD_eq_getElem?_getD, getElem?_eq_getElem hnext]
      rfl
    · rename_i hlf
      have hscanned : lf ∉ (v.str.drop v.data).take (v.currChar + 1 - v.data) := by
        rw [h.take_succ, mem_append, not_or, mem_singleton]
        exact ⟨h.scanned, Ne.symm hlf⟩
      have hlt' : v.currChar + 1 < v.str.length := by omega
      exact ⟨⟨rfl, ⟨Nat.le_succ_of_le hdata, hlt', htotal, hscanned⟩⟩, rfl⟩
  · rename_i hend
    have hlast : v.data + v.length - 1 = v.currChar := by omega
    have hall : (v.str.drop v.data).take (v.currChar + 1 - v.data) = v.str.drop v.data :=
      take_of_length_le (by rw [length_drop]; omega)
    have hsplit := h.take_succ
    rw [hall] at hsplit
    rw [hlast]
    split
    · rename_i hlf
      refine ⟨hbuf, ?_⟩
      have hlen : v.length - 1 = v.currChar - v.data := by omega
      have hexpand : expand ((v.str.drop v.data).take (v.currChar - v.data) ++ [lf]) =
          (v.str.drop v.data).take (v.currChar - v.data) ++ [cr, lf] := by
        rw [expand_append, expand_of_not_mem h.scanned]
        rfl
      rw [hlf] at hsplit
      rw [Pc.todo, after, hlen, ← hexpand, ← hsplit]
    · rename_i hlf
      refine ⟨hbuf, ?_⟩
      have hscanned : lf ∉ v.str.drop v.data := by
        rw [hsplit, mem_append, not_or, mem_singleton]
        exact ⟨h.scanned, Ne.symm hlf⟩
      have hlen : v.length = v.currChar + 1 - v.data := by omega
      rw [Pc.todo, after, hlen, hall, append_nil, expand_of_not_mem hscanned]

theorem resume_ok (h : ReturnOk v ret) :
    PcOk (resume s v ret).pc ∧ (resume s v ret).pc.todo = after v ret ∧
      ∀ call ∈ (resume s v ret).finished, call ∈ s.finished ∨ call.2 = call.1 := by
  cases ret with
  | embedded savedChar =>
    obtain ⟨hloop, hlf, hsaved, hbuf⟩ := h
    have hdata := hloop.data_le
    have htotal := hloop.total
    obtain ⟨hnext, hget⟩ := List.getElem?_eq_some_iff.mp hsaved
    obtain ⟨hcurr, hlf⟩ := List.getElem?_eq_some_iff.mp hlf
    refine ⟨⟨?_, ?_⟩, rfl, fun call hcall => .inl hcall⟩
    · have hne : v.currChar + 1 ≠ v.currChar := Nat.succ_ne_self _
      simp only [hbuf]
      rw [set_set, ← hget, set_comm _ _ hne.symm, set_set, ← hlf, set_getElem_self,
        set_getElem_self]
    · refine ⟨le_rfl, hnext, ?_, ?_⟩
      · simp only
        omega
      · simp
  | tail => exact ⟨h, rfl, fun call hcall => .inl hcall⟩
  | done =>
    refine ⟨trivial, rfl, fun call hcall => ?_⟩
    rcases mem_append.mp hcall with hcall | hcall
    · exact .inl hcall
    · cases mem_singleton.mp hcall
      exact .inr h

/-- The bytes stored so far: the daemon took them in order, and what it did not free is in the
ring. -/
structure Written (size base : Nat) (s : State) (stored : Nat) (written : List UInt8) : Prop where
  order : base ≤ s.outCons ∧ s.outCons ≤ s.reader ∧ s.reader ≤ s.outProd ∧ s.outProd ≤ stored ∧
    stored ≤ s.outCons + size
  total : base + written.length = stored
  took : s.taken = written.take (s.reader - base)
  intact : ∀ k, s.outCons ≤ k → k < stored → written[k - base]? = some (s.out (k % size))

variable {full written : List UInt8} {stored k : Nat}

section

variable (h : Written size base s stored written)

include h

theorem Written.read (hlt : s.reader < s.outProd) : Written size base { s with
      reader := s.reader + 1
      taken := s.taken ++ [s.out (s.reader % size)] } stored written := by
  have horder := h.order
  refine { h with order := by simp only; omega, took := ?_ }
  rw [Nat.sub_add_comm (by omega), take_add_one, h.intact s.reader (by omega) (by omega), h.took]
  rfl

theorem Written.release (hk : s.outCons ≤ k)
    (hk' : k ≤ s.reader) : Written size base { s with outCons := k } stored written := by
  have horder := h.order
  refine { h with order := by simp only; omega, intact := fun j hj => ?_ }
  exact h.intact j (le_trans hk hj)

theorem Written.store (hroom : stored < s.outCons + size)
    (b : UInt8) : Written size base { s with out := update s.out (stored % size) b }
      (stored + 1) (written ++ [b]) := by
  have horder := h.order
  have htotal := h.total
  refine ⟨by simp only; omega, ?_, ?_, ?_⟩
  · rw [length_append, length_singleton]
    omega
  · rw [take_append_of_le_length (by simp only; omega)]
    exact h.took
  · intro k hk hk'
    simp only at hk ⊢
    by_cases hlast : k = stored
    · rw [hlast, update_self, ← htotal, Nat.add_sub_cancel_left, getElem?_concat_length]
    · have hslot := slot_ne s.outCons hk (by omega) (by omega) hroom hlast
      rw [update_of_ne hslot, getElem?_append_left (by omega)]
      exact h.intact k hk (by omega)

end

def Pc.indices : Pc → Option (Nat × Nat)
  | .store _ _ _ cons prod _ => some (cons, prod)
  | _ => none

def storedTo (s : State) : Nat := (s.pc.indices.map Prod.snd).getD s.outProd

/-- What is written and what is to be sent make up the stream. -/
structure Inv (size base : Nat) (full : List UInt8) (s : State) : Prop where
  ring : ∃ written, Written size base s (storedTo s) written ∧ written ++ s.pc.todo = full
  pc : PcOk s.pc
  writer : ∀ cons prod, s.pc.indices = some (cons, prod) → cons ≤ s.outCons ∧ prod ≤ cons + size
  restored : ∀ call ∈ s.finished, call.2 = call.1

theorem Inv.published (h : Inv size base full s) (hs : s.pc.indices = none) :
    ∃ written, Written size base s s.outProd written ∧ written ++ s.pc.todo = full := by
  have hring := h.ring
  rw [storedTo, hs] at hring
  exact hring

theorem inv_goto {pc : Pc} {finished : List (List UInt8 × List UInt8)} (h : Inv size base full s)
    (hs : s.pc.indices = none) (hpc : pc.indices = none) (hok : PcOk pc)
    (htodo : pc.todo = s.pc.todo) (hrestored : ∀ call ∈ finished, call.2 = call.1) :
    Inv size base full { s with pc := pc, finished := finished } := by
  obtain ⟨written, hring, hfull⟩ := h.published hs
  refine ⟨⟨written, ?_, htodo ▸ hfull⟩, hok, ?_, hrestored⟩
  · rw [storedTo, hpc]
    exact { hring with }
  · intro c p hcp
    rw [hpc] at hcp
    cases hcp

theorem indices_scanChar : (scanChar v).indices = none := by
  unfold scanChar
  split
  · split <;> rfl
  · split <;> rfl

theorem inv_resume (h : Inv size base full s) (hpc : s.pc = .print v ret []) :
    Inv size base full (resume s v ret) := by
  have hret := h.pc
  rw [hpc] at hret
  obtain ⟨hok, htodo, hrestored⟩ := resume_ok (s := s) hret
  have heq : resume s v ret =
      { s with pc := (resume s v ret).pc, finished := (resume s v ret).finished } := by
    cases ret <;> rfl
  rw [heq]
  apply inv_goto h
  · rw [hpc]
    rfl
  · cases ret <;> rfl
  · exact hok
  · rw [htodo, hpc]
    rfl
  · intro call hcall
    exact (hrestored call hcall).elim (h.restored call) id

theorem inv_load (h : Inv size base full s)
    (hpc : s.pc = .print v ret bytes) (hne : bytes ≠ []) :
    Inv size base full { s with pc := .store v ret bytes s.outCons s.outProd 0 } := by
  obtain ⟨written, hring, hfull⟩ := h.published (by rw [hpc]; rfl)
  have hok := h.pc
  rw [hpc] at hok hfull
  refine ⟨⟨written, { hring with }, hfull⟩, ⟨hok, Nat.zero_le _, hne⟩, ?_, h.restored⟩
  intro c p hcp
  cases hcp
  exact ⟨le_rfl, hring.order.2.2.2.2⟩

theorem Inv.storing (h : Inv size base full s)
    (hpc : s.pc = .store v ret bytes c p sent) :
    (ReturnOk v ret ∧ sent ≤ bytes.length ∧ bytes ≠ []) ∧ (c ≤ s.outCons ∧ p ≤ c + size) ∧
      ∃ written, Written size base s p written ∧
        written ++ (bytes.drop sent ++ after v ret) = full := by
  have hok := h.pc
  have hring := h.ring
  have hwriter := h.writer c p
  rw [storedTo, hpc] at hring
  rw [hpc] at hok hwriter
  exact ⟨hok, hwriter rfl, hring⟩

theorem inv_storeByte (hsize : size < idxMod)
    (h : Inv size base full s) (hpc : s.pc = .store v ret bytes c p sent) :
    Inv size base full (storeByte size s v ret bytes c p sent) := by
  obtain ⟨⟨hret, hsent, hne⟩, ⟨hc, hp⟩, written, hring, hfull⟩ := h.storing hpc
  have horder := hring.order
  unfold storeByte
  rw [subIdx_eq (by omega) (by omega)]
  split
  · rename_i hroom
    have hdrop : bytes.drop sent = bytes.getD sent 0 :: bytes.drop (sent + 1) := by
      rw [drop_eq_getElem_cons hroom.1, getD_eq_getElem?_getD,
        getElem?_eq_getElem hroom.1]
      rfl
    have hstore := hring.store (by omega) (bytes.getD sent 0)
    refine ⟨⟨_, { hstore with }, ?_⟩, ⟨hret, hroom.1, hne⟩, ?_, h.restored⟩
    · rw [hdrop] at hfull
      simpa [Pc.todo] using hfull
    · intro c' p' hcp'
      cases hcp'
      exact ⟨hc, by omega⟩
  · refine ⟨⟨written, { hring with order := ?_ }, hfull⟩, hret, nofun, h.restored⟩
    simp only [storedTo, Pc.indices, Option.map_none, Option.getD_none]
    omega

theorem inv_run (hsize : size < idxMod) (h : Inv size base full s) (ht : stepRun size s = some t) :
    Inv size base full t := by
  cases hpc : s.pc with
  | idle =>
    rw [stepRun, hpc] at ht
    cases ht
  | loop v =>
    rw [stepRun, hpc] at ht
    cases ht
    have hok := h.pc
    rw [hpc] at hok
    obtain ⟨hok, htodo⟩ := scanChar_ok hok.1 hok.2
    apply inv_goto h _ indices_scanChar hok _ h.restored
    · rw [hpc]
      rfl
    · rw [htodo, hpc]
      rfl
  | print v ret bytes =>
    simp only [stepRun, hpc] at ht
    split at ht
    · rename_i hnil
      cases ht
      subst hnil
      exact inv_resume h hpc
    · rename_i hne
      obtain ⟨-, rfl⟩ := of_unless ht
      exact inv_load h hpc hne
  | store v ret bytes c p sent =>
    simp only [stepRun, hpc] at ht
    cases ht
    exact inv_storeByte hsize h hpc

theorem current_scanChar : (scanChar v).current = [v.str] := by
  unfold scanChar
  split
  · split <;> rfl
  · split <;> rfl

theorem strings_run (ht : stepRun size s = some t) : strings t = strings s := by
  unfold stepRun at ht
  split at ht <;> rename_i hpc
  · cases ht
  · cases ht
    rw [strings, strings, hpc, current_scanChar]
    rfl
  · rename_i v ret bytes
    split at ht
    · cases ht
      cases ret <;> simp [strings, resume, hpc, Pc.current]
    · obtain ⟨-, rfl⟩ := of_unless ht
      simp [strings, hpc, Pc.current]
  · cases ht
    unfold storeByte
    split <;> simp [strings, hpc, Pc.current]

section

variable (h : Inv size base full s)

include h

theorem inv_take (hlt : s.reader < s.outProd) : Inv size base full { s with
      reader := s.reader + 1
      taken := s.taken ++ [s.out (s.reader % size)] } := by
  obtain ⟨written, hring, hfull⟩ := h.ring
  exact { h with ring := ⟨written, hring.read hlt, hfull⟩ }

theorem inv_release (hk : s.outCons ≤ k) (hk' : k ≤ s.reader) :
    Inv size base full { s with outCons := k } := by
  obtain ⟨written, hring, hfull⟩ := h.ring
  refine { h with ring := ⟨written, hring.release hk hk', hfull⟩, writer := fun c p hcp => ?_ }
  obtain ⟨hc, hp⟩ := h.writer c p hcp
  exact ⟨le_trans hc hk, hp⟩

theorem inv_call (hidle : s.pc = .idle) (hne : str ≠ []) :
    Inv size base (full ++ expand str) { s with pc := .loop ⟨str, str, 0, str.length, 0⟩ } := by
  obtain ⟨written, hring, hfull⟩ := h.published (by rw [hidle]; rfl)
  rw [hidle, Pc.todo, append_nil] at hfull
  refine ⟨⟨written, { hring with }, ?_⟩, ⟨rfl, ?_⟩, nofun, h.restored⟩
  · rw [hfull]
    rfl
  · exact ⟨le_rfl, length_pos_of_ne_nil hne, Nat.zero_add _, by simp⟩

theorem reader_lt (hne : ¬ sameIdx s.reader s.outProd) : s.reader < s.outProd := by
  obtain ⟨written, hring, -⟩ := h.ring
  exact Nat.lt_of_le_of_ne hring.order.2.2.1 fun he => hne (congrArg (· % idxMod) he)

end

theorem inv_step {a : Label} (hsize : size < idxMod) (h : Inv size base (stream init s) s)
    (ht : step size s a = some t) : Inv size base (stream init t) t := by
  cases a with
  | call str =>
    obtain ⟨⟨hidle, hne⟩, rfl⟩ := of_when ht
    have hcall := inv_call h hidle hne
    simpa [stream, strings, hidle, Pc.current] using hcall
  | run =>
    rw [stream, strings_run ht]
    exact inv_run hsize h ht
  | take =>
    obtain ⟨hne, rfl⟩ := of_unless ht
    exact inv_take h (reader_lt h hne)
  | release k =>
    obtain ⟨⟨hk, hk'⟩, rfl⟩ := of_when ht
    exact inv_release h hk hk'

theorem inv_initial (h : Initial size base init s) : Inv size base (stream init s) s := by
  obtain ⟨hcons, hreader⟩ := h.outCons
  obtain ⟨htaken, hidle, hfinished⟩ := h.idle
  have hprod := h.outProd
  have hfits := h.fits
  refine ⟨⟨init, ?_, ?_⟩, ?_, ?_, ?_⟩
  · rw [storedTo, hidle]
    refine ⟨by simp only [Pc.indices, Option.map_none, Option.getD_none]; omega, hprod.symm, ?_, ?_⟩
    · rw [htaken, hreader, Nat.sub_self, take_zero]
    · rw [hcons]
      exact h.bytes
  · simp [stream, strings, hidle, hfinished, Pc.todo, Pc.current]
  · rw [hidle]
    trivial
  · rw [hidle]
    exact nofun
  · rw [hfinished]
    exact nofun

theorem drain (hsize : size < idxMod) (h : Inv size base full s) : ∃ t, Leads (step size) s t ∧
    Inv size base full t ∧ t.pc = s.pc ∧ strings t = strings s ∧ t.outCons = t.outProd ∧
    t.reader = t.outProd := by
  generalize hk : s.outProd - s.reader = k
  induction k generalizing s with
  | zero =>
    obtain ⟨written, hring, -⟩ := h.ring
    have horder := hring.order
    have hall : s.reader = s.outProd := by omega
    have hinv := inv_release h horder.2.1 le_rfl
    refine ⟨{ s with outCons := s.reader }, .head (.release s.reader) ?_ (.refl _), hinv, rfl, rfl,
      hall, hall⟩
    exact if_pos ⟨horder.2.1, le_rfl⟩
  | succ k ih =>
    obtain ⟨written, hring, -⟩ := h.ring
    have horder := hring.order
    have hne : ¬ sameIdx s.reader s.outProd := by
      rw [sameIdx_iff (by omega) (by omega)]
      omega
    have hinv := inv_take h (reader_lt h hne)
    obtain ⟨t, hleads, ht, hpc, hstrings, hcons, hreader⟩ := ih hinv (by simp only; omega)
    exact ⟨t, .head .take (if_neg hne) hleads, ht, hpc, hstrings, hcons, hreader⟩

def Return.cost (v : Locals) : Return → Nat
  | .embedded _ => 4 * (expand (v.str.drop (v.currChar + 1))).length +
      6 * (v.str.length - (v.currChar + 1)) + 7
  | .tail => 10
  | .done => 0

def Pc.cost (size : Nat) : Pc → Nat
  | .idle => 0
  | .loop v => 4 * (expand (v.str.drop v.data)).length + 6 * (v.str.length - v.currChar) + 6
  | .print v ret bytes => 4 * bytes.length + 1 + ret.cost v
  | .store v ret bytes cons prod sent => 4 * (bytes.length - sent) +
      (if sent = 0 then if prod < cons + size then 0 else 2 else 3) + ret.cost v

theorem scanChar_cases (v : Locals) :
    scanChar v = .loop { v with currChar := v.currChar + 1 } ∨
    (∃ buf savedChar bytes, scanChar v = .print { v with buf := buf } (.embedded savedChar) bytes) ∨
    (∃ bytes, scanChar v = .print v .tail bytes) ∨ ∃ bytes, scanChar v = .print v .done bytes := by
  unfold scanChar
  split
  · split
    · exact .inr (.inl ⟨_, _, _, rfl⟩)
    · exact .inl rfl
  · split
    · exact .inr (.inr (.inl ⟨_, rfl⟩))
    · exact .inr (.inr (.inr ⟨_, rfl⟩))

theorem cost_scanChar (hbuf : v.buf = v.str) (h : LoopOk v) :
    (scanChar v).cost size < (Pc.loop v).cost size := by
  have hcurr := h.curr_lt
  have htodo := congrArg length (scanChar_ok hbuf h).2
  obtain hpc | ⟨buf, savedChar, bytes, hpc⟩ | ⟨bytes, hpc⟩ | ⟨bytes, hpc⟩ := scanChar_cases v
  · rw [hpc]
    simp only [Pc.cost]
    omega
  · rw [hpc] at htodo ⊢
    simp only [Pc.todo, after, length_append, Pc.cost, Return.cost] at htodo ⊢
    omega
  · rw [hpc] at htodo ⊢
    simp only [Pc.todo, after, length_append, length_cons, length_nil, Pc.cost,
      Return.cost] at htodo ⊢
    omega
  · rw [hpc] at htodo ⊢
    simp only [Pc.todo, after, length_append, length_nil, Pc.cost, Return.cost] at htodo ⊢
    omega

theorem cost_resume : (resume s v ret).pc.cost size < (Pc.print v ret []).cost size := by
  cases ret with
  | embedded savedChar =>
    simp only [resume, Pc.cost, Return.cost, length_nil]
    omega
  | tail | done => simp [resume, Pc.cost, Return.cost]

theorem cost_storeByte (hsize : size < idxMod)
    (h : Inv size base full s) (hpc : s.pc = .store v ret bytes c p sent) :
    (storeByte size s v ret bytes c p sent).pc.cost size <
      (Pc.store v ret bytes c p sent).cost size := by
  obtain ⟨⟨-, hsent, hne⟩, ⟨hc, hp⟩, written, hring, -⟩ := h.storing hpc
  have horder := hring.order
  have hpos := length_pos_of_ne_nil hne
  unfold storeByte
  rw [subIdx_eq (by omega) (by omega)]
  split
  · simp only [Pc.cost, Nat.succ_ne_zero, if_false]
    split
    · split <;> omega
    · omega
  · simp only [Pc.cost, length_drop]
    split
    · split <;> omega
    · omega

theorem cost_run (hsize : size < idxMod) (hpos : 0 < size) (h : Inv size base full s)
    (hdrained : s.outCons = s.outProd) (hpc : s.pc ≠ .idle) :
    ∃ t, stepRun size s = some t ∧ t.pc.cost size < s.pc.cost size := by
  cases hp : s.pc with
  | idle => exact absurd hp hpc
  | loop v =>
    have hok := h.pc
    rw [hp] at hok
    exact ⟨{ s with pc := scanChar v }, by rw [stepRun, hp], cost_scanChar hok.1 hok.2⟩
  | print v ret bytes =>
    by_cases hnil : bytes = []
    · subst hnil
      exact ⟨resume s v ret, by simp [stepRun, hp], cost_resume⟩
    · have hroom : ¬ subIdx s.outProd s.outCons > size := by
        rw [hdrained, subIdx_eq le_rfl (by omega)]
        omega
      refine ⟨{ s with pc := .store v ret bytes s.outCons s.outProd 0 }, ?_, ?_⟩
      · simp [stepRun, hp, hnil, Nat.le_of_not_gt hroom]
      · simp only [Pc.cost, hdrained, if_true, Nat.sub_zero, Nat.lt_add_of_pos_right hpos]
        omega
  | store v ret bytes c p sent =>
    exact ⟨storeByte size s v ret bytes c p sent, by rw [stepRun, hp], cost_storeByte hsize h hp⟩

theorem leads_idle (hsize : size < idxMod) (hpos : 0 < size) (h : Inv size base full s) :
    ∃ t, Leads (step size) s t ∧ Inv size base full t ∧ t.pc = .idle ∧ strings t = strings s := by
  generalize hk : s.pc.cost size = k
  induction k using Nat.strongRecOn generalizing s with
  | ind k ih =>
    by_cases hidle : s.pc = .idle
    · exact ⟨s, .refl s, h, hidle, rfl⟩
    · obtain ⟨u, hsu, hu, hpc, hstrings, hdrained, -⟩ := drain hsize h
      obtain ⟨w, hw, hcost⟩ := cost_run hsize hpos hu hdrained (by rwa [hpc])
      obtain ⟨t, hwt, ht, hidle, hlast⟩ :=
        ih (w.pc.cost size) (by rw [← hk, ← hpc]; exact hcost) (inv_run hsize hu hw) rfl
      exact ⟨t, hsu.trans (.head .run hw hwt), ht, hidle,
        hlast.trans ((strings_run hw).trans hstrings)⟩

theorem taken_of_drained (h : Inv size base full s) (hidle : s.pc = .idle)
    (hall : s.reader = s.outProd) :
    s.taken = full := by
  obtain ⟨written, hring, hfull⟩ := h.published (by rw [hidle]; rfl)
  have htotal := hring.total
  rw [hidle, Pc.todo, append_nil] at hfull
  rw [hring.took, ← hfull, hall]
  exact take_of_length_le (by omega)

theorem streamOk_of_inv (hsize : size < idxMod) (hpos : 0 < size)
    (h : Inv size base (stream init s) s) :
    StreamOk size base init s := by
  obtain ⟨written, hring, hstream⟩ := h.ring
  have horder := hring.order
  refine ⟨?_, taken_of_drained h, ⟨by omega, by omega, ?_⟩, h.restored, ?_, ?_⟩
  · rw [hring.took, ← hstream]
    exact (List.take_prefix ..).trans (List.prefix_append ..)
  · intro k hk hk'
    have hbyte := hring.intact k hk (by omega)
    rw [← hstream, getElem?_append_left (List.getElem?_eq_some_iff.mp hbyte).1]
    exact hbyte
  · intro hne
    have hsub : subIdx s.outProd s.outCons = s.outProd - s.outCons :=
      subIdx_eq (by omega) (by omega)
    cases hp : s.pc with
    | idle => exact absurd hp hne
    | loop v | store v ret bytes c p sent => simp [stepRun, hp]
    | print v ret bytes =>
      simp only [stepRun, hp, hsub]
      split
      · rfl
      · rw [if_neg (by omega)]
        rfl
  · obtain ⟨u, hsu, hu, hidle, hstrings⟩ := leads_idle hsize hpos h
    obtain ⟨t, hut, ht, hpc, hstrings', -, hall⟩ := drain hsize hu
    rw [hidle] at hpc
    exact ⟨t, hsu.trans hut, hpc, hstrings'.trans hstrings, taken_of_drained ht hpc hall⟩

/-- In every run the daemon gets the stream of the strings printed so far. -/
theorem console_output_stream (r : OutSize) (base : Nat) (init : List UInt8) (s : State)
    (h : Reach (step r.size) anyStep (Initial r.size base init) s) :
    StreamOk r.size base init s := by
  have hsize : r.size < idxMod :=
    lt_of_le_of_lt (Nat.pow_le_pow_right (by decide) r.le) (by decide)
  have hpos : 0 < r.size := Nat.two_pow_pos r.bits
  apply streamOk_of_inv hsize hpos
  apply h.invariant
  · intro s hs
    exact inv_initial hs
  · intro s a t hs _ ht
    exact inv_step hsize hs ht

def start : State where
  out _ := 120
  outProd := 4294967295
  outCons := 4294967294
  reader := 4294967294
  taken := []
  pc := .idle
  finished := []

theorem start_initial : Initial 4 4294967294 [120] start := by
  refine ⟨⟨rfl, rfl⟩, rfl, by decide, ?_, ⟨rfl, rfl, rfl⟩⟩
  intro k hk hk'
  have hone := le_antisymm (Nat.le_of_lt_succ hk') hk
  rw [hone]
  rfl

theorem console_output_stream_full_ring :
    ∃ s, Reach (step 4) anyStep (Initial 4 4294967294 [120]) s ∧
    s.pc = .store ⟨[97, 10, 10, 98, 10], [97, 10, 13, 10, 10], 2, 3, 2⟩ (.embedded 98) [13, 10]
      4294967294 4294967298 0 ∧ s.taken = [120, 97] ∧ StreamOk 4 4294967294 [120] s := by
  have h₀ : Reach (step 4) anyStep (Initial 4 4294967294 [120]) start := .start start_initial
  obtain ⟨s, hreach, hpc, htaken⟩ := h₀.runTo
    (P := fun s => s.pc = .store ⟨[97, 10, 10, 98, 10], [97, 10, 13, 10, 10], 2, 3, 2⟩
      (.embedded 98)
      [13, 10] 4294967294 4294967298 0 ∧ s.taken = [120, 97])
    (.call [97, 10, 10, 98, 10] :: replicate 18 .run ++ [.take, .take]) (by decide +kernel)
  exact ⟨s, hreach, hpc, htaken, console_output_stream ⟨2, by decide⟩ 4294967294 [120] s hreach⟩

end Guk.Console
