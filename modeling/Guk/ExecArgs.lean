import Guk.ExecStatusInv

/-!
# The arguments of a remote process (`guk_exec_create`, `handle_exec_request`)

The frontend writes the program name and the arguments into nodes of their own,
in one transaction, and then the request. When xenstored asks for the transaction
to be tried again, the frontend jumps back to its start. The arguments are C
strings that follow one another in memory, and `arg_block` moves from one to the
next. The backend makes its `argv` from the nodes.
-/
namespace Guk.ExecArgs

open CString Decimal Function List Option
open ExecChannel (bufferSize noNul_decimal)
open ExecStatus (frontendNode requestPath fullpath fullpath_inj)

abbrev Store := List UInt8 → Option (List UInt8)

def xenbusWrite (st : Store) (path value : List UInt8) : Store :=
  Function.update st path (some (value ++ [0]))

def xenbusPrintf (st : Store) (node path val : List UInt8) : Option Store :=
  if node.length + path.length + 1 ≥ bufferSize then none
  else (ExecChannel.xenbusPrintf val).map (xenbusWrite st (fullpath node path))

/-! ## The frontend -/

structure Exec where
  selfId : Nat
  thisExecId : Int
  prog : List UInt8
  dir : Option (List UInt8)
  selfId_lt : selfId < 2 ^ 16
  thisExecId_le : thisExecId.natAbs ≤ 2 ^ 31

def Exec.nodename (e : Exec) : List UInt8 := frontendNode e.selfId e.thisExecId

def Exec.aNodename (e : Exec) : List UInt8 := e.nodename ++ text "/args"

def Exec.rNodename (e : Exec) : List UInt8 :=
  text "/local/domain/0/" ++ requestPath e.selfId e.thisExecId .exec

def stringAt (mem : Memory) (p : Nat) : Option (List UInt8) :=
  if 0 ∈ mem.drop p then some (cString (mem.drop p)) else none

def writeArgs (aNodename : List UInt8) (mem : Memory) : (n i p : Nat) → Store → Option (Store × Nat)
  | 0, _, p, st => some (st, p)
  | n + 1, i, p, st =>
    -- `char argn[4]`
    if (decimal i).length ≥ 4 then none
    else (stringAt mem p).bind fun arg =>
      (xenbusPrintf st aNodename (decimal i) arg).bind fun st =>
        writeArgs aNodename mem n (i + 1) (p + arg.length + 1) st

def attempt (e : Exec) (mem : Memory) (argc : Nat) (st : Store) (p : Nat) : Option (Store × Nat) :=
  do
  let st ← xenbusPrintf st e.nodename (text "wdir") (e.dir.getD [])
  let st ← xenbusPrintf st e.nodename (text "argc") (decimal argc)
  let st ← xenbusPrintf st e.aNodename (text "0") e.prog
  writeArgs e.aNodename mem argc 1 p st

def transaction (e : Exec) (mem : Memory) (argc : Nat) (st : Store) :
    List Store → Nat → Option Store
  | [], p => (attempt e mem argc st p).map (·.1)
  | seen :: retried, p =>
    (attempt e mem argc seen p).bind fun r => transaction e mem argc st retried r.2

def gukExecCreate (e : Exec) (mem : Memory) (argc : Nat) (retried : List Store) (st : Store) :
    Option Store :=
  if argc > 999 then none
  else (transaction e mem argc st retried 0).map fun st => xenbusWrite st e.rNodename e.nodename

/-! ## The backend -/

def xsRead (st : Store) (path : List UInt8) : Option (List UInt8) :=
  (st (if path.head? = some 47 then path else text "/local/domain/0/" ++ path)).map cString

def atoi (s : List UInt8) : Int := ((scanInt s).map (·.1)).getD 0

def handleExecRequest (st : Store) (domId requestId : Int) :
    Option (Option (List UInt8) × List (Option (List UInt8))) := do
  let frontendNode ← xsRead st (ExecStatus.watchNode ++ text "/" ++ decimalInt domId ++ text "/" ++
    decimalInt requestId ++ text "/exec")
  let wdir ← xsRead st (frontendNode ++ text "/wdir")
  let argc := atoi (← xsRead st (frontendNode ++ text "/argc"))
  if argc < -1 ∨ 1024 ≤ argc + 1 then none
  else
    let argv := (List.range (argc + 1).toNat).map fun i =>
      xsRead st (frontendNode ++ text "/args/" ++ decimal i)
    some (if wdir = [] then none else some wdir, argv ++ [none])

/-! ## What is to arrive -/

structure Short (s : List UInt8) : Prop where
  noNul : 0 ∉ s
  length_lt : s.length < bufferSize

structure ArgsArrive (e : Exec) (args : List (List UInt8)) (st : Store) : Prop where
  nodes : ∀ i, (h : i < (e.prog :: args).length) →
    xsRead st (fullpath e.aNodename (decimal i)) = some ((e.prog :: args)[i])
  argv : ∃ wdir, handleExecRequest st e.selfId e.thisExecId =
    some (wdir, (e.prog :: args).map some ++ [none])

def ArgsSurvive (e : Exec) (args : List (List UInt8)) (retried : List Store) (st : Store) : Prop :=
  ∀ rest, ∃ st', gukExecCreate e (terminated args ++ rest) args.length retried st = some st' ∧
    ArgsArrive e args st'

/-! ## Names -/

variable {i j p argc k : Nat} {s : List UInt8} {found : List (List UInt8)}

theorem decimal_inj (h : decimal i = decimal j) : i = j := by
  rw [← value_decimal i, h, value_decimal]

theorem argNode_eq (e : Exec) (i : Nat) :
    fullpath e.aNodename (decimal i) = fullpath e.nodename (text "args/" ++ decimal i) := by
  have htext : text "args/" = text "args" ++ text "/" := by decide
  have hargs : text "/args" = text "/" ++ text "args" := by decide
  simp only [fullpath, Exec.aNodename, htext, hargs, append_assoc]

theorem argNode_inj {e : Exec}
    (h : fullpath e.aNodename (decimal i) = fullpath e.aNodename (decimal j)) : i = j := by
  rw [argNode_eq, argNode_eq] at h
  obtain ⟨-, -, hpath⟩ := fullpath_inj h
  exact decimal_inj (append_cancel_left hpath)

theorem argNode_ne {e : Exec} {name : List UInt8} (hname : (text "args/").isPrefixOf name = false)
    (i : Nat) :
    fullpath e.nodename name ≠ fullpath e.aNodename (decimal i) := by
  intro h
  rw [argNode_eq] at h
  obtain ⟨-, -, hpath⟩ := fullpath_inj h
  rw [hpath, List.isPrefixOf_iff_prefix.mpr (prefix_append ..)] at hname
  cases hname

theorem rNodename_ne (e : Exec) (name : List UInt8) : e.rNodename ≠ fullpath e.nodename name := by
  intro h
  have hdir : text "/local/domain/0/" ++ ExecStatus.watchNode =
      text "/local/domain/" ++ (decimalInt 0 ++ text "/backend/exec/requests") := by decide
  simp only [Exec.rNodename, requestPath, fullpath, Exec.nodename, frontendNode, append_assoc] at h
  rw [← append_assoc (text "/local/domain/0/"), hdir, append_assoc, append_assoc] at h
  obtain ⟨-, h⟩ := decimalInt_append_inj (ExecStatus.ends_slash rfl) (ExecStatus.ends_slash rfl)
    (append_cancel_left h)
  have hhead := congrArg (fun l => l[1]?) h
  simp [text] at hhead

theorem length_decimalInt_le {v : Int} (h : v.natAbs < 10 ^ (k + 1)) :
    (decimalInt v).length ≤ k + 2 := by
  cases v with
  | ofNat n =>
    have hn := length_decimal_le k (n := n) h
    rw [decimalInt]
    omega
  | negSucc n =>
    have hn := length_decimal_le k (n := n + 1) h
    rw [decimalInt, length_cons]
    omega

theorem length_aNodename_le (e : Exec) : e.aNodename.length ≤ 100 := by
  have hself : (decimalInt e.selfId).length ≤ 4 + 2 := by
    apply length_decimalInt_le
    have := e.selfId_lt
    rw [Int.natAbs_natCast]
    omega
  have hid : (decimalInt e.thisExecId).length ≤ 9 + 2 := by
    apply length_decimalInt_le
    have := e.thisExecId_le
    omega
  have hlens : (text "/local/domain/").length = 14 ∧ (text "/device/exec/").length = 13 ∧
      (text "/args").length = 5 := by decide
  simp only [Exec.aNodename, Exec.nodename, frontendNode, length_append, hlens]
  omega

theorem length_nodename_le (e : Exec) : e.nodename.length ≤ 100 := by
  have h := length_aNodename_le e
  rw [Exec.aNodename, length_append] at h
  omega

/-! ## What the nodes hold -/

variable {e : Exec} {mem : Memory} {args l : List (List UInt8)} {rest : List UInt8} {st : Store}
  {retried : List Store}

theorem xenbusPrintf_eq {node path val : List UInt8} (hnode : node.length ≤ 100)
    (hpath : path.length ≤ 100) (hval : val.length < bufferSize) :
    xenbusPrintf st node path val = some (xenbusWrite st (fullpath node path) val) := by
  have hroom : ¬ node.length + path.length + 1 ≥ bufferSize := by
    unfold bufferSize
    omega
  rw [xenbusPrintf, if_neg hroom, ExecChannel.xenbusPrintf, if_pos hval, map_some]

theorem stringAt_eq (hs : 0 ∉ s) (hmem : mem.drop p = s ++ 0 :: rest) :
    stringAt mem p = some s := by
  rw [stringAt, hmem, if_pos (by simp), cString_terminator hs]

theorem drop_string (hmem : mem.drop p = s ++ 0 :: rest) :
    mem.drop (p + s.length + 1) = rest := by
  rw [Nat.add_assoc, ← drop_drop, hmem, drop_append, drop_eq_nil_of_le (Nat.le_succ _),
    Nat.add_sub_cancel_left]
  rfl

def written (aNodename : List UInt8) : List (List UInt8) → Nat → Store → Store
  | [], _, st => st
  | s :: l, i, st => written aNodename l (i + 1) (xenbusWrite st (fullpath aNodename (decimal i)) s)

theorem written_other {aNodename path : List UInt8}
    (h : ∀ k, path ≠ fullpath aNodename (decimal k)) : written aNodename l i st path = st path := by
  induction l generalizing i st with
  | nil => rfl
  | cons s l ih => rw [written, ih, xenbusWrite, update_of_ne (h i)]

theorem written_before (st : Store) (h : j < i) :
    written e.aNodename l i st (fullpath e.aNodename (decimal j)) =
      st (fullpath e.aNodename (decimal j)) := by
  induction l generalizing i st with
  | nil => rfl
  | cons s l ih =>
    have hne : fullpath e.aNodename (decimal j) ≠ fullpath e.aNodename (decimal i) := by
      intro heq
      have := argNode_inj heq
      omega
    rw [written, ih _ (by omega), xenbusWrite, update_of_ne hne]

theorem written_at (st : Store) (hk : k < l.length) :
    written e.aNodename l i st (fullpath e.aNodename (decimal (i + k))) = some (l[k] ++ [0]) := by
  induction l generalizing i k st with
  | nil => exact absurd hk (Nat.not_lt_zero k)
  | cons s l ih =>
    cases k with
    | zero =>
      have hbefore := written_before (e := e) (l := l)
        (xenbusWrite st (fullpath e.aNodename (decimal i)) s) (Nat.lt_succ_self i)
      exact hbefore.trans (update_self ..)
    | succ k =>
      have hrest := ih (xenbusWrite st (fullpath e.aNodename (decimal i)) s) (i := i + 1)
        (Nat.lt_of_succ_lt_succ hk)
      rw [Nat.add_assoc, Nat.add_comm 1] at hrest
      exact hrest

theorem writeArgs_eq (hshort : ∀ s ∈ l, Short s) (hi : i + l.length ≤ 1000)
    (hmem : mem.drop p = terminated l ++ rest) :
    writeArgs e.aNodename mem l.length i p st =
      some (written e.aNodename l i st, p + (terminated l).length) := by
  induction l generalizing i p st with
  | nil => rfl
  | cons s l ih =>
    have hs := hshort s mem_cons_self
    rw [terminated_cons, append_assoc, cons_append] at hmem
    rw [length_cons] at hi
    have hdigits : (decimal i).length ≤ 2 + 1 := length_decimal_le 2 (by omega)
    rw [length_cons, writeArgs, if_neg (by omega), stringAt_eq hs.noNul hmem, bind_some,
      xenbusPrintf_eq (length_aNodename_le e) (by omega) hs.length_lt, bind_some,
      ih (fun t ht => hshort t (mem_cons_of_mem s ht)) (by omega) (drop_string hmem), written,
      terminated_cons, length_append, length_cons]
    congr 2
    omega

def attempted (e : Exec) (l : List (List UInt8)) (st : Store) : Store :=
  written e.aNodename (e.prog :: l) 0
    (xenbusWrite (xenbusWrite st (fullpath e.nodename (text "wdir"))
    (e.dir.getD [])) (fullpath e.nodename (text "argc")) (decimal l.length))

structure Writable (e : Exec) : Prop where
  prog : Short e.prog
  dir : ∀ d, e.dir = some d → Short d

theorem Writable.length_dir (he : Writable e) : (e.dir.getD []).length < bufferSize := by
  cases hdir : e.dir with
  | none => decide
  | some d => exact (he.dir d hdir).length_lt

theorem attempt_eq (st : Store) (he : Writable e) (hshort : ∀ s ∈ l, Short s)
    (hlen : l.length ≤ 999) (hmem : mem.drop p = terminated l ++ rest) :
    attempt e mem l.length st p = some (attempted e l st, p + (terminated l).length) := by
  have hnode := length_nodename_le e
  have hdigits : (decimal l.length).length ≤ 2 + 1 := length_decimal_le 2 (by omega)
  have hargc : (decimal l.length).length < bufferSize := by
    unfold bufferSize
    omega
  have hzero : text "0" = decimal 0 := by decide
  have hpaths : (text "wdir").length ≤ 100 ∧ (text "argc").length ≤ 100 ∧
      (text "0").length ≤ 100 := by
    decide
  have hargs : 1 + l.length ≤ 1000 := by omega
  simp only [attempt, xenbusPrintf_eq hnode hpaths.1 he.length_dir,
    xenbusPrintf_eq hnode hpaths.2.1 hargc,
    xenbusPrintf_eq (length_aNodename_le e) hpaths.2.2 he.prog.length_lt, Option.bind_eq_bind,
    bind_some, writeArgs_eq hshort hargs hmem]
  rw [hzero]
  rfl

theorem terminated_append (l m : List (List UInt8)) :
    terminated (l ++ m) = terminated l ++ terminated m := flatMap_append

theorem attempt_found (st : Store) (he : Writable e)
    (hshort : ∀ s ∈ found, Short s) (hargc : argc ≤ 999) (hfound : argc ≤ found.length)
    (hmem : mem.drop p = terminated found ++ rest) :
    ∃ q, attempt e mem argc st p = some (attempted e (found.take argc) st, q) ∧
      mem.drop q = terminated (found.drop argc) ++ rest := by
  have hsplit :
      mem.drop p = terminated (found.take argc) ++ (terminated (found.drop argc) ++ rest) := by
    rw [hmem, ← append_assoc, ← terminated_append, take_append_drop]
  have hlen := length_take_of_le hfound
  have hattempt := attempt_eq st he (fun s hs => hshort s (mem_of_mem_take hs))
    (by omega) hsplit
  rw [hlen] at hattempt
  refine ⟨_, hattempt, ?_⟩
  rw [← drop_drop, hsplit, drop_left]

theorem transaction_eq (he : Writable e)
    (hshort : ∀ s ∈ found, Short s) (hargc : argc ≤ 999)
    (hfound : (retried.length + 1) * argc ≤ found.length)
    (hmem : mem.drop p = terminated found ++ rest) :
    transaction e mem argc st retried p =
      some (attempted e ((found.drop (retried.length * argc)).take argc) st) := by
  induction retried generalizing p found with
  | nil =>
    rw [length_nil, Nat.zero_add, Nat.one_mul] at hfound
    obtain ⟨q, hattempt, -⟩ := attempt_found st he hshort hargc hfound hmem
    rw [transaction, hattempt, map_some, length_nil, Nat.zero_mul, drop_zero]
  | cons seen retried ih =>
    rw [length_cons, Nat.add_mul, Nat.one_mul] at hfound
    obtain ⟨q, hattempt, hnext⟩ := attempt_found seen he hshort hargc (by omega) hmem
    have hrest := ih (fun s hs => hshort s (mem_of_mem_drop hs))
      (by rw [length_drop]; omega) hnext
    rw [transaction, hattempt, bind_some, hrest, drop_drop, length_cons, Nat.add_mul,
      Nat.one_mul, Nat.add_comm argc]

/-! ## What the backend reads -/

def requested (e : Exec) (l : List (List UInt8)) (st : Store) : Store :=
  xenbusWrite (attempted e l st) e.rNodename e.nodename

theorem head_fullpath (e : Exec) (name : List UInt8) : (fullpath e.nodename name).head? = some 47 :=
  rfl

theorem xsRead_nodename (name : List UInt8) : xsRead st (fullpath e.nodename name) =
    (st (fullpath e.nodename name)).map cString := by
  rw [xsRead, if_pos (head_fullpath e name)]

theorem requested_nodename (name : List UInt8) :
    requested e l st (fullpath e.nodename name) = attempted e l st (fullpath e.nodename name) :=
  update_of_ne (rNodename_ne e name).symm ..

theorem xsRead_arg (st : Store) (he : Writable e) (hshort : ∀ s ∈ l, Short s)
    (hi : i < (e.prog :: l).length) :
    xsRead (requested e l st) (fullpath e.aNodename (decimal i)) = some ((e.prog :: l)[i]) := by
  have hmem := getElem_mem hi
  have hnul : 0 ∉ (e.prog :: l)[i] := by
    rcases List.mem_cons.mp hmem with heq | hin
    · rw [heq]
      exact he.prog.noNul
    · exact (hshort _ hin).noNul
  have hwritten := written_at (e := e) (i := 0) (xenbusWrite (xenbusWrite st
    (fullpath e.nodename (text "wdir")) (e.dir.getD [])) (fullpath e.nodename (text "argc"))
    (decimal l.length)) hi
  rw [Nat.zero_add] at hwritten
  rw [argNode_eq, xsRead_nodename, requested_nodename, ← argNode_eq, attempted, hwritten, map_some,
    cString_terminator hnul]

theorem xsRead_argc : xsRead (requested e l st) (fullpath e.nodename (text "argc")) =
    some (decimal l.length) := by
  rw [xsRead_nodename, requested_nodename, attempted, written_other (argNode_ne (by decide)),
    xenbusWrite, update_self, map_some, cString_terminator (noNul_decimal _)]

theorem xsRead_wdir (he : Writable e) :
    xsRead (requested e l st) (fullpath e.nodename (text "wdir")) =
    some (e.dir.getD []) := by
  have hne : fullpath e.nodename (text "wdir") ≠ fullpath e.nodename (text "argc") := by
    intro h
    obtain ⟨-, -, hpath⟩ := fullpath_inj h
    revert hpath
    decide
  have hnul : 0 ∉ e.dir.getD [] := by
    cases hdir : e.dir with
    | none => simp
    | some d => exact (he.dir d hdir).noNul
  rw [xsRead_nodename, requested_nodename, attempted, written_other (argNode_ne (by decide)),
    xenbusWrite, update_of_ne hne, xenbusWrite, update_self, map_some, cString_terminator hnul]

theorem noNul_decimalInt (v : Int) : 0 ∉ decimalInt v := by
  cases v with
  | ofNat n => exact noNul_decimal n
  | negSucc n =>
    rw [decimalInt, mem_cons, not_or]
    exact ⟨by decide, noNul_decimal _⟩

theorem noNul_nodename (e : Exec) : 0 ∉ e.nodename := by
  have hlocal : 0 ∉ text "/local/domain/" := by decide
  have hdevice : 0 ∉ text "/device/exec/" := by decide
  simp only [Exec.nodename, frontendNode, mem_append, not_or]
  exact ⟨⟨⟨hlocal, noNul_decimalInt _⟩, hdevice⟩, noNul_decimalInt _⟩

theorem xsRead_request : xsRead (requested e l st) (requestPath e.selfId e.thisExecId .exec) =
    some e.nodename := by
  have hrelative : (requestPath e.selfId e.thisExecId .exec).head? = some 98 := rfl
  rw [xsRead, hrelative, if_neg (by decide)]
  change (requested e l st e.rNodename).map cString = _
  rw [requested, xenbusWrite, update_self, map_some, cString_terminator (noNul_nodename e)]

theorem atoi_decimal (n : Nat) : atoi (decimal n) = n := by
  have hends : Ends [] := by simp [Ends]
  have hscan := scanInt_decimalInt n hends
  rw [append_nil] at hscan
  change scanInt (decimal n) = _ at hscan
  rw [atoi, hscan]
  rfl

theorem argNode_backend (e : Exec) (i : Nat) :
    e.nodename ++ text "/args/" ++ decimal i = fullpath e.aNodename (decimal i) := by
  have htext : text "/args/" = text "/args" ++ text "/" := by decide
  rw [htext, ← append_assoc]
  rfl

theorem argv_eq (he : Writable e) (hshort : ∀ s ∈ l, Short s) :
    (List.range ((l.length : Int) + 1).toNat).map (fun i =>
      xsRead (requested e l st) (e.nodename ++ text "/args/" ++ decimal i)) =
        (e.prog :: l).map some := by
  have hlen : ((l.length : Int) + 1).toNat = (e.prog :: l).length := by
    rw [length_cons]
    omega
  apply ext_getElem
  · rw [length_map, length_range, length_map, hlen]
  · intro i hi hi'
    rw [length_map] at hi'
    rw [getElem_map, getElem_range, getElem_map, argNode_backend, xsRead_arg st he hshort hi']

theorem handleExecRequest_eq (he : Writable e) (hshort : ∀ s ∈ l, Short s) (hlen : l.length ≤ 999) :
    ∃ wdir, handleExecRequest (requested e l st) e.selfId e.thisExecId =
      some (wdir, (e.prog :: l).map some ++ [none]) := by
  have hslash : text "/exec" = text "/" ++ text "exec" ∧ text "/wdir" = text "/" ++ text "wdir" ∧
      text "/argc" = text "/" ++ text "argc" := by decide
  have hrequest : ExecStatus.watchNode ++ text "/" ++ decimalInt e.selfId ++ text "/" ++
      decimalInt e.thisExecId ++ text "/exec" = requestPath e.selfId e.thisExecId .exec := by
    rw [hslash.1, ← append_assoc]
    rfl
  have hwdir : e.nodename ++ text "/wdir" = fullpath e.nodename (text "wdir") := by
    rw [hslash.2.1, ← append_assoc]
    rfl
  have hargc : e.nodename ++ text "/argc" = fullpath e.nodename (text "argc") := by
    rw [hslash.2.2, ← append_assoc]
    rfl
  have hroom : ¬ ((l.length : Int) < -1 ∨ 1024 ≤ (l.length : Int) + 1) := by omega
  simp only [handleExecRequest, hrequest, xsRead_request, hwdir, xsRead_wdir he, hargc, xsRead_argc,
    Option.bind_eq_bind, bind_some, atoi_decimal, if_neg hroom, argv_eq he hshort]
  exact ⟨_, rfl⟩

theorem argsArrive_requested (he : Writable e) (hshort : ∀ s ∈ l, Short s) (hlen : l.length ≤ 999) :
    ArgsArrive e l (requested e l st) :=
  ⟨fun _ hi => xsRead_arg st he hshort hi, handleExecRequest_eq he hshort hlen⟩

theorem eq_of_argsArrive (he : Writable e) (hshort : ∀ s ∈ l, Short s)
    (hlen : l.length = args.length) (h : ArgsArrive e args (requested e l st)) : l = args := by
  apply ext_getElem hlen
  intro i hi hi'
  have hfound := xsRead_arg st he hshort (i := i + 1) (Nat.succ_lt_succ hi)
  rw [h.nodes (i + 1) (Nat.succ_lt_succ hi'), some.injEq] at hfound
  exact hfound.symm

/-! ## Retries -/

theorem gukExecCreate_eq (rest : List UInt8) (retried : List Store) (st : Store)
    (he : Writable e) (hshort : ∀ s ∈ found, Short s) (hargc : argc ≤ 999)
    (hfound : (retried.length + 1) * argc ≤ found.length) :
    gukExecCreate e (terminated found ++ rest) argc retried st =
      some (requested e ((found.drop (retried.length * argc)).take argc) st) := by
  rw [gukExecCreate, if_neg (by omega), transaction_eq he hshort hargc hfound rfl, map_some]
  rfl

def other (s : List UInt8) : List UInt8 := if s = [] then [1] else []

theorem other_ne (s : List UInt8) : other s ≠ s := by
  unfold other
  split
  · rename_i hs
    rw [hs]
    decide
  · rename_i hs
    exact fun h => hs h.symm

theorem short_other (s : List UInt8) : Short (other s) := by
  unfold other
  split <;> exact ⟨by decide, by decide⟩

theorem take_drop_replicate {n : Nat} (hn : args.length ≤ n) :
    ((args ++ List.replicate n s).drop n).take args.length = List.replicate args.length s := by
  have hrest : n - (n - args.length) = args.length := by omega
  rw [drop_append, drop_eq_nil_of_le hn, nil_append, drop_replicate, hrest,
    take_replicate, Nat.min_self]

theorem not_argsSurvive {seen : Store} (he : Writable e)
    (hshort : ∀ t ∈ s :: args, Short t) (hlen : (s :: args).length ≤ 999) :
    ¬ ArgsSurvive e (s :: args) (seen :: retried) st := by
  intro h
  have hle : (s :: args).length ≤ (seen :: retried).length * (s :: args).length :=
    Nat.le_mul_of_pos_left _ (Nat.succ_pos _)
  obtain ⟨st', hcreate, harrive⟩ :=
    h (terminated (List.replicate ((seen :: retried).length * (s :: args).length) (other s)))
  have hfound :
    ∀ t ∈ (s :: args) ++ List.replicate ((seen :: retried).length * (s :: args).length) (other s),
      Short t := by
    intro t ht
    rcases List.mem_append.mp ht with hin | hin
    · exact hshort t hin
    · rw [eq_of_mem_replicate hin]
      exact short_other s
  have hothers := gukExecCreate_eq [] (seen :: retried) st he hfound hlen
    (by rw [length_append, length_replicate, Nat.add_mul, Nat.one_mul, Nat.add_comm])
  rw [append_nil, terminated_append, take_drop_replicate hle] at hothers
  rw [hcreate, some.injEq] at hothers
  rw [hothers] at harrive
  have hsame := eq_of_argsArrive he
    (fun t ht => (eq_of_mem_replicate ht) ▸ short_other s) length_replicate harrive
  rw [length_cons, replicate_succ, List.cons.injEq] at hsame
  exact other_ne s hsame.1

/-- The arguments arrive for every content of the memory behind them exactly when the transaction
is not retried or there are none. -/
theorem args_survive_iff (e : Exec) (args : List (List UInt8)) (retried : List Store) (st : Store)
    (he : Writable e) (hshort : ∀ s ∈ args, Short s) (hlen : args.length ≤ 999) :
    ArgsSurvive e args retried st ↔ retried = [] ∨ args = [] := by
  constructor
  · intro h
    cases retried with
    | nil => exact .inl rfl
    | cons seen retried =>
      cases args with
      | nil => exact .inr rfl
      | cons s args => exact absurd h (not_argsSurvive he hshort hlen)
  · intro h rest
    refine ⟨requested e args st, ?_, argsArrive_requested he hshort hlen⟩
    have hfound : (retried.length + 1) * args.length ≤ args.length := by
      rcases h with rfl | rfl
      · rw [length_nil, Nat.zero_add, Nat.one_mul]
      · simp
    have hsame : (args.drop (retried.length * args.length)).take args.length = args := by
      rcases h with rfl | rfl
      · rw [length_nil, Nat.zero_mul, drop_zero, take_length]
      · simp
    rw [gukExecCreate_eq _ retried st he hshort hlen hfound, hsame]

def ls : Exec := ⟨1, 0, text "ls", none, by decide, by decide⟩

theorem writable_ls : Writable ls := ⟨⟨by decide, by decide⟩, by simp [ls]⟩

theorem short_args : ∀ s ∈ [text "-l"], Short s := by
  intro s hs
  rw [List.mem_singleton.mp hs]
  exact ⟨by decide, by decide⟩

theorem args_survive_ls : ArgsSurvive ls [text "-l"] [] (fun _ => none) :=
  (args_survive_iff ls [text "-l"] [] (fun _ => none) writable_ls short_args (by decide)).mpr
    (.inl rfl)

theorem args_lost_on_retry :
    ¬ ∀ (e : Exec) (args : List (List UInt8)) (retried : List Store) (st : Store), Writable e →
      (∀ s ∈ args, Short s) → args.length ≤ 999 → ArgsSurvive e args retried st := by
  intro hall
  obtain ⟨st', hcreate, harrive⟩ := hall ls [text "-l"] [fun _ => none] (fun _ => none) writable_ls
    short_args (by decide) (terminated [text "secret"])
  have hnode := harrive.nodes 1 (by decide)
  have hread :
    (gukExecCreate ls (terminated [text "-l"] ++ terminated [text "secret"]) 1 [fun _ => none]
      fun _ => none).bind (fun st => xsRead st (fullpath ls.aNodename (decimal 1))) =
        some (text "secret") := by decide +kernel
  change gukExecCreate ls (terminated [text "-l"] ++ terminated [text "secret"]) 1 _ _ =
    _ at hcreate
  rw [hcreate, bind_some, hnode] at hread
  exact absurd hread (by decide)

end Guk.ExecArgs
