import Guk.CString
import Guk.Decimal
import Mathlib.Algebra.Group.Int.Defs

/-!
# The bytes of a remote process: `guk_exec_write_bytes` and `guk_exec_read_bytes`

Bytes for a process of the backend travel as text in a xenstore node. The
frontend prints the length, an offset and the bytes as a C string; the backend
takes them apart with `sscanf` and writes as many bytes as the length says, from a
buffer that holds no more than one word. The other way round the bytes are a C
string both in the node and in the frontend. The store keeps node values as they
are.
-/
namespace Guk.ExecChannel

open CString Decimal List Option

def comma : UInt8 := 44

def bufferSize : Nat := 256

def xenbusPrintf (val : List UInt8) : Option (List UInt8) :=
  if val.length < bufferSize then some val else none

/-! ## Writing -/

def writeText (buffer : List UInt8) (fileOffset : Nat) : List UInt8 :=
  -- `strncpy` stops at the first NUL, and there is one behind the bytes
  let zbuffer := cString (buffer ++ [0])
  decimal buffer.length ++ comma :: (decimal (fileOffset % 2 ^ 32) ++ comma :: zbuffer)

def gukExecWriteBytes (buffer : List UInt8) (fileOffset : Nat) : Option (List UInt8) :=
  if buffer.length > 1023 then none else xenbusPrintf (writeText buffer fileOffset)

structure WriteVars where
  length : Int
  fileOffset : Nat
  data : Memory

def scanWord (m : List UInt8) : Option (List UInt8) :=
  let w := (m.dropWhile isSpace).takeWhile (fun b => !isSpace b)
  if w = [] then none else some w

def scanWriteInfo (info : List UInt8) (v : WriteVars) : WriteVars :=
  match scanUnsigned info with
  | none => v
  | some (length, rest) =>
    let v := { v with length := Int.bmod length (2 ^ 32) }
    if rest.head? ≠ some comma then v
    else match scanUnsigned rest.tail with
      | none => v
      | some (fileOffset, rest) =>
        let v := { v with fileOffset := fileOffset }
        if rest.head? ≠ some comma then v
        else match scanWord rest.tail with
          | none => v
          | some w => { v with data := w ++ 0 :: v.data.drop (w.length + 1) }

/-- The bytes that `write` takes; a negative length is a count beyond the address space, and `write`
fails. -/
def handleWriteRequest (writeInfo : List UInt8) (v : WriteVars) : Option (List UInt8) :=
  let v := scanWriteInfo (cString writeInfo) v
  if v.length < 0 then none else some (v.data.take v.length.toNat)

/-! ## Reading -/

def EFAULT : Int := 14

/-- `read` ends early only at the end of the input. A negative length is a count beyond the address
space, and `read` fails. -/
def readFully (nbyte : Int) (input : List UInt8) : Except Int (List UInt8) :=
  if nbyte < 0 then .error EFAULT else .ok (input.take nbyte.toNat)

/-- The status of a read that failed, or the text of the node `readbytes`. -/
def handleReadRequest (readInfo : List UInt8) (length : Int) (input : List UInt8) :
    Except Int (List UInt8) :=
  let length := match scanUnsigned (cString readInfo) with
    | none => length
    | some (n, _) => Int.bmod n (2 ^ 32)
  let length := if length > 80 then 80 else length
  match readFully length input with
  | .error errno => .error (-errno)
  | .ok buffer => .ok (cString (buffer ++ [0]))

def gukExecReadBytes (reply : Except Int (List UInt8)) (buffer : Memory) : Memory × Int :=
  match reply with
  | .error status => (buffer, status)
  | .ok bytes =>
    let result := (cString bytes).length
    (cString bytes ++ 0 :: buffer.drop (result + 1), result)

def readText (length : Int) (fileOffset : Nat) : List UInt8 :=
  decimal (length % 2 ^ 32).toNat ++ comma :: decimal (fileOffset % 2 ^ 32)

/-! ## What the backend writes -/

def dataAfter (zbuffer : List UInt8) (data : Memory) : Memory :=
  match scanWord zbuffer with
  | none => data
  | some w => w ++ 0 :: data.drop (w.length + 1)

theorem isDigit_comma : isDigit comma = false := by decide

theorem noNul_decimal (n : Nat) : 0 ∉ decimal n := by
  intro h
  exact absurd (decimal_isDigit n 0 h) (by decide)

theorem cString_writeText (b : List UInt8) (fileOffset : Nat) :
    cString (writeText b fileOffset) = writeText b fileOffset := by
  apply cString_of_noNul
  simp [writeText, noNul_decimal, noNul_cString, comma]

theorem scanWriteInfo_writeText (b : List UInt8) (fileOffset : Nat) (v : WriteVars) :
    scanWriteInfo (writeText b fileOffset) v =
      ⟨Int.bmod b.length (2 ^ 32), fileOffset % 2 ^ 32, dataAfter (cString (b ++ [0])) v.data⟩ := by
  simp only [scanWriteInfo, writeText, scanUnsigned_decimal _ isDigit_comma, List.head?_cons,
    tail_cons, ne_eq, not_true_eq_false, if_false, dataAfter]
  cases scanWord (cString (b ++ [0])) with
  | none | some w => rfl

variable {b w : List UInt8} {i : Nat}

theorem handleWriteRequest_writeText (hb : b.length ≤ 1023) (fileOffset : Nat)
    (v : WriteVars) : handleWriteRequest (writeText b fileOffset) v =
      some ((dataAfter (cString b) v.data).take b.length) := by
  have hlength : Int.bmod b.length (2 ^ 32) = b.length :=
    Int.bmod_eq_of_le (by omega) (by omega)
  rw [handleWriteRequest, cString_writeText, scanWriteInfo_writeText, cString_append_nul, hlength]
  rfl

def Word (w : List UInt8) : Prop := w ≠ [] ∧ ∀ c ∈ w, c ≠ 0 ∧ isSpace c = false

-- by the list, and not by all bytes
instance (w : List UInt8) : Decidable (Word w) :=
  have : Decidable (∀ c ∈ w, c ≠ 0 ∧ isSpace c = false) := List.decidableBAll _ w
  inferInstanceAs (Decidable (_ ∧ _))

theorem scanWord_word (h : Word w) : scanWord w = some w := by
  obtain ⟨hne, hall⟩ := h
  have hdrop : w.dropWhile isSpace = w := by
    cases w with
    | nil => exact absurd rfl hne
    | cons c w => simp [(hall c mem_cons_self).2]
  have htake : w.takeWhile (fun b => !isSpace b) = w := by
    rw [takeWhile_eq_self_iff]
    intro c hc
    simp [(hall c hc).2]
  simp [scanWord, hdrop, htake, hne]

theorem scanWord_some {m : List UInt8} (h : scanWord m = some w) :
    w ≠ [] ∧ w.length ≤ m.length ∧ (∀ c ∈ w, c ∈ m ∧ isSpace c = false) := by
  simp only [scanWord, ite_none_left_eq_some, some.injEq] at h
  obtain ⟨hne, rfl⟩ := h
  refine ⟨hne, ?_, fun c hc => ⟨?_, ?_⟩⟩
  · exact le_trans (List.takeWhile_prefix _).length_le (dropWhile_suffix _).length_le
  · exact (dropWhile_suffix _).subset ((List.takeWhile_prefix _).subset hc)
  · simpa using mem_takeWhile_imp hc

def Plain (b : List UInt8) : Prop := b = [] ∨ Word b ∨ ∃ w, Word w ∧ b = w ++ [0]

theorem cString_word (h : Word w) : cString w = w :=
  cString_of_noNul fun h0 => (h.2 0 h0).1 rfl

theorem take_dataAfter_plain (h : Plain b) (data : Memory) :
    (dataAfter (cString b) data).take b.length = b := by
  rcases h with rfl | hw | ⟨w, hw, rfl⟩
  · rfl
  · simp [dataAfter, cString_word hw, scanWord_word hw]
  · rw [cString_append_nul, cString_word hw]
    simp only [dataAfter, scanWord_word hw, length_append, length_singleton]
    rw [take_append, take_of_length_le (Nat.le_succ _), Nat.add_sub_cancel_left]
    rfl

def filled (x : UInt8) : Memory := List.replicate 1024 x

theorem length_filled (x : UInt8) : (filled x).length = 1024 := length_replicate

theorem getElem?_filled (x : UInt8) (hi : i < 1024) : (filled x)[i]? = some x := by
  rw [filled, List.getElem?_replicate, if_pos hi]

theorem not_leftover (hi : i < 1024)
    (h : ∀ x, b[i]? = (filled x)[i]?) : False := by
  have h0 := (h 0).trans (getElem?_filled 0 hi)
  have h1 := (h 1).trans (getElem?_filled 1 hi)
  rw [h0] at h1
  exact absurd h1 (by decide)

theorem plain_of_take_dataAfter (hlen : b.length ≤ 1023)
    (h : ∀ data : Memory, data.length = 1024 → (dataAfter (cString b) data).take b.length = b) :
    Plain b := by
  have hget : ∀ x i, i < b.length →
      b[i]? = (dataAfter (cString b) (filled x))[i]? := by
    intro x i hi
    have hx := congrArg (·[i]?) (h (filled x) (length_filled x))
    rw [← hx]
    exact List.getElem?_take_of_lt hi
  cases hs : scanWord (cString b) with
  | none =>
    left
    by_contra hne
    have hpos := length_pos_of_ne_nil hne
    apply not_leftover (b := b) (by decide : 0 < 1024)
    intro x
    simpa only [dataAfter, hs] using hget x 0 hpos
  | some w =>
    obtain ⟨hne, hle, hall⟩ := scanWord_some hs
    have hword : Word w := by
      refine ⟨hne, fun c hc => ⟨?_, (hall c hc).2⟩⟩
      rintro rfl
      exact noNul_cString b (hall 0 hc).1
    have hle := le_trans hle (List.takeWhile_prefix _).length_le
    have hb := h (filled 0) (length_filled 0)
    simp only [dataAfter, hs] at hb
    rw [take_append, take_of_length_le hle] at hb
    -- how far the length goes beyond the word
    obtain ⟨k, hk⟩ := Nat.exists_eq_add_of_le hle
    rw [hk, Nat.add_sub_cancel_left] at hb
    match k with
    | 0 =>
      right; left
      rw [← hb]
      simpa using hword
    | 1 =>
      right; right
      exact ⟨w, hword, by simpa using hb.symm⟩
    | k + 2 =>
      exfalso
      apply not_leftover (b := b) (by omega : w.length + 1 < 1024)
      intro x
      rw [hget x (w.length + 1) (by omega)]
      simp [dataAfter, hs, List.getElem?_append_right]

/-- The process gets the bytes, whatever the backend's variables held before. -/
def WriteExact (b : List UInt8) (fileOffset : Nat) : Prop :=
  ∀ v : WriteVars, v.data.length = 1024 →
    (gukExecWriteBytes b fileOffset).bind (handleWriteRequest · v) = some b

theorem writeExact_iff (hlen : b.length ≤ 1023) (fileOffset : Nat) :
    WriteExact b fileOffset ↔ (writeText b fileOffset).length < bufferSize ∧ Plain b := by
  have hacc : ¬ b.length > 1023 := by omega
  simp only [WriteExact, gukExecWriteBytes, hacc, if_false, xenbusPrintf]
  by_cases hfit : (writeText b fileOffset).length < bufferSize
  · simp only [hfit, if_true, bind_some, some.injEq,
      handleWriteRequest_writeText hlen, true_and]
    constructor
    · intro h
      exact plain_of_take_dataAfter hlen fun data hd => h ⟨0, 0, data⟩ hd
    · intro h v _
      exact take_dataAfter_plain h v.data
  · simp only [hfit, if_false, bind_none, reduceCtorEq, imp_false, false_and, iff_false]
    intro h
    exact h ⟨0, 0, filled 0⟩ (length_filled 0)

/-! ## What the frontend gets -/

/-- The bytes that the backend reads. -/
def bytesRead (length : Int) (input : List UInt8) : List UInt8 := input.take (min length 80).toNat

def execRead (length : Int) (fileOffset : Nat) (input : List UInt8) (unset : Int)
    (buffer : Memory) : Option (Memory × Int) :=
  (xenbusPrintf (readText length fileOffset)).map fun readInfo =>
    gukExecReadBytes (handleReadRequest readInfo unset input) buffer

/-- The caller gets the bytes that were read, and their number. -/
def ReadExact (length : Int) (fileOffset : Nat) (input : List UInt8) : Prop :=
  ∀ unset buffer, ∃ memory : Memory, execRead length fileOffset input unset buffer =
    some (memory, ((bytesRead length input).length : Int)) ∧
    memory.take (bytesRead length input).length = bytesRead length input

theorem readText_fits (length : Int) (fileOffset : Nat) :
    (readText length fileOffset).length < bufferSize := by
  have h₁ : (decimal (length % 2 ^ 32).toNat).length ≤ 10 := length_decimal_le 9 (by omega)
  have h₂ : (decimal (fileOffset % 2 ^ 32)).length ≤ 10 := length_decimal_le 9 (by omega)
  simp only [readText, length_append, length_cons, bufferSize]
  omega

theorem cString_readText (length : Int) (fileOffset : Nat) :
    cString (readText length fileOffset) = readText length fileOffset := by
  apply cString_of_noNul
  simp [readText, noNul_decimal, comma]

section

variable {length : Int} {fileOffset : Nat} {input : List UInt8}
  (hlength : -2 ^ 31 ≤ length ∧ length < 2 ^ 31)

include hlength

theorem scan_readText (fileOffset : Nat) :
    ∃ rest n, scanUnsigned (cString (readText length fileOffset)) =
    some (n, rest) ∧ Int.bmod n (2 ^ 32) = length := by
  rw [cString_readText, readText, scanUnsigned_decimal _ isDigit_comma]
  refine ⟨_, _, rfl, ?_⟩
  rw [Int.toNat_of_nonneg (by omega), Int.bmod_def]
  split <;> omega

theorem handleReadRequest_readText (unset : Int) :
    handleReadRequest (readText length fileOffset) unset input =
      if length < 0 then .error (-EFAULT) else .ok (cString (bytesRead length input)) := by
  obtain ⟨rest, n, hscan, hn⟩ := scan_readText hlength fileOffset
  have hmin : (if length > 80 then 80 else length) = min length 80 := by omega
  simp only [handleReadRequest, hscan, hn, hmin, readFully, bytesRead]
  by_cases hneg : length < 0
  · rw [if_pos hneg, if_pos (by omega)]
  · rw [if_neg hneg, if_neg (by omega)]
    simp only [cString_append_nul]

theorem readExact_iff :
    ReadExact length fileOffset input ↔ 0 ≤ length ∧ 0 ∉ bytesRead length input := by
  have hstr := cString_of_noNul (noNul_cString (bytesRead length input))
  simp only [ReadExact, execRead, xenbusPrintf, readText_fits, if_true, map_some,
    handleReadRequest_readText hlength]
  by_cases hneg : length < 0
  · simp only [if_pos hneg, gukExecReadBytes, some.injEq, Prod.mk.injEq]
    constructor
    · intro h
      obtain ⟨memory, ⟨-, hcount⟩, -⟩ := h 0 []
      unfold EFAULT at hcount
      omega
    · rintro ⟨hpos, -⟩
      omega
  · simp only [if_neg hneg, gukExecReadBytes, hstr, some.injEq, Prod.mk.injEq]
    constructor
    · intro h
      refine ⟨Int.not_lt.mp hneg, fun hnul => ?_⟩
      obtain ⟨memory, ⟨-, hcount⟩, -⟩ := h 0 []
      exact absurd (Int.ofNat_inj.mp hcount) (ne_of_lt (length_cString_lt hnul))
    · rintro ⟨-, hnul⟩ unset buffer
      refine ⟨_, ⟨rfl, ?_⟩, ?_⟩
      · rw [cString_of_noNul hnul]
      · simp [cString_of_noNul hnul]

end

/-- What is written arrives just when its text fits the buffer and it is empty or one word, with or
without a NUL behind it; what is read arrives just when the length is not negative and no byte of it
is a NUL. -/
theorem exec_channel_transparent_iff (b input : List UInt8) (hb : b.length ≤ 1023) (length : Int)
    (hlength : -2 ^ 31 ≤ length ∧ length < 2 ^ 31) (fileOffset : Nat) :
    (WriteExact b fileOffset ↔ (writeText b fileOffset).length < bufferSize ∧ Plain b) ∧
      (ReadExact length fileOffset input ↔ 0 ≤ length ∧ 0 ∉ bytesRead length input) :=
  ⟨writeExact_iff hb fileOffset, readExact_iff hlength⟩

theorem exec_channel_transparent_iff_word :
    WriteExact [108, 115] 0 ∧ ReadExact 80 0 [97, 10] ∧ ¬ ReadExact (-1) 0 [97, 10] := by
  have h := exec_channel_transparent_iff [108, 115] [97, 10] (by decide) 80 (by decide) 0
  have hneg := exec_channel_transparent_iff [] [97, 10] (by decide) (-1) (by decide) 0
  exact ⟨h.1.mpr ⟨by decide, .inr (.inl (by decide))⟩, h.2.mpr (by decide),
    fun hr => absurd (hneg.2.mp hr).1 (by decide)⟩

/-- Of `a b` the process gets the `a`, a NUL and what the buffer held before; of the
three bytes `a`, NUL, `b` the caller gets one. -/
theorem exec_channel_not_transparent :
    (gukExecWriteBytes [97, 32, 98] 0).bind (handleWriteRequest · ⟨0, 0, filled 120⟩) =
        some [97, 0, 120] ∧
      (execRead 80 0 [97, 0, 98] 0 [1, 2, 3, 4]) = some ([97, 0, 3, 4], 1) := by
  constructor
  · decide +kernel
  · decide +kernel

end Guk.ExecChannel
