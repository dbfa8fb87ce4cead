import Guk.FsOps

/-!
# What `guk_fs_read` returns

The result is the sum of the answers to the chunks, errors included, while the
positions in the file and in the buffer advance by the size of the chunk that was
asked for.
-/
namespace Guk.FsOps

open FsList

def ValidAnswer (file : Int → UInt8) (chunkOffset chunk : Int) (a : Response) : Prop :=
  a.retVal.toInt < 0 ∨
    a.retVal.toInt ≤ chunk ∧
      ∀ i : Nat, i < a.retVal.toInt → (poke a.written (List.replicate pageSize 0)).getD i 0 =
        file (chunkOffset + i)

def answer (backend : Backend) (m : Import) (k : Nat) : Response := backend (m.sent.length + k)

def answered (backend : Backend) (m : Import) (k : Nat) : Int := (answer backend m k).retVal.toInt

def chunkAt (len : Int) (k : Nat) : Int := chunkOf (len - pageSize * k)

/-- How many of `n` chunks are asked for: an answer that is not positive is the last one. -/
def asked : (Nat → Int) → Nat → Nat
  | _, 0 => 0
  | r, n + 1 => if 0 < r 0 then asked (fun k => r (k + 1)) n + 1 else 1

def chunks (len : Int) : Nat := ((len + (pageSize - 1)) / pageSize).toNat

def Got (r : Nat → Int) (sent p : Nat) : Prop :=
  ∃ k < sent, (pageSize * k : Int) ≤ p ∧ (p : Int) < pageSize * k + r k

def sentBy (m : Import) (res : ReadResult) : Nat := res.imp.sent.length - m.sent.length

/-- The result counts the bytes that were read without a gap, and these are in the buffer; it is
negative only if the first chunk failed. -/
structure ReadsPrefix (file : Int → UInt8) (offset : Int) (r : Nat → Int) (sent : Nat)
    (res : ReadResult) : Prop where
  bytes : ∀ p : Nat, p < res.ret → res.buf p = file (offset + p)
  count : 0 ≤ res.ret → (∀ p : Nat, p < res.ret → Got r sent p) ∧ ¬Got r sent res.ret.toNat
  error : res.ret < 0 → r 0 < 0

def total : (Nat → Int) → Nat → Int
  | _, 0 => 0
  | r, n + 1 => r 0 + total (fun k => r (k + 1)) n

/-- Some chunks are answered in full; if there are more, the next one is answered in part, without
an error, and what is answered behind it adds up to nothing. -/
def Clean (len : Int) (r : Nat → Int) (sent : Nat) : Prop :=
  ∃ j ≤ sent, (∀ k < j, r k = chunkAt len k) ∧
    (j < sent → 0 ≤ r j ∧ r j < chunkAt len j ∧ total (fun k => r (j + 1 + k)) (sent - (j + 1)) = 0)

variable {backend : Backend} {m : Import} {file : Int → UInt8} {fd len offset chunkOffset ret : Int}
  {bufOffset sent j k n p c : Nat} {buf : Buffer} {r : Nat → Int} {page : List UInt8}

/-! ## The loop -/

theorem answered_zero (backend : Backend) (m : Import) :
    answered backend m 0 = chunkRet backend m := rfl

theorem answer_afterChunk (k : Nat) :
    answer backend (afterChunk backend fd len chunkOffset m) k = answer backend m (k + 1) := by
  rw [answer, answer, afterChunk_sent, Nat.add_right_comm, Nat.add_assoc]

theorem answered_afterChunk : answered backend (afterChunk backend fd len chunkOffset m) =
    fun k => answered backend m (k + 1) := by
  funext k
  rw [answered, answer_afterChunk]
  rfl

theorem chunkOf_eq (len : Int) : chunkOf len = min (pageSize : Int) len := by
  unfold chunkOf
  omega

theorem lt_restOf (h : (pageSize * k : Int) < restOf len) :
    (pageSize : Int) < len ∧ (pageSize * (k + 1 : Nat) : Int) < len := by
  have hpos : (0 : Int) ≤ pageSize * k :=
    Int.mul_nonneg (Int.natCast_nonneg _) (Int.natCast_nonneg _)
  unfold restOf at h
  split at h
  case isTrue hlt =>
    rw [Int.natCast_succ, Int.mul_add, Int.mul_one]
    exact ⟨hlt, by omega⟩
  case isFalse => omega

theorem chunkAt_zero (len : Int) : chunkAt len 0 = chunkOf len := by simp [chunkAt]

theorem chunkAt_restOf (h : (pageSize * k : Int) < restOf len) :
    chunkAt (restOf len) k = chunkAt len (k + 1) := by
  have hrest : restOf len = len - pageSize := if_pos (lt_restOf h).1
  rw [chunkAt, chunkAt, hrest, Int.natCast_succ, Int.mul_add, Int.mul_one]
  congr 1
  omega

theorem copyIn_outside {dst : Nat} (h : p < dst ∨ dst + n ≤ p) :
    copyIn page n dst buf p = buf p :=
  if_neg (by omega)

theorem copyIn_inside {dst i : Nat} (h : i < n) :
    copyIn page n dst buf (dst + i) = page.getD i 0 := by
  rw [copyIn, if_pos (by omega), Nat.add_sub_cancel_left]

structure Ran (backend : Backend) (m : Import) (len : Int) (bufOffset : Nat) (ret : Int)
    (buf : Buffer) (sent : Nat) (res : ReadResult) : Prop where
  log : res.imp.sent.length = m.sent.length + sent
  ret : res.ret = ret + total (answered backend m) sent
  /-- only the last answer may be an error or end the file -/
  pos : ∀ k, k + 1 < sent → 0 < answered backend m k
  asked : ∀ k < sent, (pageSize * k : Int) < len
  started : 0 < len → 0 < sent
  below : ∀ p < bufOffset, res.buf p = buf p
  copied : ∀ k < sent, ∀ i : Nat, i < answered backend m k →
    res.buf (bufOffset + pageSize * k + i) =
      (poke (answer backend m k).written (List.replicate pageSize 0)).getD i 0

theorem ran_done (h : len ≤ 0) : Ran backend m len bufOffset ret buf 0 ⟨ret, buf, m⟩ where
  log := rfl
  ret := (Int.add_zero ret).symm
  pos _ hk := absurd hk (Nat.not_lt_zero _)
  asked _ hk := absurd hk (Nat.not_lt_zero _)
  started hlen := absurd hlen (Int.not_lt.mpr h)
  below _ _ := rfl
  copied _ hk := absurd hk (Nat.not_lt_zero _)

theorem ran_stop (hlen : 0 < len) (hret : chunkRet backend m ≤ 0) :
    Ran backend m len bufOffset ret buf 1
      ⟨ret + chunkRet backend m, buf, afterChunk backend fd len chunkOffset m⟩ where
  log := afterChunk_sent ..
  ret := by simp only [total, answered_zero, Int.add_zero]
  pos k hk := by omega
  asked k hk := by
    obtain rfl : k = 0 := by omega
    simpa using hlen
  started _ := Nat.one_pos
  below _ _ := rfl
  copied k hk i hi := by
    obtain rfl : k = 0 := by omega
    rw [answered_zero] at hi
    omega

theorem ran_next {res : ReadResult} (hlen : 0 < len) (hret : 0 < chunkRet backend m)
    (hle : chunkRet backend m ≤ chunkOf len)
    (h : Ran backend (afterChunk backend fd len chunkOffset m) (restOf len)
    (bufOffset + (chunkOf len).toNat)
      (ret + chunkRet backend m)
        (copyIn (chunkPage backend m) (chunkRet backend m).toNat bufOffset buf) sent res) :
    Ran backend m len bufOffset ret buf (sent + 1) res where
  log := by
    rw [h.log, afterChunk_sent]
    omega
  ret := by
    rw [h.ret, answered_afterChunk, total, answered_zero, Int.add_assoc]
  pos k hk := by
    cases k with
    | zero => exact hret
    | succ k =>
      have hpos := h.pos k (by omega)
      rwa [answered_afterChunk] at hpos
  asked k hk := by
    cases k with
    | zero => simpa using hlen
    | succ k =>
      exact (lt_restOf (h.asked k (by omega))).2
  started _ := Nat.succ_pos _
  below p hp := by
    rw [h.below p (by omega), copyIn_outside (.inl hp)]
  copied k hk i hi := by
    cases k with
    | zero =>
      rw [answered_zero] at hi
      rw [Nat.mul_zero, Nat.add_zero, h.below (bufOffset + i) (by omega), copyIn_inside (by omega)]
      rfl
    | succ k =>
      obtain ⟨hlt, _⟩ := lt_restOf (h.asked k (by omega))
      have hchunk : (chunkOf len).toNat = pageSize := by
        rw [chunkOf, if_pos hlt]
        rfl
      have hcopied := h.copied k (by omega) i (by rwa [answered_afterChunk])
      rw [answer_afterChunk, hchunk] at hcopied
      rw [← hcopied]
      congr 1
      rw [Nat.mul_succ]
      omega

theorem chunks_zero (h : len ≤ 0) : chunks len = 0 := by
  unfold chunks pageSize
  omega

theorem chunks_rest (h : 0 < len) : chunks len = chunks (restOf len) + 1 := by
  unfold chunks restOf pageSize
  split <;> omega

theorem ran (hvalid : ∀ k : Nat, (pageSize * k : Int) < len → answered backend m k ≤ chunkAt len k)
    :
    Ran backend m len bufOffset ret buf (asked (answered backend m) (chunks len))
      (readLoop backend fd len chunkOffset bufOffset ret buf m) := by
  induction hn : len.toNat using Nat.strong_induction_on
    generalizing len chunkOffset bufOffset ret buf m with
  | _ n ih =>
    by_cases hlen : 0 < len
    · rw [chunks_rest hlen, asked, answered_zero]
      by_cases hret : 0 < chunkRet backend m
      · have hle : chunkRet backend m ≤ chunkOf len := by
          have hfirst := hvalid 0 (by simpa using hlen)
          rwa [answered_zero, chunkAt_zero] at hfirst
        have hvalid' : ∀ k : Nat, (pageSize * k : Int) < restOf len →
            answered backend (afterChunk backend fd len chunkOffset m) k ≤
              chunkAt (restOf len) k := by
          intro k hk
          rw [answered_afterChunk, chunkAt_restOf hk]
          exact hvalid (k + 1) (lt_restOf hk).2
        rw [readLoop_next hlen hret, if_pos hret]
        apply ran_next hlen hret hle
        rw [← answered_afterChunk]
        exact ih _ (hn ▸ restOf_lt hlen) hvalid' rfl
      · rw [readLoop_stop hlen (Int.not_lt.mp hret), if_neg hret]
        exact ran_stop hlen (Int.not_lt.mp hret)
    · rw [readLoop_done (Int.not_lt.mp hlen), chunks_zero (Int.not_lt.mp hlen)]
      exact ran_done (Int.not_lt.mp hlen)

/-! ## The sum of the answers -/

theorem total_add (r : Nat → Int) (i n : Nat) :
    total r (i + n) = total r i + total (fun k => r (i + k)) n := by
  induction i generalizing r with
  | zero => simp only [Nat.zero_add, total, Int.zero_add]
  | succ i ih =>
    rw [Nat.succ_add_eq_add_succ, ← Nat.succ_eq_add_one, Nat.add_succ, total, total, ih,
      Int.add_assoc]
    simp only [Nat.add_right_comm i 1]

theorem total_succ (r : Nat → Int) (n : Nat) : total r (n + 1) = total r n + r n := by
  rw [total_add]
  simp only [total, Nat.add_zero, Int.add_zero]

structure Answers (len : Int) (r : Nat → Int) (sent : Nat) : Prop where
  started : 0 < sent
  pos : ∀ k, k + 1 < sent → 0 < r k
  asked : ∀ k < sent, (pageSize * k : Int) < len
  le : ∀ k < sent, r k ≤ chunkAt len k

theorem chunkAt_end (len : Int) (k : Nat) :
    (pageSize * k : Int) + chunkAt len k = min ((pageSize : Int) * (k + 1 : Nat)) len := by
  rw [chunkAt, chunkOf_eq, Int.natCast_succ, Int.mul_add, Int.mul_one]
  omega

theorem chunkAt_pos (h : (pageSize * k : Int) < len) : 0 < chunkAt len k := by
  have hpage : (0 : Int) < pageSize := by decide
  rw [chunkAt, chunkOf_eq]
  omega

theorem total_full (h : Answers len r sent) (hj : j ≤ sent) (hfull : ∀ k < j, r k = chunkAt len k) :
    total r j = min ((pageSize : Int) * j) len := by
  have hlen := h.asked 0 h.started
  induction j with
  | zero =>
    simp only [total]
    omega
  | succ j ih =>
    have hasked := h.asked j hj
    rw [total_succ, ih (Nat.le_of_succ_le hj) fun k hk => hfull k (Nat.lt_succ_of_lt hk),
      hfull j (Nat.lt_succ_self j), ← chunkAt_end]
    omega

structure FullUpTo (len : Int) (r : Nat → Int) (sent j : Nat) : Prop where
  le : j ≤ sent
  full : ∀ k < j, r k = chunkAt len k
  short : j < sent → r j ≠ chunkAt len j

def gapless (r : Nat → Int) (sent j : Nat) : Int := total r j + if j < sent then max (r j) 0 else 0

theorem exists_full (len : Int) (r : Nat → Int) (sent : Nat) : ∃ j, FullUpTo len r sent j := by
  induction sent with
  | zero =>
      exact ⟨0, le_refl 0, fun k hk => absurd hk (Nat.not_lt_zero k), fun h =>
      absurd h (Nat.not_lt_zero 0)⟩
  | succ n ih =>
    obtain ⟨j, hj, hfull, hshort⟩ := ih
    by_cases hjn : j < n
    · exact ⟨j, Nat.le_succ_of_le hj, hfull, fun _ => hshort hjn⟩
    · obtain rfl : j = n := by omega
      by_cases hr : r j = chunkAt len j
      · refine ⟨j + 1, le_rfl, fun k hk => ?_, fun h => absurd h (lt_irrefl _)⟩
        rcases Nat.lt_succ_iff_lt_or_eq.mp hk with hk | rfl
        · exact hfull k hk
        · exact hr
      · exact ⟨j, Nat.le_succ j, hfull, fun _ => hr⟩

theorem got_gapless (h : Answers len r sent) (hj : FullUpTo len r sent j)
    (hc : (c : Int) = gapless r sent j) :
    (∀ p < c, Got r sent p) ∧ ¬Got r sent c := by
  have hpage : (pageSize : Int) = 4096 := rfl
  have hend := chunkAt_end len
  have hasked := h.asked
  rw [gapless, total_full h hj.le hj.full] at hc
  simp only [Got, hpage] at hc hend hasked ⊢
  constructor
  · intro p hp
    by_cases hin : (p : Int) < min (4096 * (j : Int)) len
    · -- in a complete chunk
      have hk : p / 4096 < j := by omega
      have hfullk := hj.full _ hk
      have hendk := hend (p / 4096)
      exact ⟨p / 4096, lt_of_lt_of_le hk hj.le, by omega, by omega⟩
    · -- in the one that falls short
      have hlt : j < sent := by
        by_contra hge
        rw [if_neg hge] at hc
        omega
      have haskedj := hasked j hlt
      rw [if_pos hlt] at hc
      exact ⟨j, hlt, by omega, by omega⟩
  · rintro ⟨k, hk, hlow, hhigh⟩
    have hendk := hend k
    have hle := h.le k hk
    rcases Nat.lt_trichotomy k j with hkj | rfl | hkj
    · have hnonneg : 0 ≤ if j < sent then max (r j) 0 else 0 := by
        split <;> omega
      omega
    · have haskedk := hasked k hk
      rw [if_pos hk] at hc
      omega
    · have hlt : j < sent := lt_trans hkj hk
      have haskedj := hasked j hlt
      have hendj := hend j
      have hpos := chunkAt_pos (h.asked j hlt)
      have hlej := h.le j hlt
      have hne := hj.short hlt
      rw [if_pos hlt] at hc
      omega

theorem contiguous_unique {d : Nat} (hc : (∀ p < c, Got r sent p) ∧ ¬Got r sent c)
    (hd : (∀ p < d, Got r sent p) ∧ ¬Got r sent d) : c = d := by
  rcases Nat.lt_trichotomy c d with hlt | heq | hlt
  · exact absurd (hd.1 c hlt) hc.2
  · exact heq
  · exact absurd (hc.1 d hlt) hd.2

theorem clean_iff (h : Answers len r sent) (hj : FullUpTo len r sent j) :
    Clean len r sent ↔
      (j < sent → 0 ≤ r j ∧ total (fun k => r (j + 1 + k)) (sent - (j + 1)) = 0) := by
  constructor
  · rintro ⟨i, hi, hfulli, hshorti⟩ hlt
    rcases Nat.lt_trichotomy i j with hij | rfl | hij
    · have hlti := (hshorti (lt_trans hij hlt)).2.1
      rw [hj.full i hij] at hlti
      exact absurd hlti (Int.lt_irrefl _)
    · obtain ⟨hnonneg, _, hrest⟩ := hshorti hlt
      exact ⟨hnonneg, hrest⟩
    · exact absurd (hfulli j hij) (hj.short hlt)
  · intro hrest
    refine ⟨j, hj.le, hj.full, fun hlt => ?_⟩
    have hle := h.le j hlt
    have hne := hj.short hlt
    exact ⟨(hrest hlt).1, by omega, (hrest hlt).2⟩

theorem total_eq_gapless_iff (h : Answers len r sent) (hj : FullUpTo len r sent j) :
    total r sent = gapless r sent j ↔ Clean len r sent := by
  rw [clean_iff h hj, gapless]
  by_cases hlt : j < sent
  · have hsplit :
        total r sent = total r j + r j + total (fun k => r (j + 1 + k)) (sent - (j + 1)) := by
      rw [← total_succ, ← total_add, Nat.add_sub_cancel' hlt]
    rw [if_pos hlt, hsplit, imp_iff_right hlt]
    by_cases hneg : r j < 0
    · -- an error is the last answer
      obtain rfl : sent = j + 1 := by
        by_contra hne
        have hpos := h.pos j (by omega)
        omega
      simp only [Nat.sub_self, total]
      omega
    · omega
  · obtain rfl : j = sent := le_antisymm hj.le (not_lt.mp hlt)
    simp

theorem total_of_neg (h : Answers len r sent) (hneg : r 0 < 0) : total r sent < 0 := by
  have hstarted := h.started
  obtain rfl : sent = 1 := by
    by_contra hne
    have hpos := h.pos 0 (by omega)
    omega
  simpa only [total, Int.add_zero] using hneg

/-! ## The result -/

section

variable {res : ReadResult}
  (hvalid : ∀ k : Nat, (pageSize * k : Int) < len →
    ValidAnswer file (offset + pageSize * k) (chunkAt len k) (answer backend m k))

include hvalid

theorem answered_le (hk : (pageSize * k : Int) < len) : answered backend m k ≤ chunkAt len k := by
  rcases hvalid k hk with hneg | ⟨hle, _⟩
  · have hpos := chunkAt_pos hk
    unfold answered
    omega
  · exact hle

theorem Ran.answers (h : Ran backend m len bufOffset ret buf sent res) (hlen : 0 < len) :
    Answers len (answered backend m) sent where
  started := h.started hlen
  pos := h.pos
  asked := h.asked
  le k hk := answered_le hvalid (h.asked k hk)

theorem Ran.bytes (h : Ran backend m len 0 ret buf sent res)
    (hgot : Got (answered backend m) sent p) :
    res.buf p = file (offset + p) := by
  obtain ⟨k, hk, hlow, hhigh⟩ := hgot
  obtain ⟨i, rfl⟩ : ∃ i, p = pageSize * k + i := ⟨p - pageSize * k, by omega⟩
  have hi : (i : Int) < answered backend m k := by
    push_cast at hhigh
    omega
  have hcopied := h.copied k hk i hi
  rw [Nat.zero_add] at hcopied
  rcases hvalid k (h.asked k hk) with hneg | ⟨_, hbytes⟩
  · unfold answered at hi
    omega
  · rw [hcopied, hbytes i hi]
    push_cast
    rw [Int.add_assoc]

theorem Ran.readsPrefix_iff (h : Ran backend m len 0 0 buf sent res) (hlen : 0 < len) :
    ReadsPrefix file offset (answered backend m) sent res ↔
      answered backend m 0 < 0 ∨ Clean len (answered backend m) sent := by
  have hanswers := h.answers hvalid hlen
  have hret : res.ret = total (answered backend m) sent := by rw [h.ret, Int.zero_add]
  obtain ⟨j, hj⟩ := exists_full len (answered backend m) sent
  have hnonneg : 0 ≤ gapless (answered backend m) sent j := by
    rw [gapless, total_full hanswers hj.le hj.full]
    have hpage : (0 : Int) ≤ pageSize * j :=
      Int.mul_nonneg (Int.natCast_nonneg _) (Int.natCast_nonneg _)
    split <;> omega
  obtain ⟨c, hc⟩ := Int.eq_ofNat_of_zero_le hnonneg
  have hcount := got_gapless hanswers hj hc.symm
  have hclean : res.ret = c ↔ Clean len (answered backend m) sent := by
    rw [hret, ← hc, total_eq_gapless_iff hanswers hj]
  constructor
  · intro hreads
    by_cases hneg : res.ret < 0
    · exact .inl (hreads.error hneg)
    · obtain ⟨hgot, hnot⟩ := hreads.count (Int.not_lt.mp hneg)
      have heq := contiguous_unique ⟨fun p hp => hgot p (by omega), hnot⟩ hcount
      exact .inr (hclean.mp (by omega))
  · rintro (hneg | hok)
    · have hlt := total_of_neg hanswers hneg
      exact ⟨fun p hp => by omega, fun hge => by omega, fun _ => hneg⟩
    · have heq := hclean.mpr hok
      refine ⟨fun p hp => h.bytes hvalid (hcount.1 p (by omega)), fun _ =>
        ⟨fun p hp => hcount.1 p (by omega), ?_⟩,
        fun hlt => by omega⟩
      rw [heq, Int.toNat_natCast]
      exact hcount.2

end

/-- For valid answers, `guk_fs_read` returns the number of bytes that it has read without a gap,
with these bytes in the buffer, or the error of the first chunk, exactly if the first answer is an
error or the answers to the chunks that are asked for end cleanly. -/
theorem read_prefix_iff (backend : Backend) (file : Int → UInt8) (m : Import) (fd : Int)
    (buf : Buffer) (len offset : Int) (hlen : 0 < len)
    (hvalid : ∀ k : Nat, (pageSize * k : Int) < len →
      ValidAnswer file (offset + pageSize * k) (chunkAt len k) (answer backend m k)) :
    let res := gukFsRead backend fd buf len offset m
    let sent := asked (answered backend m) (chunks len)
    sentBy m res = sent ∧ (ReadsPrefix file offset (answered backend m) sent res ↔
      answered backend m 0 < 0 ∨ Clean len (answered backend m) sent) := by
  have hran : Ran backend m len 0 0 buf (asked (answered backend m) (chunks len))
      (gukFsRead backend fd buf len offset m) := ran fun k hk => answered_le hvalid hk
  refine ⟨?_, hran.readsPrefix_iff hvalid hlen⟩
  simp only [sentBy]
  rw [hran.log, Nat.add_sub_cancel_left]

/-! ## Two chunks -/

def sevens (n : Nat) : Response := ⟨List.replicate n 7, BitVec.ofNat 64 n⟩

def ioError : Response := ⟨[], -5⟩

def twoAnswers (a b : Response) : Backend := fun n => if n = 0 then a else b

theorem validAnswer_sevens {chunkOffset chunk : Int} (hn : (BitVec.ofNat 64 n).toInt = n)
    (hle : n ≤ chunk) :
    ValidAnswer (fun _ => 7) chunkOffset chunk (sevens n) := by
  refine .inr ⟨by rwa [sevens, hn], fun i hi => ?_⟩
  rw [sevens, hn] at hi
  have hlt : i < n := by omega
  simp [sevens, poke, List.getElem?_append_left, hlt]

theorem read_prefix_two_chunks :
    ReadsPrefix (fun _ => 7) 0
      (answered (twoAnswers (sevens 4096) (sevens 1)) (allocImport 64 fun _ => []))
      2 (gukFsRead (twoAnswers (sevens 4096) (sevens 1)) 3 (fun _ => 0) 4097 0
        (allocImport 64 fun _ => [])) := by
  have hasked : asked (answered (twoAnswers (sevens 4096) (sevens 1)) (allocImport 64 fun _ => []))
      (chunks 4097) = 2 := by decide
  have h := read_prefix_iff (twoAnswers (sevens 4096) (sevens 1)) (fun _ => 7)
    (allocImport 64 fun _ => []) 3 (fun _ => 0) 4097 0 (by decide) (fun k hk => ?_)
  · simp only [hasked] at h
    refine h.2.mpr (.inr ⟨2, le_refl 2, ?_, fun hlt => absurd hlt (by decide)⟩)
    decide
  · have hk' : k = 0 ∨ k = 1 := by
      simp only [pageSize] at hk
      omega
    rcases hk' with rfl | rfl
    · exact validAnswer_sevens (by decide) (by decide)
    · exact validAnswer_sevens (by decide) (by decide)

/-- The first page is read in full and the second one fails: 4091 is returned for 4096 bytes. -/
theorem read_not_prefix :
    ¬∀ (backend : Backend) (file : Int →
      UInt8) (m : Import) (fd : Int) (buf : Buffer) (len offset : Int), 0 < len →
      (∀ k : Nat, (pageSize * k : Int) < len →
        ValidAnswer file (offset + pageSize * k) (chunkAt len k) (answer backend m k)) →
      ReadsPrefix file offset (answered backend m)
        (sentBy m (gukFsRead backend fd buf len offset m))
        (gukFsRead backend fd buf len offset m) := by
  intro hall
  have h :=
    hall (twoAnswers (sevens 4096) ioError) (fun _ => 7) (allocImport 64 fun _ => []) 3 (fun _ => 0)
    8192 0
    (by decide) (fun k hk => ?_)
  · rw [gukFsRead, readLoop_next (by decide) (by decide),
      readLoop_stop (by decide) (by decide)] at h
    exact (h.count (by decide)).2 ⟨0, by decide, by decide, by decide⟩
  · have hk' : k = 0 ∨ k = 1 := by
      simp only [pageSize] at hk
      omega
    rcases hk' with rfl | rfl
    · exact validAnswer_sevens (by decide) (by decide)
    · exact .inl (by decide)

end Guk.FsOps
