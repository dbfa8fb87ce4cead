import Guk.FsFreelist
import Guk.FsList

/-!
# The file operations of the FS frontend (`fs-front.c`)

Every operation takes a private request id from the free list, fills the page that
belongs to the id, sends a request and sleeps until the handler has copied the
response; then it reads the result and puts the id back.

The operations of one import are made one after the other. The backend is given by
its answers: to each request in turn, what it writes to the page and `ret_val`.
-/
namespace Guk.FsOps

open CString FsFreelist FsList Runs Function

inductive Request where
  | fileOpen (flags : Int)
  | fileClose (fd : Int)
  | fileRead (fd len offset : Int)
  | fileWrite (fd len offset : Int)
  | fstat (fd : Int)
  | stat (fd : Int)
  | fileTruncate (fd length : Int)
  | remove
  | rename (oldNameOffset newNameOffset : Nat)
  | create (directory mode : Int)
  | dirList (offset : Int)
  | chmod (fd mode : Int)
  | fsSpace
  | fileSync (fd : Int)
  deriving DecidableEq, Repr

structure Sent where
  id : Nat
  request : Request
  page : List UInt8

structure Import where
  freelist : Nat → Nat
  page : Nat → List UInt8
  sent : List Sent

abbrev Backend := Nat → Response

def poke (s page : List UInt8) : List UInt8 := s ++ page.drop s.length

def sprintf (s page : List UInt8) : List UInt8 := poke (cString s ++ [0]) page

def zeroPage (_ : List UInt8) : List UInt8 := List.replicate pageSize 0

section

variable (backend : Backend)

def exchange (fill : List UInt8 → List UInt8) (request : Request) (m : Import) :
    Nat × BitVec 64 × Import :=
  let (id, freelist) := getIdFromFreelist m.freelist
  let page := fill (m.page id)
  let answer := backend m.sent.length
  (id, answer.retVal,
    { freelist := freelist
      page := update m.page id (poke answer.written page)
      sent := m.sent ++ [⟨id, request, page⟩] })

def release (id : Nat) (m : Import) : Import := { m with freelist := addIdToFreelist m.freelist id }

def oneRequest (fill : List UInt8 → List UInt8) (request : Request) (m : Import) :
    BitVec 64 × Import :=
  let (id, r, m) := exchange backend fill request m
  (r, release id m)

def toCInt (r : BitVec 64) : Int := (r.setWidth 32).toInt

def intRequest (fill : List UInt8 → List UInt8) (request : Request) (m : Import) : Int × Import :=
  let (r, m) := oneRequest backend fill request m
  (toCInt r, m)

def gukFsOpen (file : List UInt8) (flags : Int) (m : Import) : Int × Import :=
  intRequest backend (sprintf file) (.fileOpen flags) m

def gukFsClose (fd : Int) (m : Import) : Int × Import := intRequest backend id (.fileClose fd) m

abbrev Buffer := Nat → UInt8

def copyIn (page : List UInt8) (n dst : Nat) (buf : Buffer) : Buffer :=
  fun p => if dst ≤ p ∧ p < dst + n then page.getD (p - dst) 0 else buf p

structure ReadResult where
  ret : Int
  buf : Buffer
  imp : Import

def chunkOf (len : Int) : Int := if pageSize < len then pageSize else len

def restOf (len : Int) : Int := if pageSize < len then len - pageSize else 0

theorem restOf_lt {len : Int} (h : 0 < len) : (restOf len).toNat < len.toNat := by
  unfold restOf pageSize
  split <;> omega

def readLoop (fd len chunkOffset : Int) (bufOffset : Nat) (ret : Int) (buf : Buffer) (m : Import) :
    ReadResult :=
  if 0 < len then
    let chunk := chunkOf len
    let (id, r, m) := exchange backend zeroPage (.fileRead fd chunk chunkOffset) m
    let chunkRet := r.toInt
    let ret := ret + chunkRet
    let buf := if 0 < chunkRet then copyIn (m.page id) chunkRet.toNat bufOffset buf else buf
    let m := release id m
    if chunkRet ≤ 0 then ⟨ret, buf, m⟩
    else readLoop fd (restOf len) (chunkOffset + chunk) (bufOffset + chunk.toNat) ret buf m
  else ⟨ret, buf, m⟩
termination_by len.toNat
decreasing_by exact restOf_lt ‹0 < len›

def gukFsRead (fd : Int) (buf : Buffer) (len offset : Int) (m : Import) : ReadResult :=
  readLoop backend fd len offset 0 0 buf m

def gukFsWrite (fd : Int) (data : List UInt8) (len offset : Int) (m : Import) :
    Option (Int × Import) :=
  if len < 0 ∨ pageSize < len then none
  else
    let fill := fun _ => data.take len.toNat ++ List.replicate (pageSize - len.toNat) 0
    let (r, m) := oneRequest backend fill (.fileWrite fd len offset) m
    some (r.toInt, m)

structure Stat where
  mode : Int
  size : Int
  blksize : Int
  blocks : Int
  atim : Int
  mtim : Int
  ctim : Int
  deriving DecidableEq, Repr

def numberAt (page : List UInt8) (offset n : Nat) : Int :=
  (BitVec.ofNat (8 * n) (((page.drop offset).take n).foldr (fun b v => b.toNat + 256 * v) 0)).toInt

def readStat (page : List UInt8) : Stat where
  mode := numberAt page 0 4
  size := numberAt page 4 4
  blksize := numberAt page 8 4
  blocks := numberAt page 0 4
  atim := numberAt page 16 8
  mtim := numberAt page 24 8
  ctim := numberAt page 32 8

def fsXstat (fill : List UInt8 → List UInt8) (request : Request) (m : Import) :
    Int × Stat × Import :=
  let (id, r, m) := exchange backend fill request m
  (toCInt r, readStat (m.page id), release id m)

def gukFsFstat (fd : Int) (m : Import) : Int × Stat × Import :=
  fsXstat backend zeroPage (.fstat fd) m

def gukFsStat (file : List UInt8) (m : Import) : Int × Stat × Import :=
  fsXstat backend (sprintf file) (.stat (-1)) m

def gukFsTruncate (fd length : Int) (m : Import) : Int × Import :=
  intRequest backend id (.fileTruncate fd length) m

def gukFsRemove (file : List UInt8) (m : Import) : Int × Import :=
  intRequest backend (sprintf file) .remove m

def oldHeader : List UInt8 := text "old: "

def newHeader : List UInt8 := text "new: "

def gukFsRename (oldFileName newFileName : List UInt8) (m : Import) : Int × Import :=
  intRequest backend
    (poke (oldHeader ++ cString oldFileName ++ [0] ++ newHeader ++ cString newFileName ++ [0]))
    (.rename (short oldHeader.length)
      (short (oldHeader.length + (cString oldFileName).length + newHeader.length + 1))) m

def gukFsCreate (name : List UInt8) (directory mode : Int) (m : Import) : Int × Import :=
  intRequest backend (sprintf name) (.create directory mode) m

def gukFsList (name : List UInt8) (offset : Int) (hasMore : Bool) (m : Import) : Listed × Import :=
  let (id, r, m) := exchange backend (sprintf name) (.dirList offset) m
  let nrFiles := ((r &&& nrFilesMask) >>> nrFilesShift).toNat
  if nrFiles ≤ 0 then (⟨[], nrFiles, hasMore⟩, m)
  else (⟨strings nrFiles (m.page id), nrFiles, (r &&& hasMoreFlag) == hasMoreFlag⟩, release id m)

def gukFsFchmod (fd mode : Int) (m : Import) : Int × Import :=
  intRequest backend id (.chmod fd mode) m

def gukFsSpace (location : List UInt8) (m : Import) : Int × Import :=
  let (r, m) := oneRequest backend (sprintf location) .fsSpace m
  (r.toInt, m)

def gukFsSync (fd : Int) (m : Import) : Int × Import := intRequest backend id (.fileSync fd) m

inductive Call where
  | open (file : List UInt8) (flags : Int)
  | close (fd : Int)
  | read (fd : Int) (buf : Buffer) (len offset : Int)
  | write (fd : Int) (data : List UInt8) (len offset : Int)
  | fstat (fd : Int)
  | stat (file : List UInt8)
  | truncate (fd length : Int)
  | remove (file : List UInt8)
  | rename (oldFileName newFileName : List UInt8)
  | create (name : List UInt8) (directory mode : Int)
  | list (name : List UInt8) (offset : Int) (hasMore : Bool)
  | fchmod (fd mode : Int)
  | space (location : List UInt8)
  | sync (fd : Int)

def step (m : Import) : Call → Option Import
  | .open file flags => some (gukFsOpen backend file flags m).2
  | .close fd => some (gukFsClose backend fd m).2
  | .read fd buf len offset => some (gukFsRead backend fd buf len offset m).imp
  | .write fd data len offset => (gukFsWrite backend fd data len offset m).map (·.2)
  | .fstat fd => some (gukFsFstat backend fd m).2.2
  | .stat file => some (gukFsStat backend file m).2.2
  | .truncate fd length => some (gukFsTruncate backend fd length m).2
  | .remove file => some (gukFsRemove backend file m).2
  | .rename oldFileName newFileName => some (gukFsRename backend oldFileName newFileName m).2
  | .create name directory mode => some (gukFsCreate backend name directory mode m).2
  | .list name offset hasMore => some (gukFsList backend name offset hasMore m).2
  | .fchmod fd mode => some (gukFsFchmod backend fd mode m).2
  | .space location => some (gukFsSpace backend location m).2
  | .sync fd => some (gukFsSync backend fd m).2

end

def allocImport (n : Nat) (page : Nat → List UInt8) : Import := ⟨allocRequestTable n, page, []⟩

variable {backend : Backend} {m : Import}

theorem gukFsList_listed (name : List UInt8) (offset : Int) (hasMore : Bool) :
    (gukFsList backend name offset hasMore m).1 =
      FsList.gukFsList (backend m.sent.length) (sprintf name (m.page (m.freelist 0))) hasMore := by
  simp only [gukFsList, FsList.gukFsList, exchange, getIdFromFreelist, update_self]
  split
  · rfl
  · rfl

/-! ## The passes of `guk_fs_read` -/

def chunkRet (backend : Backend) (m : Import) : Int := (backend m.sent.length).retVal.toInt

def chunkPage (backend : Backend) (m : Import) : List UInt8 :=
  poke (backend m.sent.length).written (List.replicate pageSize 0)

def afterChunk (backend : Backend) (fd len chunkOffset : Int) (m : Import) : Import :=
  let (id, _, m) := exchange backend zeroPage (.fileRead fd (chunkOf len) chunkOffset) m
  release id m

theorem afterChunk_sent (backend : Backend) (fd len chunkOffset : Int) (m : Import) :
    (afterChunk backend fd len chunkOffset m).sent.length = m.sent.length + 1 :=
  List.length_append

variable {fd len chunkOffset ret : Int} {bufOffset : Nat} {buf : Buffer}

theorem readLoop_done (hlen : len ≤ 0) :
    readLoop backend fd len chunkOffset bufOffset ret buf m = ⟨ret, buf, m⟩ := by
  rw [readLoop, if_neg (Int.not_lt.mpr hlen)]

theorem readLoop_stop (hlen : 0 < len) (hret : chunkRet backend m ≤ 0) :
    readLoop backend fd len chunkOffset bufOffset ret buf m =
      ⟨ret + chunkRet backend m, buf, afterChunk backend fd len chunkOffset m⟩ := by
  have hpos : ¬0 < (backend m.sent.length).retVal.toInt := Int.not_lt.mpr hret
  rw [readLoop, if_pos hlen]
  simp only [exchange, hpos, if_false]
  exact if_pos hret

theorem readLoop_next (hlen : 0 < len) (hret : 0 < chunkRet backend m) :
    readLoop backend fd len chunkOffset bufOffset ret buf m =
      readLoop backend fd (restOf len) (chunkOffset + chunkOf len) (bufOffset + (chunkOf len).toNat)
        (ret + chunkRet backend m)
        (copyIn (chunkPage backend m) (chunkRet backend m).toNat bufOffset buf)
        (afterChunk backend fd len chunkOffset m) := by
  have hpos : 0 < (backend m.sent.length).retVal.toInt := hret
  rw [readLoop, if_pos hlen]
  simp only [exchange, getIdFromFreelist, update_self, hpos, if_true]
  exact if_neg (Int.not_le.mpr hret)

end Guk.FsOps
