import Mathlib.Algebra.Group.Nat.Defs
import Guk.Runs
import Guk.Tiling

/-!
# The heap (`lib/xmalloc.c`)

Small blocks are cut from pages of their own and kept in `freelist` when free;
blocks of a page or more come straight from the page allocator. A header is named
by its address: `size` is its field, `linked` says that its list pointers are not
`NULL`. The list itself is the sequence of its headers.

The page allocator is a parameter: each call of `guk_xmalloc` comes with the address
it would hand out, or `none`. It hands out page aligned memory that the heap does not
hold.
-/
namespace Guk.Xmalloc

open Runs Function

def PAGE_SIZE : Nat := 4096

structure Layout where
  H : Nat
  A : Nat
  pow : ∃ k, k < 64 ∧ A = 2 ^ k
  dvd : A ∣ H
  pos : 0 < H
  fits : 2 * H ≤ PAGE_SIZE

/-- The fields `small`, `whole` and `pages` are not in the code: the live blocks cut from a page,
the live blocks of whole pages, and the pages that `xmalloc_new_page` obtained and `guk_xfree`
has not returned. `obtained` and `returned` record the calls of the page allocator. -/
structure Heap where
  size : Nat → Nat
  linked : Nat → Bool
  freelist : List Nat
  small : List Nat
  whole : List Nat
  pages : List Nat
  obtained : List (Nat × Nat)
  returned : List (Nat × Nat)

def alignUp (size align : Nat) : Nat := (size + align - 1) % 2 ^ 64 &&& (2 ^ 64 - align)

@[irreducible] def pageCount (size : Nat) : Int := Int.bmod (size / PAGE_SIZE : Nat) (2 ^ 32)

def held (s : Heap) : List (Nat × Nat) :=
  s.pages.map (fun P => (P, 1)) ++ s.whole.map fun b => (b, (pageCount (s.size b)).toNat)

def maybeSplit (L : Layout) (s : Heap) (hdr size block : Nat) : Heap :=
  let leftover := block - size
  if 2 * L.H ≤ leftover then
    let extra := hdr + size
    { s with
      size := update (update s.size extra leftover) hdr size
      linked := update (update s.linked extra true) hdr false
      freelist := extra :: s.freelist }
  else
    { s with
      size := update s.size hdr block
      linked := update s.linked hdr false }

def xmallocNewPage (L : Layout) (s : Heap) (size : Nat) (page : Option Nat) : Heap × Option Nat :=
  match page with
  | none => (s, none)
  | some hdr =>
    let s := { s with pages := hdr :: s.pages, obtained := (hdr, 1) :: s.obtained }
    ({ maybeSplit L s hdr size PAGE_SIZE with small := hdr :: s.small }, some (hdr + L.H))

def xmallocWholePages (L : Layout) (s : Heap) (size : Nat) (page : Option Nat) :
    Heap × Option Nat :=
  let asize := alignUp size PAGE_SIZE
  match page with
  | none => (s, none)
  | some hdr =>
    if pageCount asize ≤ 0 then (s, none)
    else
      ({ s with
        size := update s.size hdr asize
        linked := update s.linked hdr false
        whole := hdr :: s.whole
        obtained := (hdr, (pageCount asize).toNat) :: s.obtained }, some (hdr + L.H))

def blockSize (L : Layout) (asize : Nat) : Nat := alignUp ((asize + L.H) % 2 ^ 64) L.A

def gukXmalloc (L : Layout) (s : Heap) (asize : Nat) (page : Option Nat) : Heap × Option Nat :=
  let size := blockSize L asize
  if PAGE_SIZE ≤ size then xmallocWholePages L s size page
  else
    match s.freelist.find? fun i => size ≤ s.size i with
    | some i =>
      let s := maybeSplit L { s with freelist := s.freelist.erase i } i size (s.size i)
      ({ s with small := i :: s.small }, some (i + L.H))
    | none => xmallocNewPage L s size page

inductive Check where
  | notOnSamePage
  | previouslyFreed
  | bug
  deriving DecidableEq, Repr

structure Merge where
  hdr : Nat
  size : Nat → Nat
  freelist : List Nat

def mergeStep (m : Merge) (i : Nat) : Merge :=
  if i / PAGE_SIZE ≠ m.hdr / PAGE_SIZE then m
  else
    let m' := if i + m.size i = m.hdr then
        { hdr := i
          size := update m.size i (m.size i + m.size m.hdr)
          freelist := m.freelist.erase i : Merge }
      else m
    if m.hdr + m'.size m'.hdr = i then
      { m' with
        size := update m'.size m'.hdr (m'.size m'.hdr + m'.size i)
        freelist := m'.freelist.erase i }
    else m'

def deallocatePages (s : Heap) (hdr n : Nat) : Heap :=
  { s with returned := (hdr, n) :: s.returned, pages := s.pages.erase hdr }

def gukXfree (L : Layout) (s : Heap) (p : Nat) : Except Check Heap :=
  if p = 0 then .ok s
  else
    let hdr := p - L.H
    if p / PAGE_SIZE ≠ hdr / PAGE_SIZE then .error .notOnSamePage
    else if s.linked hdr then .error .previouslyFreed
    else
      let n := (pageCount (s.size hdr)).toNat
      let s := { s with small := s.small.erase hdr, whole := s.whole.erase hdr }
      if PAGE_SIZE ≤ s.size hdr then .ok (deallocatePages s hdr n)
      else
        -- the loop only ever deletes the entry it is at, so it runs over the list as it was
        let m := s.freelist.foldl mergeStep ⟨hdr, s.size, s.freelist⟩
        let s := { s with size := m.size, freelist := m.freelist }
        if s.size m.hdr = PAGE_SIZE then
          if m.hdr % PAGE_SIZE ≠ 0 then .error .bug else .ok (deallocatePages s m.hdr 1)
        else .ok { s with
          freelist := m.hdr :: s.freelist
          linked := update s.linked m.hdr true }

def live (s : Heap) : List Nat := s.small ++ s.whole

inductive Label where
  | malloc (asize : Nat) (page : Option Nat)
  | free (hdr : Nat)

def wanted (L : Layout) (asize : Nat) : Nat :=
  if PAGE_SIZE ≤ blockSize L asize then (pageCount (alignUp (blockSize L asize) PAGE_SIZE)).toNat
    else 1

def Fresh (s : Heap) (n a : Nat) : Prop :=
  a % PAGE_SIZE = 0 ∧ 0 < a ∧
    ∀ r ∈ held s, a + n * PAGE_SIZE ≤ r.1 ∨ r.1 + r.2 * PAGE_SIZE ≤ a

instance (s : Heap) (n a : Nat) : Decidable (Fresh s n a) := inferInstanceAs (Decidable (_ ∧ _))

def step (L : Layout) (s : Heap) : Label → Option Heap
  | .malloc asize page =>
    if asize + L.H + L.A < 2 ^ 64 ∧ ∀ a ∈ page, Fresh s (wanted L asize) a then
      some (gukXmalloc L s asize page).1
    else none
  | .free hdr => if hdr ∈ live s then (gukXfree L s (hdr + L.H)).toOption else none

structure Initial (s : Heap) : Prop where
  freelist : s.freelist = []
  small : s.small = []
  whole : s.whole = []
  pages : s.pages = []
  obtained : s.obtained = []
  returned : s.returned = []

structure WellFormed (L : Layout) (s : Heap) : Prop where
  tiled : ∀ P ∈ s.pages,
    Tiling.Tiled s.size (fun b => b ∈ s.freelist ∨ b ∈ live s) P (P + PAGE_SIZE)
  freeOrLive : ∀ b, b ∈ s.freelist → b ∉ live s
  inPages : ∀ b ∈ s.freelist, ∃ P ∈ s.pages, P ≤ b ∧ b < P + PAGE_SIZE
  notAdjacent : ∀ P ∈ s.pages, ∀ b ∈ s.freelist, P ≤ b → b + s.size b < P + PAGE_SIZE →
    b + s.size b ∉ s.freelist
  lastBlock : ∀ P ∈ s.pages, ∀ b, b ∈ s.freelist ∨ b ∈ live s → P ≤ b → b < P + PAGE_SIZE →
    b + s.size b = P + PAGE_SIZE → 2 * L.H ≤ s.size b
  checks : ∀ hdr ∈ live s, ∃ t, gukXfree L s (hdr + L.H) = .ok t ∧ live t = (live s).erase hdr
  allReturned : live s = [] → s.freelist = [] ∧ s.obtained.Perm s.returned

end Guk.Xmalloc
