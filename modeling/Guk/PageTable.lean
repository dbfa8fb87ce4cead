import Guk.Radix
import Mathlib.Algebra.Group.Int.Defs
import Mathlib.Algebra.Group.Nat.Defs

/-!
# Building page tables (`arch/x86/mm.c`)

x86-64 with 4K pages. Memory is seen by machine frames, each with the 512 entries
it holds as a page table. A table is read as what its frame holds: the source
reads it through the 1-1 mapping of that frame. `HYPERVISOR_mmu_update` writes the
entry at a machine address, and pinning has no effect here.

`pfn_alloc` of the two environments returns a machine frame, or a negative number
when there is none. The environment of page table frames is known by what its
calls return, one after the other; the environment of pages is asked once for
every page of the range.
-/
namespace Guk.PageTable

open Radix

abbrev Memory := Nat → Nat → Nat

/-! ## Entries and addresses -/

def pageRw : Nat := 0x002
def l1Prot : Nat := 0x027
def l2Prot : Nat := 0x067
def l3Prot : Nat := 0x067
def l4Prot : Nat := 0x067

def present (pte : Nat) : Bool := pte % 2 = 1

def pteToMfn (pte : Nat) : Nat := pte / 4096 % 2 ^ 40

def mkEntry (mfn prot : Nat) : Nat := mfn * 4096 + prot

def tableOffset (addr : Nat) : Nat → Nat
  | 0 => addr / 2 ^ 39 % 512
  | 1 => addr / 2 ^ 30 % 512
  | 2 => addr / 2 ^ 21 % 512
  | _ => addr / 2 ^ 12 % 512

def next (pte : Nat) : Option Nat := if present pte then some (pteToMfn pte) else none

def Canonical (addr : Nat) : Prop := addr < 2 ^ 47 ∨ (2 ^ 64 - 2 ^ 47 ≤ addr ∧ addr < 2 ^ 64)

def walkFrom (m : Memory) (addr : Nat) : Nat → Nat → Option Nat
  | 0, _ => none
  | 1, tab => some (m tab (tableOffset addr 3))
  | level + 2, tab =>
    let pte := m tab (tableOffset addr (2 - level))
    if !present pte then none else walkFrom m addr (level + 1) (pteToMfn pte)

def walk (m : Memory) (root addr : Nat) : Option Nat := walkFrom m addr 4 root

/-! ## The builder -/

/-- `npf` are the results of `env_npf->pfn_alloc`, call by call, `pfn` those of
`env_pfn->pfn_alloc`, by address. `virt` is the address at which a frame is mapped 1-1. -/
structure Env where
  npf : Nat → Int
  pfn : Nat → Int
  virt : Nat → Nat

structure Update where
  ptr : Nat
  val : Nat

def mmuUpdate (m : Memory) (u : Update) : Memory := write m (u.ptr / 4096) (u.ptr % 4096 / 8) u.val

def protE : Nat → Nat
  | 1 => l3Prot
  | 2 => l2Prot
  | _ => l1Prot

def protT : Nat → Nat
  | 1 => l4Prot
  | 2 => l3Prot
  | _ => l2Prot

def newPtFrame (env : Env) (root : Nat) (m : Memory) (mfn prev offset depth : Nat) : Memory :=
  let ptPage := env.virt mfn
  let m := Function.update m mfn fun _ => 0
  let tab := pteToMfn (m root (tableOffset ptPage 0))
  let tab := pteToMfn (m tab (tableOffset ptPage 1))
  let m := mmuUpdate m
    { ptr := m tab (tableOffset ptPage 2) / 4096 * 4096 + 8 * tableOffset ptPage 3
      val := mkEntry mfn (protE depth &&& (0xfff - pageRw)) }
  mmuUpdate m { ptr := prev * 4096 + 8 * offset, val := mkEntry mfn (protT depth) }

structure Builder where
  m : Memory
  calls : Nat
  mmuUpdates : List Update

section

variable (env : Env) (root : Nat)

def descend (addr : Nat) (b : Builder) (mfn depth : Nat) : Option (Builder × Nat) :=
  let offset := tableOffset addr depth
  if !present (b.m mfn offset) then
    let npfPfn := env.npf b.calls
    if npfPfn < 0 then none
    else
      let m := newPtFrame env root b.m npfPfn.toNat mfn offset (depth + 1)
      some ({ b with m := m, calls := b.calls + 1 }, pteToMfn (m mfn offset))
  else some (b, pteToMfn (b.m mfn offset))

def mapPage (b : Builder) (addr : Nat) : Option Builder :=
  (descend env root addr b root 0).bind fun (b, mfn) =>
  (descend env root addr b mfn 1).bind fun (b, mfn) =>
  (descend env root addr b mfn 2).bind fun (b, mfn) =>
    let mfnForPfn := env.pfn addr
    if mfnForPfn < 0 then none
    else if mfnForPfn > 0 then
      some { b with mmuUpdates := b.mmuUpdates ++
        [⟨mfn * 4096 + 8 * tableOffset addr 3, mkEntry mfnForPfn.toNat l1Prot⟩] }
    else some b

def flush (b : Builder) : Builder :=
  { b with m := b.mmuUpdates.foldl mmuUpdate b.m, mmuUpdates := [] }

def buildLoop (start stop : Nat) (b : Builder) : Option Builder :=
  if _h : start < stop then
    match mapPage env root b start with
    | none => none
    | some b =>
      let b := if b.mmuUpdates.length = 512 ∨ start + 4096 = stop then flush b else b
      buildLoop (start + 4096) stop b
  else some b
termination_by stop - start
decreasing_by omega

def buildPagetableVs (start stop : Nat) (m : Memory) : Option Memory :=
  (buildLoop env root start stop ⟨m, 0, []⟩).map Builder.m

end

/-! ## What is to be shown -/

def translate (m : Memory) (root addr : Nat) : Option Nat := node next m root (tableOffset addr) 4

def pteOf (m : Memory) (root addr : Nat) : Option Nat := leaf next m root 3 (tableOffset addr)

structure WellFormed (m : Memory) (root : Nat) : Prop where
  root_lt : root < 2 ^ 40
  /-- every table has one entry that refers to it -/
  tree : IsTree next m root 3

structure EnvOk (env : Env) (m : Memory) (root start stop : Nat) : Prop where
  npf_lt : ∀ k, env.npf k < 2 ^ 40
  pfn_lt : ∀ addr, env.pfn addr < 2 ^ 40
  distinct : ∀ j k, 0 ≤ env.npf j → env.npf j = env.npf k → j = k
  fresh : ∀ k, 0 ≤ env.npf k → ¬ Reached next m root 3 (env.npf k).toNat
  canonical : ∀ k, 0 ≤ env.npf k → Canonical (env.virt (env.npf k).toNat)
  outside : ∀ k, 0 ≤ env.npf k →
    ¬ (start ≤ env.virt (env.npf k).toNat ∧ env.virt (env.npf k).toNat < stop)
  mapped : ∀ k, 0 ≤ env.npf k →
    translate m root (env.virt (env.npf k).toNat) = some (env.npf k).toNat

def Kept (env : Env) (m m' : Memory) (root addr : Nat) : Prop :=
  translate m' root addr = translate m root addr ∧
  (pteOf m' root addr = pteOf m root addr ∨
    ∃ k pte, 0 ≤ env.npf k ∧ addr / 4096 = env.virt (env.npf k).toNat / 4096 ∧
      pteOf m' root addr = some pte ∧ pte / 2 % 2 = 0)

structure Built (env : Env) (m m' : Memory) (root start stop : Nat) : Prop where
  /-- the walk of a page for which there was a frame leads to that frame -/
  mapped : ∀ addr, start ≤ addr → addr < stop → 0 < env.pfn (addr / 4096 * 4096) →
    ∃ pte, walk m' root addr = some pte ∧ present pte ∧
      (pteToMfn pte : Int) = env.pfn (addr / 4096 * 4096)
  skipped : ∀ addr, start ≤ addr → addr < stop → env.pfn (addr / 4096 * 4096) = 0 →
    pteOf m' root addr = pteOf m root addr
  outside : ∀ addr, Canonical addr → ¬ (start ≤ addr ∧ addr < stop) → Kept env m m' root addr

/-! ## Entries -/

theorem tableOffset_lt (addr d : Nat) : tableOffset addr d < 512 := by
  unfold tableOffset
  split <;> exact Nat.mod_lt _ (by decide)

@[simp] theorem next_zero : next 0 = none := rfl

theorem next_mkEntry {mfn prot : Nat} (hm : mfn < 2 ^ 40) (hprot : prot < 4096)
    (hp : prot % 2 = 1) :
    next (mkEntry mfn prot) = some mfn := by
  have hpresent : present (mkEntry mfn prot) = true := by
    apply decide_eq_true
    unfold mkEntry
    omega
  have hmfn : pteToMfn (mkEntry mfn prot) = mfn := by
    simp only [pteToMfn, mkEntry]
    omega
  rw [next, if_pos hpresent, hmfn]

theorem next_eq_none {pte : Nat} : next pte = none ↔ present pte = false := by
  unfold next
  split
  · rename_i h
    simp [h]
  · rename_i h
    simpa using h

theorem next_lt {pte t : Nat} (h : next pte = some t) : t < 2 ^ 40 := by
  unfold next at h
  split at h <;> cases h
  exact Nat.mod_lt _ (by decide)

theorem pteToMfn_of_next {pte t : Nat} (h : next pte = some t) : pteToMfn pte = t := by
  unfold next at h
  split at h
  · exact Option.some.inj h
  · cases h

theorem protE_lt (depth : Nat) : protE depth &&& (0xfff - pageRw) < 4096 ∧
    (protE depth &&& (0xfff - pageRw)) % 2 = 1 ∧
      (protE depth &&& (0xfff - pageRw)) / 2 % 2 = 0 := by
  unfold protE
  split <;> decide

theorem protT_lt (depth : Nat) : protT depth < 4096 ∧ protT depth % 2 = 1 := by
  unfold protT
  split <;> decide

theorem mmuUpdate_eq {m : Memory} {t i v : Nat} (hi : i < 512) :
    mmuUpdate m ⟨t * 4096 + 8 * i, v⟩ = write m t i v := by
  have hframe : (t * 4096 + 8 * i) / 4096 = t := by omega
  have hindex : (t * 4096 + 8 * i) % 4096 / 8 = i := by omega
  rw [mmuUpdate, hframe, hindex]

theorem agree_iff {a b : Nat} (ha : Canonical a) (hb : Canonical b) :
    Agree 4 (tableOffset a) (tableOffset b) ↔ a / 4096 = b / 4096 := by
  constructor
  · intro h
    have h₀ : a / 2 ^ 39 % 512 = b / 2 ^ 39 % 512 := h 0 (by decide)
    have h₁ : a / 2 ^ 30 % 512 = b / 2 ^ 30 % 512 := h 1 (by decide)
    have h₂ : a / 2 ^ 21 % 512 = b / 2 ^ 21 % 512 := h 2 (by decide)
    have h₃ : a / 2 ^ 12 % 512 = b / 2 ^ 12 % 512 := h 3 (by decide)
    unfold Canonical at ha hb
    omega
  · intro h d _
    have hdiv : ∀ k, a / (4096 * k) = b / (4096 * k) := by
      intro k
      rw [← Nat.div_div_eq_div_mul, ← Nat.div_div_eq_div_mul, h]
    unfold tableOffset
    split
    · exact congrArg (· % 512) (hdiv 134217728)
    · exact congrArg (· % 512) (hdiv 262144)
    · exact congrArg (· % 512) (hdiv 512)
    · exact congrArg (· % 512) h

theorem walkFrom_add_two (m : Memory) (addr level tab : Nat) : walkFrom m addr (level + 2) tab =
    (next (m tab (tableOffset addr (2 - level)))).bind (walkFrom m addr (level + 1)) := by
  rw [walkFrom, next]
  cases present (m tab (tableOffset addr (2 - level))) <;> rfl

theorem walk_eq (m : Memory) (root addr : Nat) : walk m root addr =
    (node next m root (tableOffset addr) 3).map fun t => m t (tableOffset addr 3) := by
  simp only [walk, walkFrom_add_two, node, Option.bind_some]
  cases next (m root (tableOffset addr 0)) with
  | none => rfl
  | some t =>
    simp only [Option.bind_some]
    cases next (m t (tableOffset addr 1)) with
    | none => rfl
    | some t =>
      simp only [Option.bind_some]
      cases next (m t (tableOffset addr 2)) <;> rfl

end Guk.PageTable
