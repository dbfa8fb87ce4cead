import Guk.PageTable

/-!
# The page table builder keeps and adds translations

A new table changes no translation, and a batch of updates changes those of its own
pages only. From this follows what the loop has done to every address.
-/
namespace Guk.PageTable

open Radix Function List Option

variable {env : Env} {root g t x i v e d depth k : Nat} {m m' m₀ : Memory} {p p₀ : Nat → Nat}

theorem reached_lt (hroot : root < 2 ^ 40) (h : Reached next m root depth t) : t < 2 ^ 40 := by
  obtain ⟨d, -, p, hp⟩ := h
  cases d with
  | zero =>
    cases hp
    exact hroot
  | succ d =>
    obtain ⟨_, -, hnext⟩ := bind_eq_some_iff.mp hp
    exact next_lt hnext

theorem node_three (h : node next m root p 4 = some g) : node next m root p 3 =
    some (pteToMfn (m (pteToMfn (m (pteToMfn (m root (p 0))) (p 1))) (p 2))) := by
  obtain ⟨t₁, h₃, -⟩ := bind_eq_some_iff.mp h
  obtain ⟨t₂, h₂, hn₂⟩ := bind_eq_some_iff.mp h₃
  obtain ⟨t₃, h₁, hn₁⟩ := bind_eq_some_iff.mp h₂
  obtain ⟨t₄, h₀, hn₀⟩ := bind_eq_some_iff.mp h₁
  cases h₀
  rw [pteToMfn_of_next hn₀, pteToMfn_of_next hn₁, pteToMfn_of_next hn₂, h₃]

/-! ## A new table -/

theorem own_write (htree : IsTree next m root 3)
    (hx : node next m root p₀ 3 = some x ∨ ¬ Reached next m root 3 x) (he : (next e).isSome) :
    (∀ p d, d ≤ 3 → node next (write m x (p₀ 3) e) root p d = node next m root p d) ∧
    ∀ p, leaf next (write m x (p₀ 3) e) root 3 p = leaf next m root 3 p ∨
      (Agree 4 p p₀ ∧ leaf next (write m x (p₀ 3) e) root 3 p = some e) := by
  rcases hx with hx | hx
  · refine ⟨fun p d hd => node_write_leaf htree hx hd, fun p => ?_⟩
    by_cases hp : Agree 4 p p₀
    · exact .inr ⟨hp, leaf_write_self htree hx hp he⟩
    · exact .inl (leaf_write_other htree hx hp)
  · exact ⟨fun p d hd => node_update_unreached _ hx (Nat.le_succ_of_le hd),
      fun p => .inl (leaf_update_unreached _ hx)⟩

structure NewTable (env : Env) (root : Nat) (m m' : Memory) (mfn : Nat) : Prop where
  tree : IsTree next m' root 3
  mono : ∀ p d t, d ≤ 3 → node next m root p d = some t → node next m' root p d = some t
  reached : ∀ t, Reached next m' root 3 t → t = mfn ∨ Reached next m root 3 t
  leaves : ∀ p, leaf next m' root 3 p = leaf next m root 3 p ∨
    (Agree 4 p (tableOffset (env.virt mfn)) ∧
      ∃ pte, leaf next m' root 3 p = some pte ∧ next pte = some mfn ∧ pte / 2 % 2 = 0)

theorem own_table (h : node next m root p 4 = some g) :
    node next m root p 3 = some (m (pteToMfn (m (pteToMfn (m root (p 0))) (p 1))) (p 2) / 4096) ∨
      2 ^ 40 ≤ m (pteToMfn (m (pteToMfn (m root (p 0))) (p 1))) (p 2) / 4096 := by
  rw [node_three h, pteToMfn]
  by_cases hlt : m (pteToMfn (m (pteToMfn (m root (p 0))) (p 1))) (p 2) / 4096 < 2 ^ 40
  · left
    rw [Nat.mod_eq_of_lt hlt]
  · exact .inr (Nat.le_of_not_lt hlt)

theorem enter_spec (env : Env) {ro : Nat} (htree : IsTree next m root 3) (hroot : root < 2 ^ 40)
    (hg : ¬ Reached next m root 3 g) (hlt : g < 2 ^ 40) (hzero : ∀ i, m g i = 0)
    (hx : node next m root (tableOffset (env.virt g)) 3 = some x ∨ 2 ^ 40 ≤ x)
    (hro : next ro = some g) (hrw : ro / 2 % 2 = 0)
    (ht : node next m root p₀ d = some t) (hd : d < 3) (habsent : next (m t (p₀ d)) = none)
    (he : next e = some g) :
    NewTable env root m (write (write m x (tableOffset (env.virt g) 3) ro) t (p₀ d) e) g := by
  have hx' : node next m root (tableOffset (env.virt g)) 3 = some x ∨
      ¬ Reached next m root 3 x := by
    refine hx.imp_right fun hbig hreached => ?_
    have := reached_lt hroot hreached
    omega
  obtain ⟨hnode, hleaf⟩ := own_write htree hx' (by rw [hro]; rfl)
  -- the write is neither to the table above the new one nor to the new one
  have hxt : t ≠ x := by
    rintro rfl
    rcases hx' with hx | hx
    · have := (htree d 3 p₀ _ t (by omega) le_rfl ht hx).1
      omega
    · exact hx ⟨d, by omega, p₀, ht⟩
  have hxg : g ≠ x := by
    rintro rfl
    rcases hx with hx | hx
    · exact hg ⟨3, le_rfl, _, hx⟩
    · omega
  have htree₂ := isTree_of_node htree hnode
  have ht₂ := (hnode p₀ d (by omega)).trans ht
  have habsent₂ : next (write m x (tableOffset (env.virt g) 3) ro t (p₀ d)) = none := by
    rw [write_other (.inl hxt), habsent]
  have hg₂ : ¬ Reached next (write m x (tableOffset (env.virt g) 3) ro) root 3 g := by
    rintro ⟨d, hd, p, hp⟩
    exact hg ⟨d, hd, p, (hnode p d hd).symm.trans hp⟩
  have hempty₂ : ∀ i, next (write m x (tableOffset (env.virt g) 3) ro g i) = none := by
    intro i
    rw [write_other (.inl hxg), hzero, next_zero]
  refine ⟨isTree_extend htree₂ ht₂ hd hg₂ hempty₂ he, ?_, ?_, ?_⟩
  · intro p d' t' hd' hp
    exact node_extend_mono htree₂ ht₂ hd habsent₂ ((hnode p d' hd').trans hp) hd'
  · intro t' hreached
    refine (reached_extend htree₂ ht₂ hd hg₂ hempty₂ he hreached).imp_right ?_
    rintro ⟨d', hd', p, hp⟩
    exact ⟨d', hd', p, (hnode p d' hd').symm.trans hp⟩
  · intro p
    rw [leaf_extend htree₂ ht₂ hd habsent₂ hg₂ hempty₂ he]
    refine (hleaf p).imp_right ?_
    rintro ⟨hp, hleaf⟩
    exact ⟨hp, ro, hleaf, hro, hrw⟩

theorem newPtFrame_spec (htree : IsTree next m root 3) (hroot : root < 2 ^ 40)
    (hg : ¬ Reached next m root 3 g) (hlt : g < 2 ^ 40)
    (hmap : node next m root (tableOffset (env.virt g)) 4 = some g)
    (ht : node next m root p₀ d = some t) (hd : d < 3) (hp₀ : p₀ d < 512)
    (habsent : next (m t (p₀ d)) = none) :
    NewTable env root m (newPtFrame env root m g t (p₀ d) (d + 1)) g ∧
      next (newPtFrame env root m g t (p₀ d) (d + 1) t (p₀ d)) = some g := by
  obtain ⟨hro, hpresent, hrw⟩ := protE_lt (d + 1)
  obtain ⟨hprot, htpresent⟩ := protT_lt (d + 1)
  have hnode : ∀ p d, d ≤ 4 →
      node next (update m g fun _ => 0) root p d = node next m root p d :=
    fun p d hd => node_update_unreached _ hg hd
  have hleaf : ∀ p, leaf next (update m g fun _ => 0) root 3 p = leaf next m root 3 p :=
    fun p => leaf_update_unreached _ hg
  have htg : t ≠ g := by
    rintro rfl
    exact hg ⟨d, le_of_lt hd, p₀, ht⟩
  have htree₁ := isTree_of_node htree fun p d hd => hnode p d (Nat.le_succ_of_le hd)
  have hg₁ : ¬ Reached next (update m g fun _ => 0) root 3 g := by
    rintro ⟨d, hd, p, hp⟩
    exact hg ⟨d, hd, p, (hnode p d (Nat.le_succ_of_le hd)).symm.trans hp⟩
  have henter := enter_spec env htree₁ hroot hg₁ hlt
    (fun i => by rw [update_self])
    (own_table ((hnode _ 4 le_rfl).trans hmap))
    (next_mkEntry hlt hro hpresent) (by unfold mkEntry; omega)
    ((hnode p₀ d (by omega)).trans ht) hd (by rw [update_of_ne htg]; exact habsent)
    (next_mkEntry hlt hprot htpresent)
  simp only [newPtFrame]
  rw [mmuUpdate_eq (tableOffset_lt _ _), mmuUpdate_eq hp₀]
  refine ⟨⟨henter.tree, ?_, ?_, ?_⟩, ?_⟩
  · intro p d' t' hd' hp
    exact henter.mono p d' t' hd' ((hnode p d' (Nat.le_succ_of_le hd')).trans hp)
  · intro t' hreached
    refine (henter.reached t' hreached).imp_right ?_
    rintro ⟨d', hd', p, hp⟩
    exact ⟨d', hd', p, (hnode p d' (Nat.le_succ_of_le hd')).symm.trans hp⟩
  · intro p
    rw [← hleaf p]
    exact henter.leaves p
  · rw [write_self]
    exact next_mkEntry hlt hprot htpresent

/-! ## The loop -/

def Done (env : Env) (start cur addr : Nat) : Prop :=
  start ≤ addr ∧ addr < cur ∧ 0 < env.pfn (addr / 4096 * 4096)

def newPte (env : Env) (addr : Nat) : Nat := mkEntry (env.pfn (addr / 4096 * 4096)).toNat l1Prot

def pageUpdate (env : Env) (t addr : Nat) : Update :=
  ⟨t * 4096 + 8 * tableOffset addr 3, newPte env addr⟩

structure Inv (env : Env) (root : Nat) (m₀ : Memory) (start cur : Nat) (b : Builder) : Prop where
  tree : IsTree next b.m root 3
  fresh : ∀ k, b.calls ≤ k → 0 ≤ env.npf k → ¬ Reached next b.m root 3 (env.npf k).toNat
  kept : ∀ addr, Canonical addr → ¬ Done env start cur addr → Kept env m₀ b.m root addr
  done : ∀ addr, Canonical addr → Done env start cur addr →
    pteOf b.m root addr = some (newPte env addr) ∨
    ∃ t, node next b.m root (tableOffset addr) 3 = some t ∧ pageUpdate env t addr ∈ b.mmuUpdates
  pending : ∀ u ∈ b.mmuUpdates, ∃ addr t, Canonical addr ∧ Done env start cur addr ∧
    node next b.m root (tableOffset addr) 3 = some t ∧ u = pageUpdate env t addr

theorem translate_eq (m : Memory) (root addr : Nat) :
    translate m root addr = (pteOf m root addr).bind next := node_succ_depth

section

variable {start stop cur addr a : Nat} {b b' : Builder}

theorem same_page (ha : Canonical a) (haddr : Canonical addr) (h : a / 4096 = addr / 4096) :
    Agree 4 (tableOffset a) (tableOffset addr) := (agree_iff ha haddr).mpr h

theorem newPte_congr (h : a / 4096 = addr / 4096) : newPte env a = newPte env addr := by
  rw [newPte, newPte, h]

theorem done_succ (hlo : start ≤ cur) (haligned : cur % 4096 = 0) (a : Nat) :
    Done env start (cur + 4096) a ↔ Done env start cur a ∨
      (a / 4096 = cur / 4096 ∧ 0 < env.pfn cur) := by
  have hself : cur / 4096 * 4096 = cur := by omega
  unfold Done
  constructor
  · rintro ⟨hsa, hac, hf⟩
    by_cases hlt : a < cur
    · exact .inl ⟨hsa, hlt, hf⟩
    · have hpage : a / 4096 = cur / 4096 := by omega
      rw [hpage, hself] at hf
      exact .inr ⟨hpage, hf⟩
  · rintro (⟨hsa, hac, hf⟩ | ⟨hpage, hf⟩)
    · exact ⟨hsa, by omega, hf⟩
    · refine ⟨by omega, by omega, ?_⟩
      rw [hpage, hself]
      exact hf

theorem inv_queued (h : Inv env root m₀ start cur b) (hlo : start ≤ cur) (haligned : cur % 4096 = 0)
    (hcur : Canonical cur) (hf : 0 < env.pfn cur)
    (ht : node next b.m root (tableOffset cur) 3 = some t) :
    Inv env root m₀ start (cur + 4096)
      { b with mmuUpdates := b.mmuUpdates ++ [pageUpdate env t cur] } := by
  have hcases : ∀ a, Done env start (cur + 4096) a ↔ _ := done_succ hlo haligned
  constructor
  · exact h.tree
  · exact h.fresh
  · intro a ha hnot
    exact h.kept a ha fun hdone => hnot ((hcases a).mpr (.inl hdone))
  · intro a ha hdone
    rcases (hcases a).mp hdone with hdone | hnew
    · apply (h.done a ha hdone).imp_right
      rintro ⟨x, hax, hmem⟩
      exact ⟨x, hax, mem_append_left _ hmem⟩
    · have hagree := same_page ha hcur hnew.1
      have heq : pageUpdate env t a = pageUpdate env t cur := by
        rw [pageUpdate, pageUpdate, newPte_congr hnew.1, hagree 3 (by decide)]
      refine .inr ⟨t, ?_, ?_⟩
      · rw [← ht]
        exact node_congr (hagree.mono (by decide))
      · rw [heq]
        exact mem_append_right _ (mem_singleton_self _)
  · intro u hu
    rcases List.mem_append.mp hu with hu | hu
    · obtain ⟨a, x, ha, hdone, hax, hu⟩ := h.pending u hu
      exact ⟨a, x, ha, (hcases a).mpr (.inl hdone), hax, hu⟩
    · exact ⟨cur, t, hcur, (hcases cur).mpr (.inr ⟨rfl, hf⟩), ht, List.mem_singleton.mp hu⟩

theorem inv_skipped (h : Inv env root m₀ start cur b) (hlo : start ≤ cur)
    (haligned : cur % 4096 = 0)
    (hf : ¬ 0 < env.pfn cur) : Inv env root m₀ start (cur + 4096) b := by
  have hsame : ∀ a, Done env start (cur + 4096) a ↔ Done env start cur a := by
    intro a
    rw [done_succ hlo haligned]
    exact or_iff_left fun hnew => hf hnew.2
  constructor
  · exact h.tree
  · exact h.fresh
  · intro a ha hnot
    exact h.kept a ha fun hdone => hnot ((hsame a).mpr hdone)
  · intro a ha hdone
    exact h.done a ha ((hsame a).mp hdone)
  · intro u hu
    obtain ⟨a, x, ha, hdone, hax, hu⟩ := h.pending u hu
    exact ⟨a, x, ha, (hsame a).mpr hdone, hax, hu⟩

variable (hroot : root < 2 ^ 40) (henv : EnvOk env m₀ root start stop) (hstart : start % 4096 = 0)
  (hstop : stop % 4096 = 0)

include henv

include hstart hstop in
theorem own_outside (hk : 0 ≤ env.npf k) (hlo : start ≤ addr) (hhi : addr < stop) :
    addr / 4096 ≠ env.virt (env.npf k).toNat / 4096 := by
  intro hpage
  have hout := henv.outside k hk
  omega

theorem kept_newTable (hk : 0 ≤ env.npf k) (ha : Canonical a)
    (hnew : NewTable env root m m' (env.npf k).toNat)
    (hmap : translate m root (env.virt (env.npf k).toNat) = some (env.npf k).toNat)
    (h : Kept env m₀ m root a) : Kept env m₀ m' root a := by
  obtain ⟨htranslate, hpte⟩ := h
  rcases hnew.leaves (tableOffset a) with hsame | ⟨hagree, pte, hleaf, hnext, hrw⟩
  · have hsame' : pteOf m' root a = pteOf m root a := hsame
    refine ⟨?_, ?_⟩
    · rw [translate_eq, hsame', ← translate_eq, htranslate]
    · rw [hsame']
      exact hpte
  · have hown : translate m root a = some (env.npf k).toNat := by
      rw [← hmap]
      exact node_congr hagree
    have hleaf' : pteOf m' root a = some pte := hleaf
    refine ⟨?_, .inr ⟨k, pte, hk, (agree_iff ha (henv.canonical k hk)).mp hagree, hleaf', hrw⟩⟩
    rw [← htranslate, hown, translate_eq, hleaf', bind_some, hnext]

theorem mapped_of_inv (h : Inv env root m₀ start cur b) (hcur : cur ≤ stop) (hk : 0 ≤ env.npf k) :
    translate b.m root (env.virt (env.npf k).toNat) = some (env.npf k).toNat := by
  have hnot : ¬ Done env start cur (env.virt (env.npf k).toNat) := fun hdone =>
    henv.outside k hk ⟨hdone.1, lt_of_lt_of_le hdone.2.1 hcur⟩
  rw [(h.kept _ (henv.canonical k hk) hnot).1]
  exact henv.mapped k hk

include hstart hstop

theorem inv_newTable (h : Inv env root m₀ start cur b) (hcur : cur ≤ stop)
    (hk : 0 ≤ env.npf b.calls) (hnew : NewTable env root b.m m' (env.npf b.calls).toNat) :
    Inv env root m₀ start cur { b with m := m', calls := b.calls + 1 } := by
  have hmap := mapped_of_inv henv h hcur hk
  refine ⟨hnew.tree, ?_, ?_, ?_, ?_⟩
  · intro k hle hk' hreached
    rcases hnew.reached _ hreached with hsame | hreached
    · have heq : env.npf b.calls = env.npf k := by omega
      have := henv.distinct _ _ hk heq
      simp only at hle
      omega
    · exact h.fresh k (Nat.le_of_succ_le hle) hk' hreached
  · intro a ha hnot
    exact kept_newTable henv hk ha hnew hmap (h.kept a ha hnot)
  · intro a ha hdone
    rcases h.done a ha hdone with hpte | hpending
    · left
      rcases hnew.leaves (tableOffset a) with hsame | ⟨hagree, -⟩
      · rw [← hpte]
        exact hsame
      · have hpage := (agree_iff ha (henv.canonical _ hk)).mp hagree
        exact absurd hpage
          (own_outside henv hstart hstop hk hdone.1 (lt_of_lt_of_le hdone.2.1 hcur))
    · obtain ⟨t, ht, hmem⟩ := hpending
      exact .inr ⟨t, hnew.mono _ 3 t le_rfl ht, hmem⟩
  · intro u hu
    obtain ⟨a, t, ha, hdone, ht, hu⟩ := h.pending u hu
    exact ⟨a, t, ha, hdone, hnew.mono _ 3 t le_rfl ht, hu⟩

include hroot

theorem inv_descend {t' : Nat} (h : Inv env root m₀ start cur b) (hcur : cur ≤ stop)
    (ht : node next b.m root (tableOffset addr) d = some t) (hd : d < 3)
    (hb : descend env root addr b t d = some (b', t')) :
    Inv env root m₀ start cur b' ∧ node next b'.m root (tableOffset addr) (d + 1) = some t' := by
  unfold descend at hb
  dsimp only at hb
  split at hb
  · rename_i habsent
    obtain ⟨hk, hb⟩ := ite_none_left_eq_some.mp hb
    have hk := Int.not_lt.mp hk
    have hlt := henv.npf_lt b.calls
    obtain ⟨hnew, hentry⟩ := newPtFrame_spec h.tree hroot (h.fresh b.calls le_rfl hk) (by omega)
      (mapped_of_inv henv h hcur hk) ht hd (tableOffset_lt _ _)
        (next_eq_none.mpr (by simpa using habsent))
    cases hb
    refine ⟨inv_newTable henv hstart hstop h hcur hk hnew, ?_⟩
    rw [node, hnew.mono _ d t (by omega) ht, bind_some, hentry, pteToMfn_of_next hentry]
  · rename_i hpresent
    cases hb
    refine ⟨h, ?_⟩
    rw [node, ht, bind_some, next, if_pos (by simpa using hpresent)]

theorem inv_mapPage (h : Inv env root m₀ start cur b) (hlo : start ≤ cur) (hhi : cur < stop)
    (haligned : cur % 4096 = 0) (hcanonical : ∀ a, start ≤ a → a < stop → Canonical a)
    (hb : mapPage env root b cur = some b') : Inv env root m₀ start (cur + 4096) b' := by
  have hle := le_of_lt hhi
  obtain ⟨⟨b₁, t₁⟩, h₁, hb⟩ := bind_eq_some_iff.mp hb
  obtain ⟨⟨b₂, t₂⟩, h₂, hb⟩ := bind_eq_some_iff.mp hb
  obtain ⟨⟨b₃, t₃⟩, h₃, hb⟩ := bind_eq_some_iff.mp hb
  obtain ⟨hinv₁, ht₁⟩ := inv_descend hroot henv hstart hstop h hle rfl (by decide) h₁
  obtain ⟨hinv₂, ht₂⟩ := inv_descend hroot henv hstart hstop hinv₁ hle ht₁ (by decide) h₂
  obtain ⟨hinv, ht⟩ := inv_descend hroot henv hstart hstop hinv₂ hle ht₂ (by decide) h₃
  obtain ⟨-, hb⟩ := ite_none_left_eq_some.mp hb
  split at hb
  · rename_i hf
    cases hb
    have hself : cur / 4096 * 4096 = cur := by omega
    have hupdate :
      (⟨t₃ * 4096 + 8 * tableOffset cur 3, mkEntry (env.pfn cur).toNat l1Prot⟩ : Update) =
        pageUpdate env t₃ cur := by rw [pageUpdate, newPte, hself]
    rw [hupdate]
    exact inv_queued hinv hlo haligned (hcanonical cur hlo hhi) hf ht
  · rename_i hf
    cases hb
    exact inv_skipped hinv hlo haligned hf

omit hroot hstart hstop in
theorem next_newPte (h : 0 < env.pfn (addr / 4096 * 4096)) :
    next (newPte env addr) = some (env.pfn (addr / 4096 * 4096)).toNat := by
  have hlt := henv.pfn_lt (addr / 4096 * 4096)
  exact next_mkEntry (by omega) (by decide) (by decide)

omit hroot hstart hstop in
theorem pteOf_update (htree : IsTree next m root 3)
    (ht : node next m root (tableOffset addr) 3 = some t) (ha : Canonical a)
    (haddr : Canonical addr) (hf : 0 < env.pfn (addr / 4096 * 4096)) :
    pteOf (mmuUpdate m (pageUpdate env t addr)) root a =
      if a / 4096 = addr / 4096 then some (newPte env a) else pteOf m root a := by
  rw [pageUpdate, mmuUpdate_eq (tableOffset_lt _ _)]
  split
  · rename_i hpage
    rw [newPte_congr hpage]
    exact leaf_write_self htree ht (same_page ha haddr hpage) (by rw [next_newPte henv hf]; rfl)
  · rename_i hpage
    exact leaf_write_other htree ht fun hagree => hpage ((agree_iff ha haddr).mp hagree)

structure Flushed (env : Env) (root start cur : Nat) (us : List Update) (m m' : Memory) : Prop where
  nodes : ∀ p d, d ≤ 3 → node next m' root p d = node next m root p d
  written : ∀ a t, Canonical a → Done env start cur a →
    node next m root (tableOffset a) 3 = some t →
    pageUpdate env t a ∈ us → pteOf m' root a = some (newPte env a)
  others : ∀ a, Canonical a → ¬ Done env start cur a → pteOf m' root a = pteOf m root a
  again : ∀ a, Canonical a → pteOf m root a = some (newPte env a) →
    pteOf m' root a = some (newPte env a)

omit hroot hstop in
theorem updates_spec (us : List Update) (haligned : cur % 4096 = 0) (htree : IsTree next m root 3)
    (hus : ∀ u ∈ us, ∃ addr t, Canonical addr ∧ Done env start cur addr ∧
      node next m root (tableOffset addr) 3 = some t ∧ u = pageUpdate env t addr) :
    Flushed env root start cur us m (us.foldl mmuUpdate m) := by
  induction us generalizing m with
  | nil => exact ⟨fun _ _ _ => rfl, nofun, fun _ _ _ => rfl, fun _ _ h => h⟩
  | cons u us ih =>
    obtain ⟨addr, t, haddr, hdone, ht, rfl⟩ := hus u mem_cons_self
    have hpte : ∀ a, Canonical a → pteOf (mmuUpdate m (pageUpdate env t addr)) root a =
        if a / 4096 = addr / 4096 then some (newPte env a) else pteOf m root a :=
      fun a ha => pteOf_update henv htree ht ha haddr hdone.2.2
    have hnodes : ∀ p d, d ≤ 3 →
        node next (mmuUpdate m (pageUpdate env t addr)) root p d = node next m root p d := by
      intro p d hd
      rw [pageUpdate, mmuUpdate_eq (tableOffset_lt _ _)]
      exact node_write_leaf htree ht hd
    have hrest := ih (isTree_of_node htree hnodes) fun u hu => by
      obtain ⟨a, t, ha, hd, hat, hu⟩ := hus u (mem_cons_of_mem _ hu)
      exact ⟨a, t, ha, hd, (hnodes _ 3 le_rfl).trans hat, hu⟩
    refine ⟨fun p d hd => (hrest.nodes p d hd).trans (hnodes p d hd), ?_, ?_, ?_⟩
    · intro a t' ha hd hat hmem
      rcases List.mem_cons.mp hmem with hfirst | hmem
      · apply hrest.again a ha
        rw [← hfirst, pteOf_update henv htree hat ha ha hd.2.2, if_pos rfl]
      · exact hrest.written a t' ha hd ((hnodes _ 3 le_rfl).trans hat) hmem
    · intro a ha hnot
      have hpage : a / 4096 ≠ addr / 4096 := by
        intro hpage
        obtain ⟨hlo, hhi, hf⟩ := hdone
        exact hnot ⟨by omega, by omega, by rw [hpage]; exact hf⟩
      rw [foldl_cons, hrest.others a ha hnot, hpte a ha, if_neg hpage]
    · intro a ha hold
      apply hrest.again a ha
      rw [hpte a ha, hold]
      split <;> rfl

omit hroot hstop in
theorem inv_flush (haligned : cur % 4096 = 0) (h : Inv env root m₀ start cur b) :
    Inv env root m₀ start cur (flush b) := by
  have hflushed := updates_spec henv hstart b.mmuUpdates haligned h.tree h.pending
  refine ⟨isTree_of_node h.tree hflushed.nodes, ?_, ?_, ?_, nofun⟩
  · rintro k hk hnpf ⟨d, hd, p, hp⟩
    exact h.fresh k hk hnpf ⟨d, hd, p, (hflushed.nodes p d hd).symm.trans hp⟩
  · intro a ha hnot
    obtain ⟨htranslate, hpte⟩ := h.kept a ha hnot
    have hsame := hflushed.others a ha hnot
    refine ⟨?_, ?_⟩
    · rw [translate_eq, flush, hsame, ← translate_eq, htranslate]
    · rw [flush, hsame]
      exact hpte
  · intro a ha hdone
    left
    rcases h.done a ha hdone with hpte | hpending
    · exact hflushed.again a ha hpte
    · obtain ⟨t, ht, hmem⟩ := hpending
      exact hflushed.written a t ha hdone ht hmem

omit henv hroot hstart hstop in
theorem buildLoop_succ (h : cur < stop) : buildLoop env root cur stop b =
    (mapPage env root b cur).bind fun b => buildLoop env root (cur + 4096) stop
      (if b.mmuUpdates.length = 512 ∨ cur + 4096 = stop then flush b else b) := by
  rw [buildLoop, dif_pos h]
  split
  · rename_i hb
    rw [hb, bind_none]
  · rename_i hb
    rw [hb, bind_some]

omit henv hroot hstart hstop in
theorem buildLoop_end (h : ¬ cur < stop) : buildLoop env root cur stop b = some b := by
  rw [buildLoop, dif_neg h]

theorem inv_buildLoop (hcanonical : ∀ a, start ≤ a → a < stop → Canonical a)
    (h : Inv env root m₀ start cur b) (hlo : start ≤ cur) (hhi : cur ≤ stop)
    (haligned : cur % 4096 = 0)
    (hflushed : cur = stop → b.mmuUpdates = []) (hb : buildLoop env root cur stop b = some b') :
    Inv env root m₀ start stop b' ∧ b'.mmuUpdates = [] := by
  generalize hk : stop - cur = k
  induction k using Nat.strongRecOn generalizing cur b with
  | ind k ih =>
    by_cases hlt : cur < stop
    · rw [buildLoop_succ hlt] at hb
      obtain ⟨b₁, hb₁, hb⟩ := bind_eq_some_iff.mp hb
      have hinv := inv_mapPage hroot henv hstart hstop h hlo hlt haligned hcanonical hb₁
      have haligned' : (cur + 4096) % 4096 = 0 := by omega
      have hnext : Inv env root m₀ start (cur + 4096)
          (if b₁.mmuUpdates.length = 512 ∨ cur + 4096 = stop then flush b₁ else b₁) := by
        split
        · exact inv_flush henv hstart haligned' hinv
        · exact hinv
      refine ih (stop - (cur + 4096)) (by omega) hnext (by omega) (by omega) haligned' ?_ hb rfl
      intro hend
      rw [if_pos (.inr hend)]
      rfl
    · rw [buildLoop_end hlt] at hb
      cases hb
      have hend : cur = stop := by omega
      exact ⟨hend ▸ h, hflushed hend⟩

end

theorem walk_of_pteOf {addr pte : Nat} (h : pteOf m root addr = some pte) :
    walk m root addr = some pte := by
  obtain ⟨t, ht, hpte⟩ := bind_eq_some_iff.mp h
  rw [walk_eq, ht]
  exact (ite_none_right_eq_some.mp hpte).2

theorem kept_refl (addr : Nat) : Kept env m m root addr := ⟨rfl, .inl rfl⟩

theorem inv_start {start stop : Nat} (hwf : WellFormed m root)
    (henv : EnvOk env m root start stop) :
    Inv env root m start start ⟨m, 0, []⟩ := by
  have hnone : ∀ a, ¬ Done env start start a := by
    rintro a ⟨hlo, hhi, -⟩
    omega
  exact ⟨hwf.tree, fun k _ hk => henv.fresh k hk, fun a _ _ => kept_refl a,
    fun a _ hdone => absurd hdone (hnone a), nofun⟩

theorem build_pagetable_correct (env : Env) (root start stop : Nat) (m m' : Memory)
    (hstart : start % 4096 = 0) (hstop : stop % 4096 = 0)
    (hcanonical : ∀ addr, start ≤ addr → addr < stop → Canonical addr) (hwf : WellFormed m root)
    (henv : EnvOk env m root start stop) (h : buildPagetableVs env root start stop m = some m') :
    Built env m m' root start stop := by
  obtain ⟨b, hb, rfl⟩ := map_eq_some_iff.mp h
  by_cases hle : start ≤ stop
  · obtain ⟨hinv, hnil⟩ :=
      inv_buildLoop hwf.root_lt henv hstart hstop hcanonical (inv_start hwf henv)
      le_rfl hle hstart (fun _ => rfl) hb
    refine ⟨?_, ?_, ?_⟩
    · intro addr hlo hhi hf
      rcases hinv.done addr (hcanonical addr hlo hhi) ⟨hlo, hhi, hf⟩ with hpte | ⟨t, -, hmem⟩
      · have hnext := next_newPte henv hf
        refine ⟨newPte env addr, walk_of_pteOf hpte, ?_, ?_⟩
        · by_contra habsent
          rw [next, if_neg habsent] at hnext
          cases hnext
        · rw [pteToMfn_of_next hnext]
          exact Int.toNat_of_nonneg (Int.le_of_lt hf)
      · rw [hnil] at hmem
        cases hmem
    · intro addr hlo hhi hf
      have hnot : ¬ Done env start stop addr := fun hdone => by
        rw [Done, hf] at hdone
        exact Int.lt_irrefl _ hdone.2.2
      rcases (hinv.kept addr (hcanonical addr hlo hhi) hnot).2 with hpte | ⟨k, pte, hk, hpage, -⟩
      · exact hpte
      · exact absurd hpage (own_outside henv hstart hstop hk hlo hhi)
    · intro addr ha hout
      exact hinv.kept addr ha fun hdone => hout ⟨hdone.1, hdone.2.1⟩
  · rw [buildLoop_end fun hlt => hle (le_of_lt hlt)] at hb
    cases hb
    exact ⟨fun addr hlo hhi => by omega, fun addr hlo hhi => by omega, fun addr _ _ =>
      kept_refl addr⟩

/-! ## An example -/

def bootMemory : Memory := fun t i =>
  if t = 4 then mkEntry i l1Prot else if 1 ≤ t ∧ t ≤ 3 ∧ i = 0 then mkEntry (t + 1) l2Prot else 0

def bootEnv : Env where
  npf
    | 0 => 10
    | 1 => 11
    | _ => -1
  pfn addr := if addr = 1073741824 then 77 else 0
  virt mfn := mfn * 4096

theorem next_bootMemory (hd : d < 3) :
    next (bootMemory (d + 1) i) = if i = 0 then some (d + 2) else none := by
  have hne : d + 1 ≠ 4 := by omega
  by_cases hi : i = 0
  · have hentry : bootMemory (d + 1) i = mkEntry (d + 2) l2Prot := by
      rw [bootMemory, if_neg hne, if_pos ⟨by omega, by omega, hi⟩]
    rw [hentry, if_pos hi]
    exact next_mkEntry (by omega) (by decide) (by decide)
  · rw [bootMemory, if_neg hne, if_neg fun h => hi h.2.2, if_neg hi]
    rfl

theorem node_bootMemory (hd : d ≤ 3) (h : node next bootMemory 1 p d = some t) :
    t = d + 1 ∧ ∀ e < d, p e = 0 := by
  induction d generalizing t with
  | zero =>
    cases h
    exact ⟨rfl, nofun⟩
  | succ d ih =>
    obtain ⟨t', ht', hnext⟩ := bind_eq_some_iff.mp h
    obtain ⟨rfl, hzero⟩ := ih (by omega) ht'
    rw [next_bootMemory (by omega)] at hnext
    obtain ⟨hp, hnext⟩ := ite_none_right_eq_some.mp hnext
    cases hnext
    refine ⟨rfl, ?_⟩
    intro e he
    rcases Nat.lt_succ_iff_lt_or_eq.mp he with he | rfl
    · exact hzero e he
    · exact hp

theorem bootMemory_wellFormed : WellFormed bootMemory 1 := by
  refine ⟨by decide, ?_⟩
  intro d d' p q t hd hd' hp hq
  obtain ⟨rfl, hzero⟩ := node_bootMemory hd hp
  obtain ⟨heq, hzero'⟩ := node_bootMemory hd' hq
  obtain rfl : d = d' := Nat.succ.inj heq
  exact ⟨rfl, fun e he => (hzero e he).trans (hzero' e he).symm⟩

theorem bootEnv_npf (hk : 0 ≤ bootEnv.npf k) :
    (k = 0 ∧ bootEnv.npf k = 10) ∨ (k = 1 ∧ bootEnv.npf k = 11) := by
  match k with
  | 0 => exact .inl ⟨rfl, rfl⟩
  | 1 => exact .inr ⟨rfl, rfl⟩
  | k + 2 => exact absurd (show (0 : Int) ≤ -1 from hk) (by decide)

theorem bootEnv_ok : EnvOk bootEnv bootMemory 1 1073741824 1073750016 := by
  refine ⟨?_, ?_, ?_, ?_, ?_, ?_, ?_⟩
  · intro k
    by_cases hk : 0 ≤ bootEnv.npf k
    · rcases bootEnv_npf hk with ⟨-, h⟩ | ⟨-, h⟩ <;> omega
    · omega
  · intro addr
    simp only [bootEnv]
    split <;> decide
  · intro j k hj heq
    have hk := heq ▸ hj
    rcases bootEnv_npf hj with ⟨rfl, hj⟩ | ⟨rfl, hj⟩ <;> rcases bootEnv_npf hk with ⟨rfl, hk⟩ |
      ⟨rfl, hk⟩ <;>
      omega
  · rintro k hk ⟨d, hd, p, hp⟩
    obtain ⟨heq, -⟩ := node_bootMemory hd hp
    rcases bootEnv_npf hk with ⟨-, h⟩ | ⟨-, h⟩ <;> omega
  · intro k hk
    rcases bootEnv_npf hk with ⟨-, h⟩ | ⟨-, h⟩ <;> rw [h] <;> exact .inl (by decide)
  · intro k hk
    rcases bootEnv_npf hk with ⟨-, h⟩ | ⟨-, h⟩ <;> rw [h] <;> decide
  · intro k hk
    rcases bootEnv_npf hk with ⟨-, h⟩ | ⟨-, h⟩ <;> rw [h] <;> decide +kernel

theorem build_pagetable_correct_two_pages : ∃ m',
    buildPagetableVs bootEnv 1 1073741824 1073750016 bootMemory = some m' ∧
    walk m' 1 1073741824 = some (mkEntry 77 l1Prot) ∧
    Built bootEnv bootMemory m' 1 1073741824 1073750016 := by
  have hrun : (buildPagetableVs bootEnv 1 1073741824 1073750016 bootMemory).map
      (fun m => walk m 1 1073741824) = some (some (mkEntry 77 l1Prot)) := by
    rw [buildPagetableVs, buildLoop_succ (by decide)]
    simp only [buildLoop_succ (show 1073741824 + 4096 < 1073750016 by decide),
      buildLoop_end (show ¬ 1073741824 + 4096 + 4096 < 1073750016 by decide)]
    decide +kernel
  obtain ⟨m', hbuild, hwalk⟩ := map_eq_some_iff.mp hrun
  refine ⟨m', hbuild, hwalk, ?_⟩
  apply build_pagetable_correct bootEnv 1 1073741824 1073750016 bootMemory m' (by decide)
    (by decide) _
    bootMemory_wellFormed bootEnv_ok hbuild
  intro addr _ hhi
  exact .inl (lt_trans hhi (by decide))

end Guk.PageTable
