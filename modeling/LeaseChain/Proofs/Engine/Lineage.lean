import LeaseChain.Proofs.Engine.Coherence

/-!
# Lineages

A lineage follows the parents of a block to the first block. Where the hash tells blocks apart, a
block has at most one, and where every block extends its parent, heights fall along it, so that no
block comes twice. The window that a block is verified against is the part of its parent's lineage
that the lookback reaches: the nearest blocks, without gaps.

## Key results

- `History.Lineage.unique`: a block has at most one lineage
- `History.nodup_ids`: no identifier comes twice
- `BlockContext.exists_window`: a window is the front of a lineage
-/

namespace LeaseChain

namespace History

variable {g : Genesis} {h h' : History}

/-- Every block extends the one behind it. -/
def Extending (path : List Block) : Prop := path.IsChain Block.Extends

theorem Lineage.mono {path : List Block} (hl : h.Lineage path) (hfirst : h'.first = h.first)
    (hsub : h.blocks ⊆ h'.blocks) : h'.Lineage path := by
  induction hl with
  | first => exact hfirst ▸ .first
  | child hb hne hp _ ih => exact .child (hsub hb) (hfirst ▸ hne) hp ih

theorem Lineage.mem_blocks {path : List Block} (hl : h.Lineage path) : path ⊆ h.blocks := by
  induction hl with
  | first => exact fun b hb => List.mem_singleton.1 hb ▸ List.mem_cons_self
  | child hb _ _ _ ih => exact List.cons_subset.2 ⟨hb, ih⟩

/-- `Lineage` of a block and more goes on with its parent, which has the rest as its own. -/
theorem Lineage.parent_eq {b p : Block} {path : List Block} (hl : h.Lineage (b :: p :: path)) :
    b.parentId = p.id ∧ h.Lineage (p :: path) := by
  cases hl with
  | child _ _ hp hpath => exact ⟨hp, hpath⟩

/-- `Lineage` holds behind each block of a lineage. -/
theorem Lineage.of_append {newer older : List Block} {b : Block}
    (hl : h.Lineage (newer ++ b :: older)) : h.Lineage (b :: older) := by
  induction newer with
  | nil => exact hl
  | cons c newer ih =>
    cases newer with
    | nil => exact hl.parent_eq.2
    | cons d newer => exact ih hl.parent_eq.2

/-- `Lineage` of one block alone is that of `History.first`. -/
theorem Lineage.eq_first {b : Block} (hl : h.Lineage [b]) : b = h.first := by
  cases hl
  rfl

/-- `Lineage` is unique to a block, as `CollisionFree` blocks have one identifier each. -/
theorem Lineage.unique (hfree : h.CollisionFree) (hsound : h.Sound g) {b : Block}
    {path path' : List Block} (hl : h.Lineage (b :: path)) (hl' : h.Lineage (b :: path')) :
    path = path' := by
  -- the first block ends every lineage, and no other block ends one
  induction path generalizing b path' with
  | nil =>
    cases hl with
    | first =>
      cases hl' with
      | first => rfl
      | child _ hne _ _ => exact absurd rfl hne
  | cons p path ih =>
    cases hl with
    | child _ hne hp hpath =>
      cases hl' with
      | first => exact absurd rfl hne
      | @child _ q path' _ _ hq hpath' =>
        -- both parents have the identifier that the block names
        have hpmem := hpath.mem_blocks List.mem_cons_self
        have hqmem := hpath'.mem_blocks List.mem_cons_self
        obtain rfl := hfree.eq_of_id_eq hsound hpmem hqmem (hp.symm.trans hq)
        rw [ih hpath hpath']

/-- `Extending` blocks fall in height. -/
theorem Extending.pairwise_height {path : List Block} (hext : Extending path) :
    path.Pairwise fun b a => a.height.toNat < b.height.toNat := by
  -- each height is below the next, and the order is transitive
  have hchain : path.IsChain fun b a : Block => a.height.toNat < b.height.toNat :=
    List.IsChain.imp (fun b a hba => by rw [hba.2.1]; exact Nat.lt_succ_self _) hext
  have htrans : Trans (fun b a : Block => a.height.toNat < b.height.toNat)
      (fun b a : Block => a.height.toNat < b.height.toNat)
      (fun b a : Block => a.height.toNat < b.height.toNat) :=
    ⟨fun hab hbc => Nat.lt_trans hbc hab⟩
  exact hchain.pairwise

/-- `height` is zero at the end of a lineage and nowhere else. -/
theorem Lineage.height_eq_zero_iff (hsound : h.Sound g) {b : Block} {path : List Block}
    (hl : h.Lineage (b :: path)) (hext : Extending (b :: path)) : b.height = 0 ↔ path = [] := by
  cases hl with
  | first => simp [(Block.first_eq_ok hsound.first).2.1]
  | child =>
    have hheight := hext.rel.2.1
    refine iff_of_false (fun hzero => ?_) (List.cons_ne_nil _ _)
    rw [hzero] at hheight
    exact absurd hheight (by simp)

/-- `Extending` blocks have identifiers without repetition. -/
theorem nodup_ids (hfree : h.CollisionFree) (hsound : h.Sound g) {path : List Block}
    (hsub : path ⊆ h.blocks) (hext : Extending path) : (path.map (·.id)).Nodup := by
  -- two blocks with one identifier would be one, and of the same height
  rw [List.Nodup, List.pairwise_map]
  refine hext.pairwise_height.imp_of_mem fun {b a} hb ha hlt hid => ?_
  obtain rfl := hfree.eq_of_id_eq hsound (hsub hb) (hsub ha) hid
  exact Nat.lt_irrefl _ hlt

/-- `Extends` never holds of the first block. -/
theorem Sound.ne_first (hsound : h.Sound g) {b p : Block} (hext : b.Extends p) : b ≠ h.first := by
  rintro rfl
  have hheight := hext.2.1
  rw [(Block.first_eq_ok hsound.first).2.1] at hheight
  exact absurd hheight (by simp)

/-- `Linear` makes the chain a `Lineage`. -/
theorem Sound.lineage_chain (hsound : h.Sound g) (hlinear : h.Linear) : h.Lineage h.chain := by
  -- from the oldest accepted block on, one after the other
  have hsuffixes : ∀ accepted, accepted <:+ h.accepted → h.Lineage (accepted ++ [h.first]) := by
    intro accepted
    induction accepted with
    | nil => exact fun _ => .first
    | cons b accepted ih =>
      intro hsuffix
      have hpath := ih ((List.suffix_cons b accepted).trans hsuffix)
      obtain ⟨newer, hnewer⟩ := hsuffix
      have hchain : h.chain = newer ++ b :: (accepted ++ [h.first]) := by
        rw [chain, ← hnewer, List.append_assoc, List.cons_append]
      have hmem : b ∈ h.blocks :=
        hsound.mem_blocks_of_mem_chain (hchain ▸ List.mem_append_right _ List.mem_cons_self)
      obtain ⟨p, older, hp⟩ : ∃ p older, accepted ++ [h.first] = p :: older := by
        cases accepted with
        | nil => exact ⟨_, _, rfl⟩
        | cons p accepted => exact ⟨_, _, rfl⟩
      -- the first block extends none, so that an accepted block is another
      have hne : b ≠ h.first := by
        rcases hsound.rooted b _ ⟨newer, hchain.symm⟩ with hnil | ⟨q, -, hext⟩
        · exact absurd hnil (by simp)
        · exact hsound.ne_first hext
      have hparent : b.parentId = p.id := by
        rw [Linear, hchain, hp] at hlinear
        exact (List.isChain_append.1 hlinear).2.1.rel
      rw [hp] at hpath
      rw [List.cons_append, hp]
      exact .child hmem hne hparent hpath
  exact hsuffixes h.accepted (List.suffix_refl _)

end History

namespace BlockContext

variable {g : Genesis} {h : History} {ε : Type}

/-- A look-up that finds blocks of the run by their identifiers. -/
def Faithful (h : History) (lookup : Hash → Except ε (Option Block)) : Prop :=
  ∀ id b, lookup id = .ok (some b) → b.id = id ∧ b ∈ h.blocks

/-- `ancestors` finds the front of the lineage behind a block. -/
theorem ancestors_front (hfree : h.CollisionFree) (hsound : h.Sound g) {now : UInt64}
    {lookup : Hash → Except ε (Option Block)} (hlookup : Faithful h lookup) {limit : Nat}
    {b : Block} {path found : List Block} (hl : h.Lineage (b :: path))
    (hfound : ancestors g now lookup limit b = .ok found) : found <+: path := by
  -- induction on the steps that are left, with the lineage that is left as well
  induction limit generalizing b path found with
  | zero =>
    obtain rfl := Except.ok.inj hfound
    exact List.nil_prefix
  | succ limit ih =>
    rw [ancestors] at hfound
    -- the walk may stop at any block, and what it found is a front of the lineage then
    split at hfound
    · obtain rfl := Except.ok.inj hfound
      exact List.nil_prefix
    · next hheight =>
      obtain ⟨ancestor, hancestor, hfound⟩ := Except.bind_eq_ok_iff.1 hfound
      cases ancestor with
      | none =>
        obtain rfl := Except.ok.inj hfound
        exact List.nil_prefix
      | some a =>
        simp only [] at hfound
        split at hfound
        · obtain rfl := Except.ok.inj hfound
          exact List.nil_prefix
        · obtain ⟨older, holder, hfound⟩ := Except.bind_eq_ok_iff.1 hfound
          obtain rfl := Except.ok.inj hfound
          cases hl with
          | first => exact absurd (Block.first_eq_ok hsound.first).2.1 hheight
          | @child _ p path _ _ hp hpath =>
            obtain ⟨haid, hamem⟩ := hlookup _ _ hancestor
            -- the ancestor that was found is the parent on the lineage
            have hsame : a = p := hfree.eq_of_id_eq hsound hamem
              (hpath.mem_blocks List.mem_cons_self) (haid.trans hp)
            subst hsame
            exact (List.prefix_cons_inj a).2 (ih hpath holder)

/-- `after` is `ofWindow` of a front of the parent's lineage. -/
theorem exists_window (hfree : h.CollisionFree) (hsound : h.Sound g) {now : UInt64}
    {lookup : Hash → Except ε (Option Block)} (hlookup : Faithful h lookup) {limit : Nat}
    {parent : Block} {path : List Block} {context : BlockContext}
    (hl : h.Lineage (parent :: path))
    (hafter : BlockContext.after g now parent lookup limit = .ok context) :
    ∃ found, parent :: found <+: parent :: path ∧
      context = ofWindow g now parent (parent :: found) := by
  obtain ⟨window, hwindow, hafter⟩ := Except.bind_eq_ok_iff.1 hafter
  obtain ⟨found, hfound, hwindow⟩ := Except.bind_eq_ok_iff.1 hwindow
  obtain rfl := Except.ok.inj hwindow
  obtain rfl := Except.ok.inj hafter
  have hfront := ancestors_front hfree hsound hlookup hl hfound
  exact ⟨found, (List.prefix_cons_inj parent).2 hfront, rfl⟩

/-- `recentBlocks` of `ofWindow` are the blocks of the window. -/
@[simp] theorem contains_recentBlocks_ofWindow (now : UInt64) (parent : Block)
    (window : List Block) (id : Hash) :
    (ofWindow g now parent window).recentBlocks.contains id = true ↔ ∃ b ∈ window, b.id = id := by
  simp [ofWindow]

/-- `recentTxs` of `ofWindow` are the transactions in the blocks of the window. -/
@[simp] theorem contains_recentTxs_ofWindow (now : UInt64) (parent : Block)
    (window : List Block) (id : Hash) :
    (ofWindow g now parent window).recentTxs.contains id = true ↔
      ∃ b ∈ window, ∃ tx ∈ b.txs, tx.id = id := by
  simp [ofWindow]

end BlockContext

end LeaseChain
