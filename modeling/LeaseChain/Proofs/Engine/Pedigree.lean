import LeaseChain.Proofs.Engine.Lineage

/-!
# Pedigrees of verified blocks

Every verified block has a lineage of verified blocks that extend each other. Each transaction on it
refers to a block further down, and no transaction comes twice on it, although verification looks
for earlier inclusions in a window only: a transaction that was included before refers to a block
before its inclusion, and as the window has no gaps, a window that reaches that block reaches the
inclusion.

## Key results

- `Reach.forall_verified`: what each block that passes verification keeps up is true of all
- `Reach.pedigree`: every verified block has a pedigree
-/

namespace LeaseChain

/-- The identifiers of a block's transactions. -/
def Block.txIds (b : Block) : List Hash := b.txs.map (·.id)

namespace History

variable {g : Genesis} {h h' : History}

/-- The hash tells the transactions of the run's blocks apart. -/
def TxCollisionFree (h : History) : Prop :=
  LeaseChain.CollisionFree (h.blocks.flatMap fun b => b.txs.map Wire.write)

/-- A history with fewer `blocks` is `TxCollisionFree` too. -/
theorem TxCollisionFree.of_subset (hfree : h'.TxCollisionFree) (hsub : h.blocks ⊆ h'.blocks) :
    h.TxCollisionFree := by
  refine CollisionFree.mono hfree fun form hform => ?_
  obtain ⟨b, hb, hform⟩ := List.mem_flatMap.1 hform
  exact List.mem_flatMap.2 ⟨b, hsub hb, hform⟩

/-- In a `TxCollisionFree` history, transactions with one identifier are one transaction. -/
theorem TxCollisionFree.eq_of_id_eq (hfree : h.TxCollisionFree)
    (hframed : ∀ b ∈ h.blocks, b.IsFramed Engine.framing) {a b : Block} {s t : Transaction}
    (ha : a ∈ h.blocks) (hb : b ∈ h.blocks) (hs : s ∈ a.txs) (ht : t ∈ b.txs)
    (hid : s.id = t.id) : s = t :=
  Transaction.eq_of_id_eq hfree (Block.length_write_lt (hframed a ha) hs)
    (Block.length_write_lt (hframed b hb) ht)
    (List.mem_flatMap.2 ⟨a, ha, List.mem_map_of_mem hs⟩)
    (List.mem_flatMap.2 ⟨b, hb, List.mem_map_of_mem ht⟩) hid

/-- What is behind a verified block. -/
structure Pedigree (h : History) (b : Block) (path : List Block) : Prop where
  lineage : h.Lineage (b :: path)
  extending : Extending (b :: path)
  /-- A transaction refers to a block before its own. -/
  anchored : ∀ a older, (a :: older) <:+ (b :: path) →
    ∀ tx ∈ a.txs, ∃ c ∈ older, c.id = tx.blockId
  distinct : h.TxCollisionFree → ((b :: path).flatMap Block.txIds).Nodup

theorem Pedigree.mono {b : Block} {path : List Block} (hp : h.Pedigree b path)
    (hfirst : h'.first = h.first) (hsub : h.blocks ⊆ h'.blocks) : h'.Pedigree b path where
  lineage := hp.lineage.mono hfirst hsub
  extending := hp.extending
  anchored := hp.anchored
  distinct hfree := hp.distinct (hfree.of_subset hsub)

/-- The `Pedigree` of the first block has no ancestors. -/
theorem Sound.pedigree_first (hsound : h.Sound g) : h.Pedigree h.first [] := by
  have htxs : h.first.txs = [] := (Block.first_eq_ok hsound.first).2.2.2
  refine ⟨.first, .singleton _, fun a older hsuffix tx htx => ?_, fun _ => ?_⟩
  · -- the first block has no transactions, and nothing is behind it
    rcases List.suffix_cons_iff.1 hsuffix with heq | hsuffix
    · obtain ⟨rfl, rfl⟩ := List.cons.inj heq
      rw [htxs] at htx
      cases htx
    · cases List.suffix_nil.1 hsuffix
  · simp [Block.txIds, htxs]

/-- A transaction that a window reaches back from was included in the window or not at all. -/
theorem Pedigree.mem_window (hfree : h.CollisionFree) (hsound : h.Sound g) {p : Block}
    {path window : List Block} (hp : h.Pedigree p path) (hwindow : window <+: p :: path)
    {a : Block} (ha : a ∈ p :: path) {tx : Transaction} (htx : tx ∈ a.txs)
    (hreach : ∃ c ∈ window, c.id = tx.blockId) : a ∈ window := by
  obtain ⟨beyond, hsplit⟩ := hwindow
  rw [← hsplit, List.mem_append] at ha
  refine ha.resolve_right fun ha => ?_
  -- beyond the window, the transaction refers to a block that is beyond it too
  obtain ⟨newer, older, hbeyond⟩ := List.append_of_mem ha
  have hsuffix : (a :: older) <:+ p :: path := by
    rw [← hsplit, hbeyond]
    exact (List.suffix_append newer _).trans (List.suffix_append window _)
  obtain ⟨c, hc, hcid⟩ := hp.anchored a older hsuffix tx htx
  obtain ⟨d, hd, hdid⟩ := hreach
  -- but the window has a block of that identifier, which comes once on the path
  have hids := nodup_ids hfree hsound hp.lineage.mem_blocks hp.extending
  rw [← hsplit, List.map_append, List.nodup_append] at hids
  refine hids.2.2 d.id (List.mem_map_of_mem hd) c.id (List.mem_map_of_mem ?_)
    (hdid.trans hcid.symm)
  rw [hbeyond]
  exact List.mem_append_right _ (List.mem_cons_of_mem _ hc)

/-- A block that passes the checks against a window of its parent continues its `Pedigree`. -/
theorem Pedigree.cons (hfree : h.CollisionFree) (hsound : h.Sound g) {b p : Block}
    {path window : List Block} {now : UInt64} (hp : h.Pedigree p path)
    (hframed : b.IsFramed Engine.framing) (hext : b.Extends p) (hwindow : window <+: p :: path)
    (hpass : Block.TxsPass b (BlockContext.ofWindow g now p window) b.txs) :
    (h.verify b).Pedigree b (p :: path) := by
  have hmono : (h.verify b).Pedigree p path := hp.mono rfl (h.blocks_subset_name b)
  have hreach {tx : Transaction} (htx : tx ∈ b.txs) : ∃ c ∈ window, c.id = tx.blockId :=
    (BlockContext.contains_recentBlocks_ofWindow now p window tx.blockId).1 (hpass.recent tx htx)
  refine ⟨.child (h.mem_blocks_name b) (hsound.ne_first hext) hext.1 hmono.lineage,
    .cons_cons hext hp.extending, fun a older hsuffix tx htx => ?_, fun htxfree => ?_⟩
  · -- a transaction of the block refers into the window, which is behind the block
    rcases List.suffix_cons_iff.1 hsuffix with heq | hsuffix
    · obtain ⟨rfl, rfl⟩ := List.cons.inj heq
      obtain ⟨c, hc, hcid⟩ := hreach htx
      exact ⟨c, hwindow.subset hc, hcid⟩
    · exact hp.anchored a older hsuffix tx htx
  · rw [List.flatMap_cons, List.nodup_append]
    refine ⟨hpass.distinct, hmono.distinct htxfree, fun id hid id' hid' heq => ?_⟩
    subst heq
    obtain ⟨tx, htx, rfl⟩ := List.mem_map.1 hid
    obtain ⟨a, ha, hid'⟩ := List.mem_flatMap.1 hid'
    obtain ⟨tx', htx', hid'⟩ := List.mem_map.1 hid'
    have hframed' : ∀ c ∈ (h.verify b).blocks, c.IsFramed Engine.framing :=
      (hsound.name hframed).framed
    have hsame : tx' = tx := htxfree.eq_of_id_eq hframed' (hmono.lineage.mem_blocks ha)
      (h.mem_blocks_name b) htx' htx hid'
    subst hsame
    -- an earlier inclusion is in the window, where the check for fresh transactions finds it
    have hin := hp.mem_window hfree hsound hwindow ha htx' (hreach htx)
    exact hpass.fresh tx' htx ((BlockContext.contains_recentTxs_ofWindow now p window tx'.id).2
      ⟨a, hin, tx', htx', rfl⟩)

end History

/-- What a `Transition` can add to the verified blocks. -/
theorem Transition.verified_cases {h h' : History} {e e' : Engine} (ht : Transition h e h' e') :
    h'.first = h.first ∧ h.blocks ⊆ h'.blocks ∧ (h'.verified = h.verified ∨
      ∃ b, b.IsFramed Engine.framing ∧ h'.verified = b :: h.verified ∧
        h'.blocks = (h.verify b).blocks ∧ (e.isStored b.id = true ∨
          ∃ clock parent v, e.checkBlock clock b = .ok (parent, v))) := by
  cases ht with
  | @recheck _ b hframed hstored same =>
    exact ⟨rfl, h.blocks_subset_name b, .inr ⟨b, hframed, rfl, rfl, .inl hstored⟩⟩
  | @attach _ clock b parent v hframed _ _ hcheck same =>
    exact ⟨rfl, h.blocks_subset_name b,
      .inr ⟨b, hframed, rfl, rfl, .inr ⟨clock, parent, v, hcheck⟩⟩⟩
  | name | rename | track => exact ⟨rfl, h.blocks_subset_name _, .inl rfl⟩
  | quiet | commit | forget | prefer | reopen => exact ⟨rfl, fun _ hb => hb, .inl rfl⟩

variable {g : Genesis} {h : History} {e : Engine}

/--
What is true of `h.first`, goes on to be true as blocks are added, and comes to be true of a block
that passes `checkBlock` where it is true of those verified before, is true of every verified block.
-/
theorem Reach.forall_verified {P : History → Block → Prop}
    (hmono : ∀ {h h' : History} {b : Block}, h'.first = h.first → h.blocks ⊆ h'.blocks → P h b →
      P h' b)
    (hfirst : ∀ {h : History}, h.Sound g → P h h.first)
    (hcheck : ∀ {h : History} {e : Engine} {clock : UInt64} {b parent : Block} {v : Verified},
      Reach g h e → h.CollisionFree → (∀ a, a = h.first ∨ a ∈ h.verified → P h a) →
      b.IsFramed Engine.framing → e.checkBlock clock b = .ok (parent, v) → P (h.verify b) b)
    (hreach : Reach g h e) (hfree : h.CollisionFree) :
    ∀ b, b = h.first ∨ b ∈ h.verified → P h b := by
  -- every verified block but the first comes from a transition of `Transition.verified_cases`
  refine hreach.invariant (P := fun h _ => ∀ b, b = h.first ∨ b ∈ h.verified → P h b)
    (fun settings refusals e store hstart b hb => ?_)
    (fun h h' e e' hreach hc hall ht hfree' b hb => ?_) hfree
  · obtain rfl := hb.resolve_right fun hb => nomatch hb
    exact hfirst (Coherent.start hstart).sound
  · obtain ⟨hsame, hsub, hverified⟩ := ht.verified_cases
    have hold (hb : b = h.first ∨ b ∈ h.verified) : P h' b := hmono hsame hsub (hall b hb)
    rw [hsame] at hb
    rcases hverified with hunchanged | ⟨c, hframed, hgrown, hblocks, hc'⟩
    · exact hold (hunchanged ▸ hb)
    · rw [hgrown, List.mem_cons, ← or_assoc, or_comm (a := b = h.first), or_assoc] at hb
      rcases hb with rfl | hb
      · have hnamed : (h.name b).CollisionFree := hfree'.of_subset (hblocks ▸ fun _ hb => hb)
        rcases hc' with hstored | ⟨clock, parent, v, hpasses⟩
        · -- a block that is stored was verified before
          have hchain := hc.mem_chain_of_isStored hframed hstored hnamed
          exact hold (hc.sound.verified_of_mem_chain hchain)
        · have hfree := hfree'.of_subset hsub
          exact hmono (h := h.verify b) hsame (hblocks ▸ fun _ hb => hb)
            (hcheck hreach hfree hall hframed hpasses)
      · exact hold hb

/-- `futureBound` keeps the time of every verified block below the last second. -/
theorem Reach.timestamp_lt (hreach : Reach g h e) (hfree : h.CollisionFree) :
    ∀ b, b = h.first ∨ b ∈ h.verified → b.timestamp.toNat < UInt64.size - 1 := by
  refine hreach.forall_verified (P := fun _ b => b.timestamp.toNat < UInt64.size - 1)
    (fun _ _ hlt => hlt) (fun hsound => ?_) (fun _ _ _ _ hcheck => ?_) hfree
  · rw [(Block.first_eq_ok hsound.first).2.2.1]
    decide
  · obtain ⟨-, hplace, -⟩ := Engine.checkBlock_eq_ok_iff.1 hcheck
    obtain ⟨-, -, hearly, -⟩ := Engine.checkPlace_eq_ok_iff.1 hplace
    rw [UInt64.lt_iff_toNat_lt, toNat_satAdd] at hearly
    omega

/-- `find?` is `Faithful`: it gives blocks of the run under their identifiers. -/
theorem Coherent.faithful_find? (hc : Coherent g h e) : BlockContext.Faithful h e.find? :=
  fun _ _ hfind => ⟨(hc.find?_eq_ok hfind).1, (hc.find?_eq_ok hfind).2.1⟩

/-- Every verified block of a state of `Reach` has a `Pedigree`. -/
theorem Reach.pedigree (hreach : Reach g h e) (hfree : h.CollisionFree) :
    ∀ b, b = h.first ∨ b ∈ h.verified → ∃ path, h.Pedigree b path := by
  refine hreach.forall_verified (P := fun h b => ∃ path, h.Pedigree b path)
    (fun hfirst hsub ⟨path, hp⟩ => ⟨path, hp.mono hfirst hsub⟩)
    (fun hsound => ⟨[], hsound.pedigree_first⟩)
    (fun {h e clock b parent v} hreach hfree hall hframed hcheck => ?_) hfree
  have hc := hreach.coherent hfree
  obtain ⟨hparent, hext, -, -⟩ := hc.checkBlock_eq_ok hcheck
  -- the parent has a pedigree, which the block continues
  obtain ⟨path, hp⟩ := hall parent hparent
  obtain ⟨-, -, context, view, hcontext, -, -, hexecute, -⟩ :=
    Engine.checkBlock_eq_ok_iff.1 hcheck
  -- the walk that fills the window looks blocks up in the engine
  rw [Engine.contextAfter, hc.settled.genesis] at hcontext
  obtain ⟨found, hwindow, rfl⟩ :=
    BlockContext.exists_window hfree hc.sound hc.faithful_find? hp.lineage hcontext
  exact ⟨_, hp.cons hfree hc.sound hframed hext hwindow (Block.execute_eq_ok_iff.1 hexecute).1⟩

/-- The one `Lineage` of a verified block is its `Pedigree`. -/
theorem Reach.pedigree_of_lineage (hreach : Reach g h e) (hfree : h.CollisionFree) {b : Block}
    {path : List Block} (hb : b = h.first ∨ b ∈ h.verified) (hl : h.Lineage (b :: path)) :
    h.Pedigree b path := by
  obtain ⟨path', hp⟩ := hreach.pedigree hfree b hb
  obtain rfl := hl.unique hfree (hreach.coherent hfree).sound hp.lineage
  exact hp

end LeaseChain
