import LeaseChain.Proofs.Engine.Lookback
import LeaseChain.Proofs.Engine.Pedigree
import LeaseChain.Proofs.FeeMarket

/-!
# What verified blocks pay

Verification compares words that may have stopped at the ends of their range. Along a run they never
have where it would matter: every verified block pays its price in exact arithmetic, and the price
was set by the exact rules, from its parent and from the lineage behind that as far as the lookback
reaches. The floors of difficulty and cost come down from the first block, each block's from its
parent's.

## Key results

- `Coherent.paid_of_checkBlock`: what the checks of one block mean in exact arithmetic
- `Reach.paid`: verified blocks pay, by induction along the run
- `Reach.paid_exactly`: the same of every verified or accepted block
-/

namespace LeaseChain

theorem HashSet.size_ofList (ids : List Hash) :
    (Std.ExtTreeSet.ofList ids : HashSet).size = ids.dedup.length := by
  rw [← Std.ExtTreeSet.length_toList]
  refine List.Perm.length_eq ((List.perm_ext_iff_of_nodup ?_ ids.nodup_dedup).2 fun id => ?_)
  · exact Std.ExtTreeSet.distinct_toList.imp fun hne heq =>
      hne (Std.LawfulEqCmp.compare_eq_iff_eq.2 heq)
  · simp

namespace Block

/-- The number of distinct transactions in blocks. -/
def countTxs (blocks : List Block) : Nat := (blocks.flatMap txIds).dedup.length

/-- A block pays its price with the work of its transactions, and no rule is broken by a stop. -/
structure PaysInFull (g : Genesis) (b : Block) : Prop where
  /-- Every transaction proves at least the work of the block. -/
  work : ∀ tx ∈ b.txs, (0 : Int) ≤ tx.difficulty.toNat - b.difficulty.toNat
  covers : b.price ≤ exactSurplus b.difficulty b.txs
  /-- The sum that verification computes is exact, and so is the product it compares it with. -/
  exact : ((surplus b.difficulty b.txs).toNat : Int) = exactSurplus b.difficulty b.txs ∧
    ((FeeMarket.requiredSurplus b.difficulty b.cost).toNat : Int) = b.price
  difficulty : g.minDifficulty ≤ b.difficulty ∧ b.difficulty ≤ 256
  cost : g.minBlockCost ≤ b.cost

/--
The price of a block is what its parent, with the lineage behind it, and the block's own time ask
for. A stop may only have made it dearer.
-/
structure PricedAfter (g : Genesis) (b parent : Block) (path : List Block) : Prop where
  cost : (b.cost.toNat : Int) = FeeMarket.exactCost g parent.cost.toNat
    (b.timestamp.toNat - parent.timestamp.toNat)
  difficulty : FeeMarket.exactDifficulty g parent.difficulty.toNat
    (countTxs (parent :: BlockContext.reached g b.timestamp path))
    (b.timestamp.toNat - parent.timestamp.toNat) ≤ b.difficulty.toNat

/-- `difficulty` of a block with transactions is bounded by the bits of a hash. -/
theorem difficulty_le_of_work {b : Block} (hne : b.txs ≠ [])
    (hwork : ∀ tx ∈ b.txs, b.difficulty ≤ tx.difficulty) : b.difficulty.toNat ≤ 256 := by
  obtain ⟨tx, htx⟩ := List.exists_mem_of_ne_nil b.txs hne
  exact Nat.le_trans (UInt64.le_iff_toNat_le.1 (hwork tx htx)) tx.difficulty_le

/-- `PaysInFull` holds above the floors of a block that passes the checks of work and surplus. -/
theorem paysInFull_of_checks {g : Genesis} {b : Block} (hb : b.IsFramed Framing.standard)
    (hne : b.txs ≠ []) (hwork : ∀ tx ∈ b.txs, b.difficulty ≤ tx.difficulty)
    (hsurplus : ¬surplus b.difficulty b.txs < FeeMarket.requiredSurplus b.difficulty b.cost)
    (hdifficulty : g.minDifficulty ≤ b.difficulty) (hcost : g.minBlockCost ≤ b.cost) :
    b.PaysInFull g where
  work tx htx := by
    have hle := UInt64.le_iff_toNat_le.1 (hwork tx htx)
    omega
  covers := (price_le_of_not_lt hb hwork hsurplus).1
  exact := ⟨(toNat_surplus hb hwork).1, (price_le_of_not_lt hb hwork hsurplus).2⟩
  difficulty := ⟨hdifficulty, UInt64.le_iff_toNat_le.2 (difficulty_le_of_work hne hwork)⟩
  cost := hcost

/-- `PaysInFull` keeps a block's cost far from the end of the range. -/
theorem PaysInFull.cost_le {g : Genesis} {b : Block} (hpays : b.PaysInFull g)
    (hbound : exactSurplus b.difficulty b.txs ≤ 2 ^ 29) (hmin : g.minDifficulty ≠ 0) :
    b.cost.toNat ≤ 2 ^ 29 := by
  have hfloor := UInt64.le_iff_toNat_le.1 hpays.difficulty.1
  have hpos : g.minDifficulty.toNat ≠ 0 := fun h => hmin (UInt64.toNat_inj.1 h)
  have hprice : b.price = (b.difficulty.toNat * b.cost.toNat : Nat) := rfl
  have hle : b.cost.toNat ≤ b.difficulty.toNat * b.cost.toNat :=
    Nat.le_mul_of_pos_left _ (by omega)
  have hcovers := hpays.covers
  omega

end Block

/-- `Block.first` has the least difficulty and the least cost. -/
theorem Block.floors_of_first {framing : Framing} {g : Genesis} {b : Block}
    (h : first framing g = .ok b) : b.difficulty = g.minDifficulty ∧ b.cost = g.minBlockCost := by
  obtain ⟨hcontent, -⟩ := ofContent_eq_ok_iff.1 h
  rw [difficulty, cost, hcontent]
  exact ⟨rfl, rfl⟩

/-- `PaysInFull` makes the price that retargeting sets the one of the exact rules. -/
theorem Block.PaysInFull.pricedAfter {g : Genesis} {b parent : Block} {path : List Block}
    (hpays : b.PaysInFull g) (hvalid : g.validate = .ok ())
    (hbound : exactSurplus b.difficulty b.txs ≤ 2 ^ 29)
    (hfloor : g.minDifficulty ≤ parent.difficulty)
    (hcost : b.cost = FeeMarket.nextCost g parent.cost (satSub b.timestamp parent.timestamp))
    (hdifficulty : b.difficulty = FeeMarket.nextDifficulty g parent.difficulty
      (countTxs (parent :: BlockContext.reached g b.timestamp path))
      (satSub b.timestamp parent.timestamp)) : b.PricedAfter g parent path where
  cost := by
    -- a cost at the end of the range would not have been paid
    have hmin := Genesis.ne_zero_of_validate hvalid
      (by simp [Genesis.nonZero] : ("min_difficulty", g.minDifficulty) ∈ g.nonZero)
    have hpaid := hpays.cost_le hbound hmin
    have hexact := FeeMarket.toNat_nextCost g parent.cost (satSub b.timestamp parent.timestamp)
    rw [← hcost, toNat_satSub, UInt64.size] at hexact
    omega
  difficulty := by
    have hrate := Genesis.ne_zero_of_validate hvalid
      (by simp [Genesis.nonZero] : ("target_block_rate", g.targetBlockRate) ∈ g.nonZero)
    have hwindow := Genesis.ne_zero_of_validate hvalid
      (by simp [Genesis.nonZero] : ("lookback_window", g.lookbackWindow) ∈ g.nonZero)
    have hbits := UInt64.le_iff_toNat_le.1 hpays.difficulty.2
    have hexact := FeeMarket.exactDifficulty_le (satSub b.timestamp parent.timestamp)
      (countTxs (parent :: BlockContext.reached g b.timestamp path)) hrate hwindow hfloor
    rw [← hdifficulty, toNat_satSub] at hexact
    exact hexact (Nat.lt_of_le_of_lt hbits (by decide))

variable {g : Genesis} {h : History} {e : Engine}

/-- `checkBlock` passes only blocks that `PaysInFull`, at the price that the exact rules set. -/
theorem Coherent.paid_of_checkBlock (hc : Coherent g h e) (hfree : h.CollisionFree)
    {clock : UInt64} {b parent : Block} {path : List Block} {v : Verified}
    (hframed : b.IsFramed Engine.framing) (hl : h.Lineage (parent :: path))
    (hext : History.Extending (parent :: path)) (hfloor : g.minDifficulty ≤ parent.difficulty)
    (hcheck : e.checkBlock clock b = .ok (parent, v)) :
    b.PaysInFull g ∧ b.PricedAfter g parent path := by
  obtain ⟨hopen, hplace, context, view, hcontext, hprice, hview, hexecute, -⟩ :=
    Engine.checkBlock_eq_ok_iff.1 hcheck
  obtain ⟨hne, hlate, -, -⟩ := Engine.checkPlace_eq_ok_iff.1 hplace
  obtain ⟨hpass, hsurplus, -⟩ := Block.execute_eq_ok_iff.1 hexecute
  -- the context is that of the parent's lineage, all of which is known
  have hknown := hc.isKnown_of_viewFrom hfree (Engine.openParent_eq_ok_iff.1 hopen).1 hview hl
  rw [hc.contextAfter_eq_ok hfree hl hext hknown] at hcontext
  obtain rfl := Except.ok.inj hcontext
  obtain ⟨hcost, hdifficulty⟩ := Engine.checkPrice_eq_ok_iff.1 hprice
  simp only [BlockContext.ofWindow] at hcost hdifficulty
  have hwork : ∀ tx ∈ b.txs, b.difficulty ≤ tx.difficulty := fun tx htx =>
    UInt64.not_lt.1 (hpass.work tx htx)
  have hpays : b.PaysInFull g := by
    refine Block.paysInFull_of_checks hframed hne hwork hsurplus ?_ ?_
    · rw [hdifficulty]
      exact FeeMarket.minDifficulty_le_nextDifficulty _ _ hfloor
    · rw [hcost]
      exact FeeMarket.minBlockCost_le_nextCost _ _ _
  rw [HashSet.size_ofList] at hdifficulty
  exact ⟨hpays, hpays.pricedAfter hc.sound.valid (Block.toNat_surplus hframed hwork).2 hfloor hcost
    hdifficulty⟩

/--
`PaysInFull` holds of all verified blocks along every run, each at a price that its parent sets.
-/
theorem Reach.paid (hreach : Reach g h e) (hfree : h.CollisionFree) :
    ∀ b, b = h.first ∨ b ∈ h.verified → b ≠ h.first → b.PaysInFull g ∧ ∃ parent path,
      h.Lineage (b :: parent :: path) ∧ b.Extends parent ∧ b.PricedAfter g parent path := by
  refine hreach.forall_verified (P := fun h b => b ≠ h.first → b.PaysInFull g ∧ ∃ parent path,
    h.Lineage (b :: parent :: path) ∧ b.Extends parent ∧ b.PricedAfter g parent path)
    (fun hfirst hsub hb hne => ?_) (fun _ hne => absurd rfl hne)
    (fun {h e clock b parent v} hreach hfree hall hframed hcheck hne => ?_) hfree
  · -- what was verified before is priced on the same lineage
    obtain ⟨hpays, parent, path, hl, hext, hpriced⟩ := hb (hfirst ▸ hne)
    exact ⟨hpays, parent, path, hl.mono hfirst hsub, hext, hpriced⟩
  · have hc := hreach.coherent hfree
    obtain ⟨hparent, hext, -, -⟩ := hc.checkBlock_eq_ok hcheck
    obtain ⟨path, hp⟩ := hreach.pedigree hfree parent hparent
    -- the parent is above the floor: it is the first block, or it was verified
    have hfloor : g.minDifficulty ≤ parent.difficulty := by
      by_cases hroot : parent = h.first
      · rw [hroot, (Block.floors_of_first hc.sound.first).1]
        exact UInt64.le_refl _
      · exact (hall parent hparent hroot).1.difficulty.1
    obtain ⟨hpays, hpriced⟩ :=
      hc.paid_of_checkBlock hfree hframed hp.lineage hp.extending hfloor hcheck
    exact ⟨hpays, parent, path, .child (h.mem_blocks_name b) hne hext.1
      (hp.lineage.mono rfl (h.blocks_subset_name b)), hext, hpriced⟩

/--
Every verified or accepted block other than the first `PaysInFull` over the integers, and has a
`Lineage` whose parent it is `PricedAfter`: its price is no less than what the exact rules ask of
it.
-/
theorem Reach.paid_exactly (hreach : Reach g h e) (hfree : h.CollisionFree) {b : Block}
    (hb : b ∈ h.verified ∨ b ∈ h.accepted) (hne : b ≠ h.first) :
    b.PaysInFull g ∧ ∃ parent path,
      h.Lineage (b :: parent :: path) ∧ b.Extends parent ∧ b.PricedAfter g parent path :=
  hreach.paid hfree b (.inr (hb.elim id ((hreach.coherent hfree).sound.accepted_sub b))) hne

/-- `PaysInFull` holds of two siblings, one of which is accepted. -/
theorem Siblings.paid_forked :
    (left ∈ forked.1.accepted ∧ left ≠ forked.1.first ∧ left.PaysInFull genesis) ∧
    right ∈ forked.1.verified ∧ right ≠ forked.1.first ∧ right.PaysInFull genesis := by
  have hleft : left ∈ forked.1.accepted ∧ left ≠ forked.1.first := by
    rw [history_forked]
    decide +kernel
  have hright : right ∈ forked.1.verified ∧ right ≠ forked.1.first := by
    rw [history_forked]
    decide +kernel
  exact ⟨⟨hleft.1, hleft.2,
      (reach_forked.paid_exactly collisionFree_forked (.inr hleft.1) hleft.2).1⟩,
    hright.1, hright.2, (reach_forked.paid_exactly collisionFree_forked (.inl hright.1) hright.2).1⟩

end LeaseChain
