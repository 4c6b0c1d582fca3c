import LeaseChain.Proofs.Engine.Pedigree
import LeaseChain.Proofs.Engine.Retention

/-!
# Networks

A transaction refers to a block of the chain that it is for, and is admitted only where a block
behind the preferred one has that identifier. Blocks that two runs have in common stand on the same
blocks down to the first one, which holds the least difficulty and the least cost of a block and
none of the other parameters. So networks that differ in one of the two admit no transaction in
common. Networks that differ only in the rest, even in the word that tells networks apart, start
from the same block, and one transaction that refers to it can be admitted on both.

## Key results

- `Reach.exists_referred`: an admitted transaction refers to a block of the run
- `History.first_eq_of_common`: runs with a block in common start from the same block
- `Reach.networks_apart`: which networks have no transaction in common
-/

namespace LeaseChain

/--
`Block.first` holds `minDifficulty` and `minBlockCost` of the parameters, and nothing else of them.
-/
theorem Block.first_eq_first_iff {framing : Framing} {g g' : Genesis} {b b' : Block}
    (hb : first framing g = .ok b) (hb' : first framing g' = .ok b') :
    b = b' ↔ g.minDifficulty = g'.minDifficulty ∧ g.minBlockCost = g'.minBlockCost := by
  constructor
  · rintro rfl
    obtain ⟨hcontent, -⟩ := ofContent_eq_ok_iff.1 hb
    obtain ⟨hcontent', -⟩ := ofContent_eq_ok_iff.1 hb'
    obtain ⟨-, -, -, hdifficulty, hcost, -⟩ := BlockContent.mk.inj (hcontent.symm.trans hcontent')
    exact ⟨hdifficulty, hcost⟩
  · rintro ⟨hdifficulty, hcost⟩
    have hsame : first framing g = first framing g' := by rw [first, first, hdifficulty, hcost]
    exact Except.ok.inj (hb.symm.trans (hsame.trans hb'))

namespace History

variable {g g' : Genesis} {h h' : History}

/-- `History.first` is the same for runs with a block in common. -/
theorem first_eq_of_common (hsound : h.Sound g) (hsound' : h'.Sound g')
    (hfree : LeaseChain.CollisionFree ((h.blocks ++ h'.blocks).map (·.bytes))) {b : Block}
    {path path' : List Block} (hl : h.Lineage (b :: path)) (hext : Extending (b :: path))
    (hl' : h'.Lineage (b :: path')) (hext' : Extending (b :: path')) : h.first = h'.first := by
  -- the parents of a common block are one block too, down to height zero
  induction path generalizing b path' with
  | nil =>
    obtain rfl := (hl'.height_eq_zero_iff hsound' hext').1
      ((hl.height_eq_zero_iff hsound hext).2 rfl)
    exact hl.eq_first.symm.trans hl'.eq_first
  | cons p path ih =>
    cases path' with
    | nil =>
      have hnil := (hl.height_eq_zero_iff hsound hext).1
        ((hl'.height_eq_zero_iff hsound' hext').2 rfl)
      cases hnil
    | cons p' path' =>
      obtain ⟨hp, hpath⟩ := hl.parent_eq
      obtain ⟨hp', hpath'⟩ := hl'.parent_eq
      have hmem := hpath.mem_blocks List.mem_cons_self
      have hmem' := hpath'.mem_blocks List.mem_cons_self
      have hsame : p = p' := Block.eq_of_id_eq hfree (hsound.framed p hmem)
        (hsound'.framed p' hmem') (List.mem_map_of_mem (List.mem_append_left _ hmem))
        (List.mem_map_of_mem (List.mem_append_right _ hmem')) (hp.symm.trans hp')
      subst hsame
      exact ih hpath hext.tail hpath' hext'.tail

end History

theorem Engine.checkAdmission_of_submit {e : Engine} {clock : UInt64} {tx : Transaction} {id : Hash}
    (h : (e.submit clock tx).1 = .ok id) : e.checkAdmission clock tx = .ok () := by
  unfold submit at h
  split at h
  · cases h
  · next hpasses => exact hpasses

/-- `submit` admits only transactions that refer to a block of the run with a lineage behind it. -/
theorem Reach.exists_referred {g : Genesis} {h : History} {e : Engine} (hreach : Reach g h e)
    (hfree : h.CollisionFree) {clock : UInt64} {tx : Transaction} {id : Hash}
    (hsubmit : (e.submit clock tx).1 = .ok id) :
    ∃ b path, b.id = tx.blockId ∧ h.Lineage (b :: path) ∧ History.Extending (b :: path) := by
  obtain ⟨-, -, -, parent, hparent, context, hcontext, hrecent, -, -, view, hview, -, -⟩ :=
    Engine.checkAdmission_eq_ok_iff.1 (Engine.checkAdmission_of_submit hsubmit)
  have hc := hreach.coherent hfree
  have hfind := Engine.find_eq_ok_iff.1 hparent
  obtain ⟨hid, -⟩ := hc.find?_eq_ok hfind
  obtain ⟨path, hp⟩ := hreach.pedigree hfree parent (hc.verified_of_find? hfind (hid ▸ hview))
  -- the block that it refers to is in the window, which is part of the preferred block's pedigree
  rw [Engine.contextAfter, hc.settled.genesis] at hcontext
  obtain ⟨found, hwindow, rfl⟩ :=
    BlockContext.exists_window hfree hc.sound hc.faithful_find? hp.lineage hcontext
  obtain ⟨b, hb, hbid⟩ := (BlockContext.contains_recentBlocks_ofWindow _ _ _ _).1 hrecent
  obtain ⟨newer, older, hsplit⟩ := List.append_of_mem (hwindow.subset hb)
  have hextending := hp.extending
  rw [hsplit] at hextending
  exact ⟨b, older, hbid, (hsplit ▸ hp.lineage).of_append, hextending.right_of_append⟩

/--
Two networks have the same `first` block exactly when they agree on `minDifficulty` and
`minBlockCost`, whatever else they differ in. Where one transaction passes `submit` on both, in any
states of theirs and at any times, they do agree, and the block with `tx.blockId` is one of both.
-/
theorem Reach.networks_apart {g g' : Genesis} {h h' : History} {e e' : Engine}
    (hreach : Reach g h e) (hreach' : Reach g' h' e')
    (hfree : CollisionFree ((h.blocks ++ h'.blocks).map (·.bytes))) :
    (h.first = h'.first ↔
      g.minDifficulty = g'.minDifficulty ∧ g.minBlockCost = g'.minBlockCost) ∧
    ∀ tx clock clock' id id', (e.submit clock tx).1 = .ok id → (e'.submit clock' tx).1 = .ok id' →
      g.minDifficulty = g'.minDifficulty ∧ g.minBlockCost = g'.minBlockCost ∧
      ∃ b ∈ h.blocks, b ∈ h'.blocks ∧ b.id = tx.blockId := by
  have hfree₁ : h.CollisionFree := hfree.mono (List.map_subset _ (List.subset_append_left _ _))
  have hfree₂ : h'.CollisionFree := hfree.mono (List.map_subset _ (List.subset_append_right _ _))
  have hsound := (hreach.coherent hfree₁).sound
  have hsound' := (hreach'.coherent hfree₂).sound
  have hfirst := Block.first_eq_first_iff hsound.first hsound'.first
  refine ⟨hfirst, fun tx clock clock' id id' hsubmit hsubmit' => ?_⟩
  obtain ⟨b, path, hbid, hl, hext⟩ := hreach.exists_referred hfree₁ hsubmit
  obtain ⟨b', path', hbid', hl', hext'⟩ := hreach'.exists_referred hfree₂ hsubmit'
  have hmem := hl.mem_blocks List.mem_cons_self
  have hmem' := hl'.mem_blocks List.mem_cons_self
  -- the block that `tx` names is known on both networks, and collision-freeness makes it one
  have hsame : b = b' := Block.eq_of_id_eq hfree (hsound.framed b hmem) (hsound'.framed b' hmem')
    (List.mem_map_of_mem (List.mem_append_left _ hmem))
    (List.mem_map_of_mem (List.mem_append_right _ hmem')) (hbid.trans hbid'.symm)
  subst hsame
  -- two chains with a block in common start from the same block
  obtain ⟨hdifficulty, hcost⟩ :=
    hfirst.1 (History.first_eq_of_common hsound hsound' hfree hl hext hl' hext')
  exact ⟨hdifficulty, hcost, b, hmem, hmem', hbid⟩

/-! ## A transaction of two networks

A network of another number and other first balances starts from the same block. A network with
another least cost of a block does not.
-/

namespace Siblings

def elsewhere : Genesis := { genesis with magic := 1 }

theorem reach_elsewhere :
    Reach elsewhere (.start first) (Engine.atGenesis elsewhere [] first) :=
  Reach.atGenesis rfl (Block.ofContent_eq_ok_iff.2 ⟨rfl, isFramed_first⟩) rfl

/-- `submit` takes the claim on both networks of one first block, and on no engine of the third. -/
theorem claim_elsewhere : genesis ≠ elsewhere ∧ Reach genesis (.start first) start ∧
    Reach elsewhere (.start first) (Engine.atGenesis elsewhere [] first) ∧
    (start.submit 50 claim).1 = .ok claim.id ∧
    ((Engine.atGenesis elsewhere [] first).submit 50 claim).1 = .ok claim.id ∧
    (∃ b ∈ (History.start first).blocks, b.id = claim.blockId) ∧
    ∀ clock, (Rivals.start.submit clock claim).1 ≠ .ok claim.id := by
  have hhere : (start.submit 50 claim).1 = .ok claim.id := by decide +kernel
  have hthere : ((Engine.atGenesis elsewhere [] first).submit 50 claim).1 = .ok claim.id := by
    decide +kernel
  have hfree : CollisionFree
      (((History.start first).blocks ++ (History.start first).blocks).map (·.bytes)) :=
    CollisionFree.of_ids (·.id_eq) (by decide +kernel)
  have hfree' : CollisionFree
      (((History.start first).blocks ++ (History.start Rivals.first).blocks).map (·.bytes)) :=
    CollisionFree.of_ids (·.id_eq) (by decide +kernel)
  obtain ⟨-, hshared⟩ := reach_start.networks_apart reach_elsewhere hfree
  obtain ⟨-, hapart⟩ := reach_start.networks_apart Rivals.reach_start hfree'
  obtain ⟨-, -, b, hb, -, hid⟩ := hshared claim 50 50 _ _ hhere hthere
  refine ⟨by decide, reach_start, reach_elsewhere, hhere, hthere, ⟨b, hb, hid⟩,
    fun clock hclaim => ?_⟩
  -- the two least costs are not the same
  obtain ⟨-, hcost, -⟩ := hapart claim 50 clock _ _ hhere hclaim
  exact absurd hcost (by decide)

end Siblings

end LeaseChain
