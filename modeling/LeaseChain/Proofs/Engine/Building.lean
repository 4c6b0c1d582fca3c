import LeaseChain.Proofs.Engine.Drafting
import LeaseChain.Proofs.Engine.Pedigree

/-!
# Building and verification agree

A block that was built goes through the verification that a peer's block goes through, and passes
it: its place and its price are those that verification computes, the pool holds signed transactions
only, pruning leaves those that refer to the window, and what was selected has the same effect when
the index entries are staged with it. Only a block that consensus has rejected before is refused.

## Key results

- `Reach.checkBlock_drafted`: a block that was built passes the checks
- `Reach.build_drafted`, `Reach.isRejected_of_selfCheck`: it is tracked, unless it was rejected
  before
- `Reach.build_agrees`: what building answers, and what it stores
-/

namespace LeaseChain

variable {g : Genesis} {h : History} {e : Engine} {clock : UInt64}

/-- `childTime` is not earlier than the clock says. -/
theorem Engine.le_childTime (clock : UInt64) (parent : Block) : clock ≤ childTime clock parent := by
  rw [UInt64.le_iff_toNat_le, childTime, UInt64.toNat_max]
  exact Nat.le_max_left _ _

/-- `childTime` is later than the parent, if that comes before the last second. -/
theorem Engine.toNat_childTime (clock : UInt64) {parent : Block}
    (hend : parent.timestamp.toNat < UInt64.size - 1) :
    (childTime clock parent).toNat = max clock.toNat (parent.timestamp.toNat + 1) := by
  rw [UInt64.size] at hend
  rw [childTime, UInt64.toNat_max, UInt64.toNat_add, UInt64.toNat_one, Nat.mod_eq_of_lt (by omega)]

/-- `openParent` takes the preferred block as the parent of whatever names it. -/
theorem Coherent.openParent_preferred (hc : Coherent g h e) {parent : Block}
    (hparent : e.preferredBlock = .ok parent) :
    parent.id = e.preferred ∧
    ∀ block : Block, block.parentId = parent.id → e.openParent block = .ok parent := by
  have hfind := Engine.find_eq_ok_iff.1 hparent
  obtain ⟨hid, -⟩ := hc.find?_eq_ok hfind
  refine ⟨hid, fun block hblock => Engine.openParent_eq_ok_iff.2 ⟨?_, ?_⟩⟩
  · rw [hblock, hid]
    exact hfind
  · rw [hid]
    exact hc.arranged.preferred

/-- A block above one that `openParent` takes is not stored. -/
theorem Reach.not_isStored_of_openParent (hreach : Reach g h e) {block parent : Block}
    (hfree : (h.name block).CollisionFree) (hframed : block.IsFramed Engine.framing)
    (hopen : e.openParent block = .ok parent)
    (hheight : block.height.toNat = parent.height.toNat + 1) : ¬e.isStored block.id = true := by
  have hfree' := hfree.of_subset (h.blocks_subset_name block)
  have hc := hreach.coherent hfree'
  obtain ⟨hpid, hpmem, hparent⟩ := hc.openParent_eq_ok hopen
  intro hstored
  have hb := hc.mem_chain_of_isStored hframed hstored hfree
  -- the block's parent is on the chain behind it, and is the open block
  obtain ⟨newer, older, hsplit⟩ := List.append_of_mem hb
  rcases hc.sound.rooted block older ⟨newer, hsplit.symm⟩ with rfl | ⟨q, hq, hext⟩
  · -- the first block is above none
    have hlast : block = h.first := History.eq_first_of_suffix ⟨newer, hsplit.symm⟩
    rw [hlast, (Block.first_eq_ok hc.sound.first).2.1] at hheight
    exact absurd hheight (by simp)
  · have hqchain : q ∈ h.chain := by
      rw [hsplit]
      exact List.mem_append_right _ (List.mem_cons_of_mem _ hq)
    have hqid : q.id = block.parentId := hext.1.symm
    rcases hparent with ⟨entry, hentry, -⟩ | ⟨-, rfl⟩
    · -- a tracked parent is not on the chain
      exact (hc.arranged.tracked hentry).2.2 q hqchain hqid
    · -- the tip comes before the block and after it
      have hnodup := hreach.nodup_chain hfree'
      obtain ⟨behind, htip⟩ := hc.settled.tip
      have htipmem : e.lastAccepted ∈ newer ++ [block] := by
        cases newer with
        | nil => exact (List.cons.inj (htip.symm.trans hsplit)).1 ▸ List.mem_cons_self
        | cons x newer => exact (List.cons.inj (htip.symm.trans hsplit)).1 ▸ List.mem_cons_self
      rw [hsplit, List.append_cons, List.map_append, List.nodup_append] at hnodup
      exact hnodup.2.2 _ (List.mem_map_of_mem htipmem) _ (List.mem_map_of_mem hq)
        (hpid.trans hqid.symm)

/-- The transactions of a `selection` pass the checks that need no state. -/
theorem Reach.txsPass_selection (hreach : Reach g h e) {context : BlockContext} {now : UInt64}
    {view : View} {block : Block} (hdifficulty : block.difficulty = context.nextDifficulty) :
    Block.TxsPass block context (e.selection context now view).taken := by
  -- what is taken was in the pool before and after pruning
  have hpruned := hreach.pooled.consistent.prune context.recentBlocks.contains
  have hsub := e.taken_sublist_selection context now view
  have hpool {tx : Transaction} (htx : tx ∈ (e.selection context now view).taken) :
      e.mempool.get? tx.id = some tx ∧ context.recentBlocks.contains tx.blockId = true := by
    have hmem := hpruned.mem_top (hsub.subset htx)
    rw [Mempool.get?_prune, Option.filter_eq_some_iff] at hmem
    exact hmem
  have hchosen {tx : Transaction} (htx : tx ∈ (e.selection context now view).taken) :=
    Selection.of_mem_taken e.genesis context now _ _ _ htx
  -- one case for each check of `TxsPass`
  constructor
  · exact fun tx htx => (hpool htx).2
  · exact fun tx htx => (hchosen htx).2
  · exact (hpruned.nodup_ids_top _).sublist (hsub.map _)
  · exact fun tx htx => hdifficulty ▸ (hchosen htx).1
  · exact fun tx htx => (hreach.pooled.admitted (hpool htx).1).1

namespace Engine.DraftedOn

variable {block parent : Block} {context : BlockContext} {view : View}
  (hd : e.DraftedOn clock block parent context view)

include hd

/-- The block passes `checkPlace`, as its parent's time is too early to be the last second. -/
theorem checkPlace (hreach : Reach g h e) (hfree : h.CollisionFree) :
    checkPlace clock parent block = .ok () := by
  have hc := hreach.coherent hfree
  have hopen := (hc.openParent_preferred hd.preferred).2 block hd.parentId
  have hverified := hc.verified_of_viewFrom hopen (hd.parentId ▸ hd.shows)
  have htime := Engine.toNat_childTime clock (hreach.timestamp_lt hfree parent hverified)
  have hlater : parent.timestamp < block.timestamp := by
    rw [UInt64.lt_iff_toNat_lt, hd.timestamp]
    omega
  exact Engine.checkPlace_eq_ok_iff.2
    ⟨hd.nonempty, hlater, UInt64.not_le.1 hd.early, hd.height⟩

/-- The block's transactions pass `execute`: their checks, and their effects one after the other. -/
theorem execute (hreach : Reach g h e) :
    ∃ changes, block.execute e.genesis context view = .ok changes := by
  -- what `select` took was executed then, and can be executed again on the view
  obtain ⟨after, hafter⟩ := e.exists_effectTxs_selection context view (rfl : block.timestamp = _)
  rw [← hd.txs] at hafter
  have heffect : block.effect e.genesis view =
      .ok ((after.staged.put (StoreKey.block block.id) block.bytes).put StoreKey.lastAccepted
        block.id.bytes) := by
    rw [Block.effect, hafter]
    rfl
  refine ⟨_, Block.execute_eq_ok_iff.2 ⟨?_, ?_, heffect⟩⟩
  · rw [hd.txs]
    exact hreach.txsPass_selection hd.difficulty
  · have hsurplus := hd.surplus
    rwa [BlockContext.requiredSurplus, ← hd.difficulty, ← hd.cost] at hsurplus

end Engine.DraftedOn

/-- A `drafted` block passes `checkBlock`; its changes are its effect on the preferred state. -/
theorem Reach.checkBlock_drafted (hreach : Reach g h e) (hfree : h.CollisionFree) {block : Block}
    (hdrafted : e.drafted clock = some block) :
    ∃ parent view v, e.checkBlock clock block = .ok (parent, v) ∧ parent.id = e.preferred ∧
      e.viewFrom e.preferred = .ok view ∧ block.effect g view = .ok v.changes := by
  have hc := hreach.coherent hfree
  obtain ⟨parent, context, view, hd⟩ := Engine.exists_draftedOn hdrafted
  obtain ⟨hid, hopen⟩ := hc.openParent_preferred hd.preferred
  obtain ⟨changes, hexecute⟩ := hd.execute hreach
  -- the checks are passed one by one: the place, the window, the price, the state below, the effect
  have hprice : Engine.checkPrice context block = .ok () :=
    Engine.checkPrice_eq_ok_iff.2 ⟨hd.cost, hd.difficulty⟩
  have hcheck := Engine.checkBlock_eq_ok_iff.2 ⟨hopen block hd.parentId, hd.checkPlace hreach hfree,
    context, view, hd.window, hprice, hd.parentId ▸ hd.shows, hexecute,
    (rfl : (⟨_, changes⟩ : Verified).footing = e.footingOn parent.id)⟩
  have heffect := (Block.execute_eq_ok_iff.1 hexecute).2.2
  rw [hc.settled.genesis] at heffect
  exact ⟨parent, view, _, hcheck, hid, hid ▸ hd.shows, heffect⟩

/-- `verify` refuses a `drafted` block if it was rejected, and keeps its changes if not. -/
theorem Reach.verify_drafted (hreach : Reach g h e) {block : Block}
    (hfree : (h.name block).CollisionFree) (hdrafted : e.drafted clock = some block) :
    ∃ parent view v, parent.id = e.preferred ∧ block.parentId = parent.id ∧
      e.viewFrom e.preferred = .ok view ∧ block.effect g view = .ok v.changes ∧
      (e.draft clock).2.verify clock block =
        if e.isRejected block.id then
          (.error (.alreadyDecided block.id .rejected), (e.draft clock).2)
        else (.ok (), (e.draft clock).2.attach block parent v) := by
  have hsame := e.sameChain_draft clock
  have hfree' := hfree.of_subset (h.blocks_subset_name block)
  obtain ⟨parent, view, v, hcheck, hid, hview, heffect⟩ := hreach.checkBlock_drafted hfree' hdrafted
  obtain ⟨-, hext, -, -⟩ := (hreach.coherent hfree').checkBlock_eq_ok hcheck
  obtain ⟨_, _, _, hd⟩ := Engine.exists_draftedOn hdrafted
  have hnew : ¬e.isStored block.id = true := hreach.not_isStored_of_openParent hfree hd.framed
    (Engine.checkBlock_eq_ok_iff.1 hcheck).1 hext.2.1
  refine ⟨parent, view, v, hid, hext.1, hview, heffect, ?_⟩
  -- of the tests before the checks only the one for rejected blocks is left
  rw [Engine.verify, hsame.isRejected_eq, hsame.isTracked_eq, hsame.isStored_eq,
    hsame.checkBlock_eq, hcheck, Bool.eq_false_iff.2 hnew, Bool.and_false]
  rfl

/-- `build` answers with the `drafted` block and tracks it, unless it was rejected before. -/
theorem Reach.build_drafted (hreach : Reach g h e) {block : Block}
    (hfree : (h.name block).CollisionFree) (hdrafted : e.drafted clock = some block)
    (hrejected : ¬e.isRejected block.id = true) :
    (e.build clock).1 = .ok block ∧ block.parentId = e.preferred ∧
    ∃ view v, e.viewFrom e.preferred = .ok view ∧ block.effect g view = .ok v.changes ∧
      ∃ entry, (e.build clock).2.tracked[block.id]? = some entry ∧
        entry.block = block ∧ entry.verified? = some v := by
  obtain ⟨parent, view, v, hid, hparentId, hview, heffect, hverify⟩ :=
    hreach.verify_drafted hfree hdrafted
  have hbuild := Engine.build_eq_of_drafted hdrafted
  rw [hverify, if_neg hrejected] at hbuild
  have hc := hreach.coherent (hfree.of_subset (h.blocks_subset_name block))
  obtain ⟨_, _, _, hd⟩ := Engine.exists_draftedOn hdrafted
  have harranged : (e.draft clock).2.Arranged g h :=
    -- the build is one `attach` on top of the drafting, which changes no tracked block
    hc.arranged.congr (e.sameChain_draft clock) (fun _ hb => hb) (fun _ hb => hb) rfl
  have hentry := harranged.exists_getElem?_attach parent v
    fun _ => hc.sound.eq_of_named hd.framed hfree
  rw [hbuild]
  exact ⟨rfl, hparentId.trans hid, view, v, hview, heffect, hentry⟩

/-- `verify` refuses a `drafted` block only if it was rejected before. -/
theorem Reach.isRejected_of_selfCheck (hreach : Reach g h e)
    (hfree : ∀ block, e.drafted clock = some block → (h.name block).CollisionFree)
    {cause : EngineError} (hblamed : (e.build clock).1 = .error (.selfCheck cause)) :
    ∃ block, e.drafted clock = some block ∧ e.isRejected block.id = true ∧
      cause = .alreadyDecided block.id .rejected := by
  obtain ⟨block, hdrafted⟩ := Engine.exists_drafted_of_selfCheck hblamed
  obtain ⟨parent, view, v, -, -, -, -, hverify⟩ :=
    hreach.verify_drafted (hfree block hdrafted) hdrafted
  -- the only thing wrong with what was drafted can be an earlier rejection of it
  rw [Engine.build_eq_of_drafted hdrafted, hverify] at hblamed
  by_cases hrejected : e.isRejected block.id = true
  · rw [if_pos hrejected] at hblamed
    have hcause := EngineError.selfCheck.inj (Except.error.inj hblamed)
    exact ⟨block, hdrafted, hrejected, hcause.symm⟩
  · rw [if_neg hrejected] at hblamed
    cases hblamed

/--
Where a block is `drafted` that was not rejected, `build` answers with it and tracks it with its
`effect` on the view of the preferred block, which is what `Table.runBlock` makes of that state,
flattened. A `selfCheck` error comes only from a drafted block that was rejected before, and says
so.
-/
theorem Reach.build_agrees (hreach : Reach g h e) (clock : UInt64)
    (hfree : ∀ block, e.drafted clock = some block → (h.name block).CollisionFree) :
    (∀ block, e.drafted clock = some block → ¬e.isRejected block.id = true →
      (e.build clock).1 = .ok block ∧ block.parentId = e.preferred ∧
      ∃ view changes, e.viewFrom e.preferred = .ok view ∧ block.effect g view = .ok changes ∧
        Table.runBlock g view.flatten block = .ok (view.flatten.apply changes) ∧
        ∃ entry footing, (e.build clock).2.tracked[block.id]? = some entry ∧
          entry.block = block ∧ entry.verified? = some ⟨footing, changes⟩) ∧
    (∀ cause, (e.build clock).1 = .error (.selfCheck cause) →
      ∃ block, e.drafted clock = some block ∧ e.isRejected block.id = true ∧
        cause = .alreadyDecided block.id .rejected) := by
  refine ⟨fun block hdrafted hrejected => ?_, fun cause => hreach.isRejected_of_selfCheck hfree⟩
  obtain ⟨hbuild, hparent, view, v, hview, heffect, entry, hentry, hblock, hverified⟩ :=
    hreach.build_drafted (hfree block hdrafted) hdrafted hrejected
  exact ⟨hbuild, hparent, view, v.changes, hview, heffect, Table.runBlock_flatten heffect, entry,
    v.footing, hentry, hblock, hverified⟩

namespace Siblings

/-- Building drafts `left` out of the claim. -/
theorem drafted_left : (start.submit 50 claim).2.drafted 50 = some left :=
  Engine.drafted_of_draft isFramed_left (by decide +kernel)

/-- Nothing was rejected yet. -/
theorem left_unrejected : ¬(start.submit 50 claim).2.isRejected left.id = true := by
  rw [(start.sameChain_submit 50 claim).isRejected_eq]
  decide +kernel

theorem collisionFree_left : ((History.start first).name left).CollisionFree :=
  CollisionFree.of_ids (·.id_eq) (by decide +kernel)

theorem builds_left : ((start.submit 50 claim).2.build 50).1 = .ok left :=
  ((reach_start.submit 50 claim).build_drafted collisionFree_left drafted_left left_unrejected).1

end Siblings

/-- The pending claim becomes the block `left`, which passes verification. -/
theorem Siblings.build_left :
    let pending := (start.submit 50 claim).2
    (pending.build 50).1 = .ok left ∧
    ∃ view changes, pending.viewFrom first.id = .ok view ∧ left.effect genesis view = .ok changes ∧
      ∃ entry footing, (pending.build 50).2.tracked[left.id]? = some entry ∧
        entry.verified? = some ⟨footing, changes⟩ := by
  have hfree : ∀ block, (start.submit 50 claim).2.drafted 50 = some block →
      ((History.start first).name block).CollisionFree := by
    intro block hblock
    obtain rfl := Option.some.inj (drafted_left.symm.trans hblock)
    exact collisionFree_left
  obtain ⟨hbuild, hparent, view, changes, hview, heffect, -, entry, footing, hentry, -,
    hverified⟩ := ((reach_start.submit 50 claim).build_agrees 50 hfree).1 left drafted_left
      left_unrejected
  rw [← hparent] at hview
  exact ⟨hbuild, view, changes, hview, heffect, entry, footing, hentry, hverified⟩

end LeaseChain
