import LeaseChain.Proofs.Engine.Building
import LeaseChain.Proofs.Engine.Retention
import LeaseChain.Proofs.Mempool.Ranking

/-!
# What becomes of all that is pending

Building goes through the pool from its best transaction on and stops when the block is full or the
next one is too weak. So a build that gives a block disposes of everything that was pending in one
of four ways: it was pruned, it is in the block, it was dropped at its turn, or it is still pending
and ranks below all of the block.

## Key results

- `Selection.exists_left`: what is offered is taken, dropped, or left at the end
- `Selection.fails_of_mem_dropped`: why a transaction is dropped
- `Engine.Disposal`: the four parts and what is true of each
- `Reach.exists_disposal`: a build that gives a block disposes of the whole pool
-/

namespace LeaseChain

namespace Selection

variable (g : Genesis) (context : BlockContext) (now : UInt64) (room : Nat) (overlay : Overlay)
  (txs : List Transaction)

theorem length_taken_le : (select g context now room overlay txs).taken.length ≤ room := by
  -- each step of `select` takes one transaction more than the rest does, or none
  fun_induction select g context now room overlay txs with
  | case1 | case2 | case3 => exact Nat.zero_le _
  | case4 _ _ _ _ _ _ _ ih => exact ih
  | case5 _ _ _ _ _ _ _ _ _ ih => exact Nat.succ_le_succ ih
  | case6 _ _ _ _ _ _ _ _ _ ih => exact ih

/--
`select` looks at what is offered from the front. What was looked at is taken or dropped, and
looking ends with a transaction that proves too little work, unless as many were taken as there is
room for.
-/
theorem exists_looked : ∃ looked left, txs = looked ++ left ∧
    looked.Perm ((select g context now room overlay txs).taken ++
      (select g context now room overlay txs).dropped) ∧
    ((∀ tx ∈ left.head?, tx.difficulty < context.nextDifficulty) ∨
      (select g context now room overlay txs).taken.length = room) := by
  -- one case for each way in which `select` goes on, with the rest of the list in `ih`
  fun_induction select g context now room overlay txs with
  | case1 => exact ⟨[], _, rfl, .nil, .inr rfl⟩
  | case2 => exact ⟨[], [], rfl, .nil, .inl (by simp)⟩
  | case3 room overlay tx txs hweak =>
    refine ⟨[], tx :: txs, rfl, .nil, .inl fun other hother => ?_⟩
    obtain rfl := Option.some.inj hother
    exact hweak
  | case4 room overlay tx txs _ _ rest ih =>
    obtain ⟨looked, left, rfl, hperm, hend⟩ := ih
    -- what is dropped joins the others behind what was taken
    have hdropped : (tx :: looked).Perm (rest.taken ++ tx :: rest.dropped) :=
      (hperm.cons tx).trans List.perm_middle.symm
    exact ⟨tx :: looked, left, rfl, hdropped, hend⟩
  | case5 room overlay tx txs _ _ changes _ rest ih =>
    obtain ⟨looked, left, rfl, hperm, hend⟩ := ih
    refine ⟨tx :: looked, left, rfl, hperm.cons tx, hend.imp_right fun hfull => ?_⟩
    rw [List.length_cons, hfull]
  | case6 room overlay tx txs _ _ cause _ rest ih =>
    obtain ⟨looked, left, rfl, hperm, hend⟩ := ih
    have hdropped : (tx :: looked).Perm (rest.taken ++ tx :: rest.dropped) :=
      (hperm.cons tx).trans List.perm_middle.symm
    exact ⟨tx :: looked, left, rfl, hdropped, hend⟩

variable {txs} (hdescending : txs.Pairwise fun a b => Ranking.below b a = true)

include hdescending

/-- Where `select` gets a list in descending order, what is left ranks below all that was taken. -/
theorem exists_left : ∃ left,
    txs.Perm ((select g context now room overlay txs).taken ++
      (select g context now room overlay txs).dropped ++ left) ∧
    ∀ tx ∈ left,
      (∀ taken ∈ (select g context now room overlay txs).taken, Ranking.below tx taken = true) ∧
      (tx.difficulty < context.nextDifficulty ∨
        (select g context now room overlay txs).taken.length = room) := by
  obtain ⟨looked, left, hsplit, hperm, hend⟩ := exists_looked g context now room overlay txs
  rw [hsplit, List.pairwise_append] at hdescending
  obtain ⟨-, hleft, hbehind⟩ := hdescending
  refine ⟨left, hsplit ▸ hperm.append_right left, fun tx htx => ⟨fun taken htaken => ?_, ?_⟩⟩
  · exact hbehind taken (hperm.mem_iff.2 (List.mem_append_left _ htaken)) tx htx
  · -- all that is left ranks no higher than the one where looking ended
    refine hend.imp_left fun hweak => ?_
    cases left with
    | nil => cases htx
    | cons first rest =>
      have hfirst : first.difficulty < context.nextDifficulty := hweak first rfl
      rcases List.mem_cons.1 htx with rfl | htx
      · exact hfirst
      · have hle : tx.difficulty ≤ first.difficulty :=
          Ranking.fee_le_of_below ((List.pairwise_cons.1 hleft).1 tx htx)
        rw [UInt64.lt_iff_toNat_lt] at hfirst ⊢
        rw [UInt64.le_iff_toNat_le] at hle
        omega

/-- What is `dropped` is in the window, or `FailsBehind` those taken that rank above it. -/
theorem fails_of_mem_dropped {tx : Transaction}
    (h : tx ∈ (select g context now room overlay txs).dropped) :
    context.recentTxs.contains tx.id = true ∨
    FailsBehind g now overlay
      ((select g context now room overlay txs).taken.filter (Ranking.below tx ·)) tx := by
  refine (of_mem_dropped g context now room overlay txs h).imp_right ?_
  rintro ⟨ahead, behind, htaken, hsub, hfails⟩
  have hordered := hdescending.sublist hsub
  rw [List.pairwise_append, List.pairwise_cons] at hordered
  obtain ⟨-, ⟨hbehind, -⟩, hahead⟩ := hordered
  -- what was taken ahead of `tx` is exactly what ranks above it
  have hkept : ahead.filter (Ranking.below tx ·) = ahead := by
    rw [List.filter_eq_self]
    intro other hother
    exact hahead other hother tx List.mem_cons_self
  have hgone : behind.filter (Ranking.below tx ·) = [] := by
    rw [List.filter_eq_nil_iff]
    intro other hother hbelow
    exact Ranking.not_below_self tx (Ranking.below_trans hbelow (hbehind other hother))
  rw [htaken, List.filter_append, hkept, hgone, List.append_nil]
  exact hfails

end Selection

/-- What is `offered` to a block is what the pool lists of the window, in descending order. -/
theorem Mempool.Shows.offered_eq {e : Engine} {pending : Ranking Transaction}
    (hshows : e.mempool.Shows pending) (context : BlockContext) : e.offered context =
      (pending.items.filter fun tx => context.recentBlocks.contains tx.blockId).reverse := by
  have hpruned := (hshows.prune context.recentBlocks.contains).2
  rw [Engine.offered, hpruned.top_eq, hpruned.size_eq, List.take_of_length_le]
  · rfl
  · exact List.length_reverse.le

/-- `offered` comes in descending order. -/
theorem Mempool.Shows.descending_offered {e : Engine} {pending : Ranking Transaction}
    (hshows : e.mempool.Shows pending) (context : BlockContext) :
    (e.offered context).Pairwise fun a b => Ranking.below b a = true := by
  rw [hshows.offered_eq, List.pairwise_reverse]
  exact hshows.ascending.sublist List.filter_sublist

namespace Engine

variable {e : Engine} {clock : UInt64} {block parent : Block} {context : BlockContext} {view : View}

/-- Where `build` gives a block, the pool is as `draft` left it. -/
theorem mempool_build (h : (e.build clock).1 = .ok block) :
    (e.build clock).2.mempool = (e.draft clock).2.mempool := by
  obtain ⟨e', hverify, heq⟩ := build_eq_ok h
  rw [heq]
  -- a verification that passed leaves the pool alone, whether the block was verified before or not
  rcases Transition.verify_cases (e.draft clock).2 clock block with
    ⟨_, hv⟩ | ⟨-, hv⟩ | ⟨_, _, -, -, hv⟩
  · rw [hverify] at hv
    cases hv
  · obtain rfl := (Prod.mk.inj (hverify.symm.trans hv)).2
    rfl
  · obtain rfl := (Prod.mk.inj (hverify.symm.trans hv)).2
    rfl

namespace DraftedOn

variable (hd : e.DraftedOn clock block parent context view)

include hd

/-- `buildPlan` is for the time that the block has. -/
theorem buildPlan : e.buildPlan clock = .ok (parent, block.timestamp, context) :=
  buildPlan_eq_ok_iff.2 ⟨hd.preferred, hd.timestamp.symm, hd.early, hd.window⟩

/-- `draft` prunes the pool and takes out what was dropped and what is in the block. -/
theorem mempool_draft (hdrafted : e.drafted clock = some block) :
    (e.draft clock).2.mempool =
      (e.mempool.prune context.recentBlocks.contains).2.removeAll
        (((e.selection context block.timestamp view).dropped ++ block.txs).map (·.id)) := by
  obtain ⟨content, hcontent, -⟩ := drafted_eq_some hdrafted
  rw [fst_draft_of_plan hd.buildPlan hd.shows] at hcontent
  rw [draft_of_plan hd.buildPlan hd.shows, hd.txs, List.map_append, Mempool.removeAll_append]
  simp only [hcontent]
  rfl

section Descending

variable (hdescending : (e.offered context).Pairwise fun a b => Ranking.below b a = true)

include hdescending

/-- `Ranking.below` orders the block's transactions downwards, as it does the offer. -/
theorem descending : block.txs.Pairwise fun a b => Ranking.below b a = true := by
  rw [hd.txs]
  exact hdescending.sublist (e.taken_sublist_selection context block.timestamp view)

/--
`offered` leaves over what ranks below the block, and proves too little work where it has room.
-/
theorem exists_left : ∃ rest, (e.offered context).Perm
    (block.txs ++ (e.selection context block.timestamp view).dropped ++ rest) ∧
    ∀ tx ∈ rest, (∀ included ∈ block.txs, Ranking.below tx included = true) ∧
      (tx.difficulty < block.difficulty ∨
        block.txs.length = e.genesis.targetBlockSize.toNat) := by
  rw [hd.txs, hd.difficulty]
  exact Selection.exists_left _ _ _ _ _ hdescending

/-- What was `dropped` is in the window, or `FailsBehind` those in the block that rank above it. -/
theorem fails_of_mem_dropped {tx : Transaction}
    (h : tx ∈ (e.selection context block.timestamp view).dropped) :
    context.recentTxs.contains tx.id = true ∨ Selection.FailsBehind e.genesis block.timestamp
      (Overlay.on view) (block.txs.filter (Ranking.below tx ·)) tx := by
  rw [hd.txs]
  exact Selection.fails_of_mem_dropped _ _ _ _ _ hdescending h

end Descending

theorem length_txs_le : block.txs.length ≤ e.genesis.targetBlockSize.toNat := by
  rw [hd.txs]
  exact Selection.length_taken_le _ _ _ _ _ _

/-- `build` leaves what was neither pruned nor taken out, and lists it below the block. -/
theorem exists_remaining (hbuild : (e.build clock).1 = .ok block) {pending : Ranking Transaction}
    (hbefore : e.mempool.Shows pending) : ∃ left, (e.build clock).2.mempool.Shows left ∧
      pending.items.Perm
        (pending.items.filter (fun tx => !context.recentBlocks.contains tx.blockId) ++
          block.txs ++ (e.selection context block.timestamp view).dropped ++ left.items) ∧
      ∀ tx ∈ left.items, (∀ included ∈ block.txs, Ranking.below tx included = true) ∧
        (tx.difficulty < block.difficulty ∨
          block.txs.length = e.genesis.targetBlockSize.toNat) := by
  obtain ⟨rest, hparts, hrest⟩ := hd.exists_left (hbefore.descending_offered context)
  have hwindow : (pending.items.filter fun tx => context.recentBlocks.contains tx.blockId).Perm
      (block.txs ++ (e.selection context block.timestamp view).dropped ++ rest) := by
    rw [hbefore.offered_eq context] at hparts
    exact (List.reverse_perm _).symm.trans hparts
  -- pruning and taking out what was looked at leaves the rest in the pool
  obtain ⟨remaining, hafter, hremaining⟩ :=
    (hbefore.prune context.recentBlocks.contains).2.removeAll_of_perm
      (hwindow.trans (List.perm_append_comm.append_right rest))
  refine ⟨{ pending with items := remaining }, ?_, ?_,
    fun tx htx => hrest tx (hremaining.mem_iff.1 htx)⟩
  · rw [mempool_build hbuild, hd.mempool_draft (drafted_of_build hbuild)]
    exact hafter
  · -- the pool is what pruning takes away and the window; the window is what is in the three other
    -- parts
    have hpruned :=
      List.filter_append_perm (fun tx => context.recentBlocks.contains tx.blockId) pending.items
    have hkept := hwindow.trans (hremaining.symm.append_left _)
    have hsplit := hpruned.symm.trans (List.perm_append_comm.trans (hkept.append_left _))
    simpa only [List.append_assoc] using hsplit

end DraftedOn

/--
What became of the pending transactions when a block was built. The pool is listed before the build
and after it, in ascending order.
-/
structure Disposal (e : Engine) (clock : UInt64) (block : Block) (context : BlockContext)
    (view : View) (pending left : Ranking Transaction) (stale dropped : List Transaction) :
    Prop where
  before : e.mempool.Shows pending
  after : (e.build clock).2.mempool.Shows left
  /-- There are four parts, -/
  parts : pending.items.Perm (stale ++ block.txs ++ dropped ++ left.items)
  /-- which have no transaction in common. -/
  apart : ((stale ++ block.txs ++ dropped ++ left.items).map (·.id)).Nodup
  /-- Pruned are those that refer to a block outside the window. -/
  stale_iff : ∀ tx ∈ pending.items, tx ∈ stale ↔ ¬context.recentBlocks.contains tx.blockId = true
  /-- The block has its transactions in descending order, no more of them than it should. -/
  descending : block.txs.Pairwise fun a b => Ranking.below b a = true
  length_le : block.txs.length ≤ e.genesis.targetBlockSize.toNat
  /-- Dropped are those that the window holds, or that fail after those in the block above them. -/
  dropped_fails : ∀ tx ∈ dropped, context.recentTxs.contains tx.id = true ∨
    Selection.FailsBehind e.genesis block.timestamp (Overlay.on view)
      (block.txs.filter (Ranking.below tx ·)) tx
  /-- Those still pending rank below the block, and prove too little work where it is not full. -/
  left_below : ∀ tx ∈ left.items, ∀ included ∈ block.txs, Ranking.below tx included = true
  left_weak : ∀ tx ∈ left.items, tx.difficulty < block.difficulty ∨
    block.txs.length = e.genesis.targetBlockSize.toNat

end Engine

variable {g : Genesis} {h : History} {e : Engine} {clock : UInt64} {block : Block}

/--
A `build` that gives a block makes a `Disposal` of all that was pending: each transaction was
pruned, is in the block, was dropped or is still pending.
-/
theorem Reach.exists_disposal (hreach : Reach g h e) (hbuild : (e.build clock).1 = .ok block) :
    ∃ parent context view pending left stale dropped,
      e.DraftedOn clock block parent context view ∧
      e.Disposal clock block context view pending left stale dropped := by
  obtain ⟨parent, context, view, hd⟩ := Engine.exists_draftedOn (Engine.drafted_of_build hbuild)
  -- the records of the pool agree, and so it can be listed in ascending order
  obtain ⟨pending, hbefore⟩ := hreach.pooled.consistent.exists_shows
  have hdescending := hbefore.descending_offered context
  obtain ⟨left, hafter, hparts, hleft⟩ := hd.exists_remaining hbuild hbefore
  refine ⟨parent, context, view, _, left, _, _, hd, {
    before := hbefore
    after := hafter
    parts := hparts
    apart := (hparts.map _).nodup_iff.1 hbefore.distinct
    stale_iff := fun tx htx => ?_
    descending := hd.descending hdescending
    length_le := hd.length_txs_le
    dropped_fails := fun tx => hd.fails_of_mem_dropped hdescending
    left_below := fun tx htx => (hleft tx htx).1
    left_weak := fun tx htx => (hleft tx htx).2 }⟩
  rw [List.mem_filter, and_iff_right htx, Bool.not_eq_true', Bool.not_eq_true]

/-- `claim` is all that was pending, and all of the block. -/
theorem Siblings.disposal_left :
    let pending := (start.submit 50 claim).2
    ∃ context view before after stale dropped,
      pending.Disposal 50 left context view before after stale dropped ∧
      claim ∈ before.items ∧ claim ∉ after.items := by
  have hreach : Reach genesis (.start first) (start.submit 50 claim).2 :=
    reach_start.submit 50 claim
  obtain ⟨_, context, view, before, after, stale, dropped, -, hd⟩ :=
    hreach.exists_disposal builds_left
  have hapart := hd.apart
  have hincluded : claim ∈ left.txs := List.mem_cons_self
  refine ⟨context, view, before, after, stale, dropped, hd, ?_, fun hafter => ?_⟩
  · rw [hd.parts.mem_iff]
    simp [hincluded]
  · rw [List.map_append, List.nodup_append] at hapart
    refine hapart.2.2 claim.id (List.mem_map_of_mem ?_) claim.id (List.mem_map_of_mem hafter) rfl
    simp [hincluded]

end LeaseChain
