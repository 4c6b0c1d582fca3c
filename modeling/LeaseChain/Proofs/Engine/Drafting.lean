import LeaseChain.Proofs.Block.Effect
import LeaseChain.Proofs.Engine.Failures
import LeaseChain.Proofs.Engine.Pool
import LeaseChain.Proofs.Engine.Verification

/-!
# What building puts together

Before a block is framed and verified, building plans it on the preferred block, prunes the pool,
selects transactions and assembles them. The selection executes the transactions on an overlay
without the index entries that verification stages; as execution reads the ledger only, what it
takes can be executed all the same when the entries are there.

## Key results

- `Selection.exists_effectTxs`: what is taken can be executed, one after the other
- `Engine.exists_draftedOn`: what a block that is framed is made of
- `Engine.build_eq_of_drafted`: what building does with it
-/

namespace LeaseChain

open StoreKey (IsLedger)

namespace Selection

variable (g : Genesis) (context : BlockContext) (now : UInt64) (room : Nat) (overlay : Overlay)
  (txs : List Transaction)

/-- What is `taken` comes in the order that it was offered in. -/
theorem taken_sublist : (select g context now room overlay txs).taken.Sublist txs := by
  -- an offered transaction is dropped for the window, taken, or dropped for what it does
  fun_induction select g context now room overlay txs with
  | case1 | case2 | case3 => exact List.nil_sublist _
  | case4 _ _ tx _ _ _ _ ih => exact ih.cons tx
  | case5 _ _ tx _ _ _ _ _ _ ih => exact ih.cons_cons tx
  | case6 _ _ tx _ _ _ _ _ _ ih => exact ih.cons tx

/-- What is `taken` proves enough work and is not in the window. -/
theorem of_mem_taken {tx : Transaction} (h : tx ∈ (select g context now room overlay txs).taken) :
    ¬tx.difficulty < context.nextDifficulty ∧ ¬context.recentTxs.contains tx.id = true := by
  fun_induction select g context now room overlay txs with
  | case1 | case2 | case3 => cases h
  | case4 _ _ _ _ _ _ _ ih => exact ih h
  -- the transaction that is taken has passed both checks
  | case5 _ _ _ _ hwork hfresh _ _ _ ih =>
    rcases List.mem_cons.1 h with rfl | h
    · exact ⟨hwork, hfresh⟩
    · exact ih h
  | case6 _ _ _ _ _ _ _ _ _ ih => exact ih h

/-- What is `taken` has an effect as part of a block, on every overlay that agrees on the ledger. -/
theorem exists_effectTxs {block : Block} (htime : block.timestamp = now) {overlay' : Overlay}
    (hagree : View.AgreeOn IsLedger overlay.view overlay'.view) :
    ∃ after, block.effectTxs g (select g context now room overlay txs).taken overlay' =
      .ok after := by
  fun_induction select g context now room overlay txs generalizing overlay'
  case case1 | case2 | case3 => exact ⟨overlay', rfl⟩
  case case4 ih => exact ih hagree
  case case5 overlay tx txs _ _ changes hchanges _ ih =>
    rw [Unsigned.execute_congr hagree] at hchanges
    -- the index entry is all that the two overlays do not have in common from here on
    have hledger : ∀ key, IsLedger key →
        changes[key]? = (changes.putTransaction tx.id block.id)[key]? := by
      intro key hkey
      have hne := StoreKey.ne_of_isLedger hkey (StoreKey.not_isLedger_transaction tx.id)
      rw [Changes.putTransaction, Changes.getElem?_put, if_neg hne.symm]
    obtain ⟨after, hafter⟩ := ih (Overlay.agreeOn_merge hagree hledger)
    refine ⟨after, ?_⟩
    rw [Block.effectTxs, htime, hchanges]
    exact hafter
  case case6 ih => exact ih hagree

end Selection

namespace Engine

variable {e : Engine} {clock : UInt64}

/-- To `find` a block is to have the look-up `find?` give one. -/
theorem find_eq_ok_iff {id : Hash} {block : Block} :
    e.find id = .ok block ↔ e.find? id = .ok (some block) := by
  rw [find, Except.bind_eq_ok_iff]
  constructor
  · rintro ⟨found, hfound, h⟩
    cases found with
    | none => cases h
    | some b => exact Except.ok.inj h ▸ hfound
  · exact fun h => ⟨some block, h, rfl⟩

/--
`buildPlan` gives the preferred parent, the `childTime`, which is not too late, and the context.
-/
theorem buildPlan_eq_ok_iff {parent : Block} {now : UInt64} {context : BlockContext} :
    e.buildPlan clock = .ok (parent, now, context) ↔
      e.preferredBlock = .ok parent ∧ childTime clock parent = now ∧
      ¬satAdd clock futureBound ≤ now ∧ e.contextAfter parent now = .ok context := by
  unfold buildPlan
  simp only [↓Except.guard_eq_ok_iff, Except.bind_eq_ok_iff]
  constructor
  · rintro ⟨p, hp, hlate, c, hc, h⟩
    obtain ⟨rfl, hrest⟩ := Prod.mk.inj (Except.ok.inj h)
    obtain ⟨rfl, rfl⟩ := Prod.mk.inj hrest
    exact ⟨hp, rfl, hlate, hc⟩
  · rintro ⟨hp, rfl, hlate, hc⟩
    exact ⟨parent, hp, hlate, context, hc, rfl⟩

/-- What building takes for a block on a parent. -/
def selection (e : Engine) (context : BlockContext) (now : UInt64) (view : View) : Selection :=
  let pool := (e.mempool.prune context.recentBlocks.contains).2
  Selection.select e.genesis context now e.genesis.targetBlockSize.toNat (Overlay.on view)
    (pool.top pool.size)

/-- What the `selection` takes comes in the pool's order, once the pool is pruned. -/
theorem taken_sublist_selection (e : Engine) (context : BlockContext) (now : UInt64)
    (view : View) : (e.selection context now view).taken.Sublist
      ((e.mempool.prune context.recentBlocks.contains).2.top
        (e.mempool.prune context.recentBlocks.contains).2.size) :=
  Selection.taken_sublist _ _ _ _ _ _

/-- The `selection` has an effect on an overlay that is opened on the view. -/
theorem exists_effectTxs_selection (e : Engine) (context : BlockContext) (view : View)
    {block : Block} {now : UInt64} (htime : block.timestamp = now) :
    ∃ after, block.effectTxs e.genesis (e.selection context now view).taken (Overlay.on view) =
      .ok after :=
  Selection.exists_effectTxs _ _ _ _ _ _ htime (.refl _ _)

/--
`assemble` puts contents together from transactions that there are and that carry the surplus.
-/
theorem assemble_eq_ok {parent : Block} {context : BlockContext} {now : UInt64}
    {txs : List Transaction} {content : BlockContent}
    (h : assemble parent context now txs = .ok content) :
    txs ≠ [] ∧ ¬Block.surplus context.nextDifficulty txs < context.requiredSurplus ∧
    content = ⟨parent.id, now, parent.height + 1, context.nextDifficulty, context.nextCost,
      txs⟩ := by
  unfold assemble at h
  -- without transactions, or without the surplus, there is nothing to put together
  split at h
  · cases h
  · next hempty =>
    simp only [] at h
    split at h
    · cases h
    · next hsurplus =>
      exact ⟨fun hnil => hempty (List.isEmpty_iff.2 hnil), hsurplus, (Except.ok.inj h).symm⟩

/-- What `draft` puts together, and on what. -/
theorem draft_eq_ok {content : BlockContent} (h : (e.draft clock).1 = .ok content) :
    ∃ parent now context view, e.buildPlan clock = .ok (parent, now, context) ∧
      e.viewFrom parent.id = .ok view ∧
      assemble parent context now (e.selection context now view).taken = .ok content := by
  simp only [draft] at h
  split at h
  · cases h
  · next parent now context hplan =>
    -- pruning the pool leaves the view alone
    have hpruned : e.SameChain { e with mempool :=
        (e.mempool.prune context.recentBlocks.contains).2 } := ⟨rfl, rfl, rfl, rfl, rfl, rfl⟩
    rw [hpruned.viewFrom_eq] at h
    split at h
    · cases h
    · next view hview =>
      split at h
      · cases h
      · next content' hassemble =>
        obtain rfl := Except.ok.inj h
        exact ⟨parent, now, context, view, hplan, hview, hassemble⟩

/-- The block that building frames, if it comes to that. -/
def drafted (e : Engine) (clock : UInt64) : Option Block :=
  match (e.draft clock).1 with
  | .error _ => none
  | .ok content =>
    match Block.ofContent framing content with
    | .error _ => none
    | .ok block => some block

/-- A `drafted` block is the frame of the draft's contents. -/
theorem drafted_eq_some {block : Block} (h : e.drafted clock = some block) :
    ∃ content, (e.draft clock).1 = .ok content ∧ Block.ofContent framing content = .ok block := by
  unfold drafted at h
  split at h
  · cases h
  · next content hcontent =>
    split at h
    · cases h
    · next block' hblock =>
      obtain rfl := Option.some.inj h
      exact ⟨content, hcontent, hblock⟩

/-- Contents that have a frame are `drafted` as the block of that frame. -/
theorem drafted_of_draft {block : Block} (hframed : block.IsFramed framing)
    (hdraft : (e.draft clock).1 = .ok block.content) : e.drafted clock = some block := by
  simp only [drafted, hdraft, Block.ofContent_eq_ok_iff.2 ⟨rfl, hframed⟩]

/-- A block that was framed, with the parent, the window and the view that it was built with. -/
structure DraftedOn (e : Engine) (clock : UInt64) (block parent : Block) (context : BlockContext)
    (view : View) : Prop where
  preferred : e.preferredBlock = .ok parent
  window : e.contextAfter parent block.timestamp = .ok context
  shows : e.viewFrom parent.id = .ok view
  framed : block.IsFramed framing
  parentId : block.parentId = parent.id
  height : block.height = parent.height + 1
  timestamp : block.timestamp = childTime clock parent
  early : ¬satAdd clock futureBound ≤ block.timestamp
  difficulty : block.difficulty = context.nextDifficulty
  cost : block.cost = context.nextCost
  txs : block.txs = (e.selection context block.timestamp view).taken
  nonempty : block.txs ≠ []
  surplus : ¬Block.surplus block.difficulty block.txs < context.requiredSurplus

/-- A `drafted` block is `DraftedOn` the preferred one, put together as a block has to be. -/
theorem exists_draftedOn {block : Block} (h : e.drafted clock = some block) :
    ∃ parent context view, e.DraftedOn clock block parent context view := by
  -- each part of the content is what the plan, the view or the selection gave
  obtain ⟨content, hcontent, hblock⟩ := drafted_eq_some h
  obtain ⟨parent, now, context, view, hplan, hview, hassemble⟩ := draft_eq_ok hcontent
  obtain ⟨hpreferred, htime, hearly, hcontext⟩ := buildPlan_eq_ok_iff.1 hplan
  obtain ⟨hne, hsurplus, rfl⟩ := assemble_eq_ok hassemble
  obtain ⟨hparts, hframed⟩ := Block.ofContent_eq_ok_iff.1 hblock
  obtain ⟨parentId, timestamp, height, difficulty, cost, txs⟩ := BlockContent.mk.inj hparts
  subst timestamp
  rw [← txs] at hne hsurplus
  rw [← difficulty] at hsurplus
  exact ⟨parent, context, view, {
    preferred := hpreferred
    window := hcontext
    shows := hview
    framed := hframed
    parentId := parentId
    height := height
    timestamp := htime.symm
    early := hearly
    difficulty := difficulty
    cost := cost
    txs := txs
    nonempty := hne
    surplus := hsurplus }⟩

/-- `build` verifies the `drafted` block in the state without the transactions that it took. -/
theorem build_eq_of_drafted {block : Block} (h : e.drafted clock = some block) :
    e.build clock =
      match (e.draft clock).2.verify clock block with
      | (.error cause, e') => (.error (.selfCheck cause), e')
      | (.ok (), e') => (.ok block, { e' with built := e'.built + 1 }) := by
  obtain ⟨content, hcontent, hblock⟩ := drafted_eq_some h
  rw [build_eq_finishBlock]
  -- the draft is opened once, so that its state is the same on both sides
  generalize e.draft clock = result at hcontent ⊢
  obtain ⟨drafted, e'⟩ := result
  obtain rfl : drafted = .ok content := hcontent
  cases hverify : e'.verify clock block with
  | mk answer e'' => cases answer <;> simp only [finishBlock, hblock, hverify]

/-- The error of `build` is a `selfCheck` only where a block was `drafted`. -/
theorem exists_drafted_of_selfCheck {cause : EngineError}
    (h : (e.build clock).1 = .error (.selfCheck cause)) :
    ∃ block, e.drafted clock = some block := by
  -- before a block is framed nothing is verified, so that nothing can blame a verification
  have hdraft : Except.FailsOnly (fun c => ∀ cause, c ≠ .selfCheck cause) (e.draft clock).1 := by
    refine failsOnly_draft (fun c hplain cause heq => ?_)
      (fun id => (failsOnly_loadBlock _ id).mono fun c hframe cause heq => ?_) clock
    · rw [heq] at hplain
      exact hplain
    · obtain ⟨fault, rfl⟩ := hframe
      cases heq
  rw [build_eq_finishBlock] at h
  unfold drafted
  generalize e.draft clock = result at h hdraft
  obtain ⟨content, e'⟩ := result
  cases content with
  | error c =>
    have hfailed : (Except.error c : Except EngineError Block) = .error (.selfCheck cause) := h
    exact (hdraft c rfl cause (Except.error.inj hfailed)).elim
  | ok content =>
    cases hblock : Block.ofContent framing content with
    | error c =>
      simp only [finishBlock, hblock] at h
      cases h
    | ok block => exact ⟨block, by simp only [hblock]⟩

/-- `build` gives no other block than the `drafted` one. -/
theorem drafted_of_build {block : Block} (h : (e.build clock).1 = .ok block) :
    e.drafted clock = some block := by
  cases hdrafted : e.drafted clock with
  | some framed =>
    rw [build_eq_of_drafted hdrafted] at h
    split at h
    · cases h
    · exact congrArg some (Except.ok.inj h)
  | none =>
    -- without a draft, or a frame for it, building fails
    rw [build_eq_finishBlock] at h
    unfold drafted at hdrafted
    generalize e.draft clock = result at h hdrafted
    obtain ⟨_ | content, e'⟩ := result
    · cases h
    · cases hblock : Block.ofContent framing content with
      | error => simp [finishBlock, hblock] at h
      | ok => simp [hblock] at hdrafted

/-- The block that `build` gives has passed `verify`. -/
theorem build_eq_ok {block : Block} (h : (e.build clock).1 = .ok block) :
    ∃ e', (e.draft clock).2.verify clock block = (.ok (), e') ∧
      (e.build clock).2 = { e' with built := e'.built + 1 } := by
  have hdrafted := drafted_of_build h
  rw [build_eq_of_drafted hdrafted] at h ⊢
  cases hverify : (e.draft clock).2.verify clock block with
  | mk answer e' =>
    rw [hverify] at h
    cases answer with
    | error => cases h
    | ok => exact ⟨e', rfl, rfl⟩

end Engine

end LeaseChain
