import LeaseChain.Proofs.Engine.Drafting

/-!
# What a failed build leaves pending

Building takes transactions out of the pool as it goes: those that refer to a block outside the
window, those that do not execute after the ones selected ahead of them, and those of a block that
it puts together. A transaction that could be submitted on the preferred block at that time is none
of the first. So where building fails before a block is put together, the one way for it to go is to
be in conflict with others that are pending too, and that rank above it.

## Key results

- `Selection.of_mem_dropped`: why a transaction is dropped
- `Engine.build_eq_draft_of_error`: a build that fails leaves what was drafted
- `Reach.failed_build_keeps`: what stays pending when building fails
- `Rivals.claim_lost`: what building can lose
-/

namespace LeaseChain

namespace Selection

/-- Executes transactions one after the other at a time, and stages their changes. -/
def stage (g : Genesis) (now : UInt64) :
    List Transaction → Overlay → Except ExecutionError Overlay
  | [], overlay => .ok overlay
  | tx :: txs, overlay => do
    let changes ← tx.unsigned.execute ⟨g, now, tx.id⟩ overlay.view
    stage g now txs (overlay.merge changes)

/-- Others can be executed one after the other, and the transaction cannot after them. -/
def FailsBehind (g : Genesis) (now : UInt64) (overlay : Overlay) (ahead : List Transaction)
    (tx : Transaction) : Prop :=
  ∃ after cause, stage g now ahead overlay = .ok after ∧
    tx.unsigned.execute ⟨g, now, tx.id⟩ after.view = .error cause

variable (g : Genesis) (context : BlockContext) (now : UInt64) (room : Nat) (overlay : Overlay)
  (txs : List Transaction)

/-- What is `dropped` was offered, in the same order. -/
theorem dropped_sublist : (select g context now room overlay txs).dropped.Sublist txs := by
  -- by the recursion of `select`: what is dropped is met at the front of what is offered
  fun_induction select g context now room overlay txs with
  | case1 | case2 | case3 => exact List.nil_sublist _
  | case4 _ _ tx _ _ _ _ ih => exact ih.cons_cons tx
  | case5 _ _ tx _ _ _ _ _ _ ih => exact ih.cons tx
  | case6 _ _ tx _ _ _ _ _ _ ih => exact ih.cons_cons tx

/--
A transaction is `dropped` because the window holds it, or because it `FailsBehind` those that were
taken ahead of it.
-/
theorem of_mem_dropped {tx : Transaction}
    (h : tx ∈ (select g context now room overlay txs).dropped) :
    context.recentTxs.contains tx.id = true ∨
    ∃ ahead behind, (select g context now room overlay txs).taken = ahead ++ behind ∧
      (ahead ++ tx :: behind).Sublist txs ∧ FailsBehind g now overlay ahead tx := by
  -- a transaction is dropped at its turn, or among those that come after it
  fun_induction select g context now room overlay txs with
  | case1 | case2 | case3 => cases h
  | case4 room overlay offered txs _ hwindow rest ih =>
    rcases List.mem_cons.1 h with rfl | h
    · exact .inl hwindow
    · rcases ih h with hrecent | ⟨ahead, behind, htaken, hsub, hfails⟩
      · exact .inl hrecent
      · exact .inr ⟨ahead, behind, htaken, hsub.cons offered, hfails⟩
  -- an offered transaction that executes is taken, and stands ahead of whatever is dropped later
  | case5 room overlay offered txs _ _ changes hchanges rest ih =>
    rcases ih h with hrecent | ⟨ahead, behind, htaken, hsub, after, cause, hafter, hfails⟩
    · exact .inl hrecent
    · refine .inr ⟨offered :: ahead, behind, congrArg (offered :: ·) htaken,
        hsub.cons_cons offered, after, cause, ?_, hfails⟩
      rw [stage, hchanges]
      exact hafter
  -- one that does not execute is dropped behind nothing but what was taken already
  | case6 room overlay offered txs _ _ cause hcause rest ih =>
    rcases List.mem_cons.1 h with rfl | h
    · exact .inr ⟨[], rest.taken, rfl, (taken_sublist g context now _ overlay txs).cons_cons tx,
        overlay, cause, rfl, hcause⟩
    · rcases ih h with hrecent | ⟨ahead, behind, htaken, hsub, hfails⟩
      · exact .inl hrecent
      · exact .inr ⟨ahead, behind, htaken, hsub.cons offered, hfails⟩

end Selection

namespace Engine

variable {e : Engine} {clock : UInt64}

/-- The transaction would pass the checks of submission if it were not pending yet. -/
def WouldAdmit (e : Engine) (clock : UInt64) (tx : Transaction) : Prop :=
  checkAdmission { e with mempool := (e.mempool.remove tx.id).2 } clock tx = .ok ()

/-- What the checks of `WouldAdmit` find on the preferred block. -/
theorem WouldAdmit.exists_window {tx : Transaction} (h : e.WouldAdmit clock tx) :
    ∃ parent context view, e.preferredBlock = .ok parent ∧
      e.contextAfter parent (childTime clock parent) = .ok context ∧
      e.viewFrom parent.id = .ok view ∧ context.recentBlocks.contains tx.blockId = true ∧
      ¬context.recentTxs.contains tx.id = true ∧
      ∃ changes,
        tx.unsigned.execute ⟨e.genesis, childTime clock parent, tx.id⟩ view = .ok changes := by
  obtain ⟨-, -, -, parent, hparent, context, hcontext, hblock, hfresh, -, view, hview, -,
    hexecute⟩ := checkAdmission_eq_ok_iff.1 h
  exact ⟨parent, context, view, hparent, hcontext, hview, hblock, hfresh, hexecute⟩

/-- What is pending once the pool was pruned to a window, the best first. -/
def offered (e : Engine) (context : BlockContext) : List Transaction :=
  let pool := (e.mempool.prune context.recentBlocks.contains).2
  pool.top pool.size

/--
A transaction that is not in the window, and that executes on the state a block is built on, is
`dropped` only for others that are taken ahead of it.
-/
theorem exists_ahead_of_dropped {context : BlockContext} {now : UInt64} {view : View}
    {tx : Transaction} {changes : Changes} (hfresh : ¬context.recentTxs.contains tx.id = true)
    (hexecute : tx.unsigned.execute ⟨e.genesis, now, tx.id⟩ view = .ok changes)
    (hdropped : tx ∈ (e.selection context now view).dropped) :
    ∃ ahead, ahead ≠ [] ∧ ahead <+: (e.selection context now view).taken ∧
      (ahead ++ [tx]).Sublist (e.offered context) ∧
      Selection.FailsBehind e.genesis now (Overlay.on view) ahead tx := by
  rcases Selection.of_mem_dropped _ _ _ _ _ _ hdropped with
    hrecent | ⟨ahead, behind, htaken, hsub, hfails⟩
  · exact (hfresh hrecent).elim
  · rw [List.append_cons] at hsub
    refine ⟨ahead, ?_, ⟨behind, htaken.symm⟩, (List.sublist_append_left _ _).trans hsub, hfails⟩
    -- with nothing ahead, it would fail on the state that it executes on
    rintro rfl
    obtain ⟨after, cause, hafter, hcause⟩ := hfails
    obtain rfl := Except.ok.inj hafter
    rw [Unsigned.execute_congr (Overlay.agreeOn_on _ view), hexecute] at hcause
    cases hcause

/-- A `build` that fails leaves the state that it drafted the block in. -/
theorem build_eq_draft_of_error {cause : EngineError} (h : (e.build clock).1 = .error cause) :
    (e.build clock).2 = (e.draft clock).2 := by
  rw [build_eq_finishBlock] at h ⊢
  generalize e.draft clock = result at h ⊢
  -- by the steps of building: no content, no frame, or a verification that fails
  obtain ⟨_ | content, e'⟩ := result
  · rfl
  · simp only [finishBlock] at h ⊢
    split
    · rfl
    · next block hblock =>
      simp only [hblock] at h
      rcases Transition.verify_cases e' clock block with ⟨c, hv⟩ | ⟨-, hv⟩ | ⟨_, _, -, -, hv⟩
      · rw [hv]
      · rw [hv] at h
        cases h
      · rw [hv] at h
        cases h

/-- Where `draft` fails, `build` fails with the error of that. -/
theorem fst_build_of_error {cause : EngineError} (h : (e.draft clock).1 = .error cause) :
    (e.build clock).1 = .error cause := by
  rw [build_eq_finishBlock]
  generalize e.draft clock = result at h ⊢
  obtain ⟨drafted, e'⟩ := result
  obtain rfl : drafted = .error cause := h
  rfl

theorem draft_of_error {cause : EngineError} (hplan : e.buildPlan clock = .error cause) :
    e.draft clock = (.error cause, e) := by
  simp only [draft, hplan]

/-- `assemble` puts some transactions together unless their surplus is too low. -/
theorem assemble_eq_error {parent : Block} {context : BlockContext} {now : UInt64}
    {txs : List Transaction} {cause : EngineError} (hne : txs ≠ [])
    (h : assemble parent context now txs = .error cause) :
    cause = .insufficientSurplus context.requiredSurplus
      (Block.surplus context.nextDifficulty txs) := by
  unfold assemble at h
  rw [if_neg (mt List.isEmpty_iff.1 hne)] at h
  simp only [] at h
  split at h
  · exact (Except.error.inj h).symm
  · cases h

section Draft

variable {parent : Block} {now : UInt64} {context : BlockContext} {view : View}
  (hplan : e.buildPlan clock = .ok (parent, now, context)) (hview : e.viewFrom parent.id = .ok view)

include hplan hview

/-- With a plan and a view, `draft` is `assemble` of what was selected, on the cleaned pool. -/
theorem draft_of_plan : e.draft clock =
    let cleaned := discardTxs { e with mempool :=
      (e.mempool.prune context.recentBlocks.contains).2 } (e.selection context now view).dropped
    match assemble parent context now (e.selection context now view).taken with
    | .error cause => (.error cause, cleaned)
    | .ok content => (.ok content, cleaned.discardTxs (e.selection context now view).taken) := by
  have hpruned : e.SameChain { e with mempool :=
      (e.mempool.prune context.recentBlocks.contains).2 } := ⟨rfl, rfl, rfl, rfl, rfl, rfl⟩
  have hview' := hview
  rw [← hpruned.viewFrom_eq] at hview'
  simp only [draft, hplan, hview']
  rfl

/-- With a plan and a view what is drafted is what `assemble` makes of the taken transactions. -/
theorem fst_draft_of_plan :
    (e.draft clock).1 = assemble parent context now (e.selection context now view).taken := by
  rw [draft_of_plan hplan hview]
  simp only []
  cases assemble parent context now (e.selection context now view).taken <;> rfl

/-- What refers to the window stays pending where it is neither `dropped` nor put into a block. -/
theorem get?_draft_of_plan {tx : Transaction} (hpending : e.mempool.get? tx.id = some tx)
    (hwindow : context.recentBlocks.contains tx.blockId = true)
    (hdropped : tx.id ∉ (e.selection context now view).dropped.map (·.id))
    (huntaken : ∀ content, (e.draft clock).1 = .ok content → tx.id ∉ content.txs.map (·.id)) :
    (e.draft clock).2.mempool.get? tx.id = some tx := by
  -- the pruning and the dropping both spare `tx`; what is left is the removal of what was taken
  have hcleaned : ((e.mempool.prune context.recentBlocks.contains).2.removeAll
      ((e.selection context now view).dropped.map (·.id))).get? tx.id = some tx := by
    rw [Mempool.get?_removeAll, if_neg hdropped, Mempool.get?_prune, hpending]
    exact Option.filter_some_pos hwindow
  rw [fst_draft_of_plan hplan hview] at huntaken
  rw [draft_of_plan hplan hview]
  simp only []
  cases hassemble : assemble parent context now (e.selection context now view).taken with
  | error cause => exact hcleaned
  | ok content =>
    obtain ⟨-, -, hcontent⟩ := assemble_eq_ok hassemble
    have hnot := huntaken content hassemble
    rw [hcontent] at hnot
    simp only [discardTxs]
    rw [Mempool.get?_removeAll, if_neg hnot]
    exact hcleaned

/-- What is taken and not put together did not prove enough work. -/
theorem error_of_taken {cause : EngineError} (hfail : (e.build clock).1 = .error cause)
    (htaken : (e.selection context now view).taken ≠ [])
    (hnone : ∀ content, (e.draft clock).1 ≠ .ok content) :
    ∃ required found, cause = .insufficientSurplus required found := by
  have hdraft := fst_draft_of_plan hplan hview
  -- either the taken transactions are put together, or their surplus is too low
  cases hassemble : assemble parent context now (e.selection context now view).taken with
  | ok content => exact (hnone content (hdraft.trans hassemble)).elim
  | error failure =>
    have hbuild := fst_build_of_error (hdraft.trans hassemble)
    obtain rfl := Except.error.inj (hfail.symm.trans hbuild)
    exact ⟨_, _, assemble_eq_error htaken hassemble⟩

end Draft

end Engine

variable {g : Genesis} {h : History} {e : Engine} {clock : UInt64}

/-- What is `offered` is pending. -/
theorem Reach.get?_of_mem_offered (hreach : Reach g h e) {context : BlockContext}
    {tx : Transaction} (hmem : tx ∈ e.offered context) : e.mempool.get? tx.id = some tx := by
  have hget := (hreach.pooled.consistent.prune context.recentBlocks.contains).mem_top hmem
  rw [Mempool.get?_prune, Option.filter_eq_some_iff] at hget
  exact hget.1

theorem Reach.mem_of_id_mem (hreach : Reach g h e) {context : BlockContext} {tx : Transaction}
    {txs : List Transaction} (hpending : e.mempool.get? tx.id = some tx)
    (hsub : txs.Sublist (e.offered context)) (hid : tx.id ∈ txs.map (·.id)) : tx ∈ txs := by
  obtain ⟨other, hother, heq⟩ := List.mem_map.1 hid
  have hget := hreach.get?_of_mem_offered (hsub.subset hother)
  rw [heq, hpending] at hget
  exact Option.some.inj hget ▸ hother

/--
Where `build` fails, a pending transaction that `WouldAdmit` lets pass is still pending, unless the
draft took it. The exception is one that `FailsBehind` others, `ahead`, which were selected and are
offered in front of it; where nothing was drafted at all, the build failed for its surplus.
-/
theorem Reach.failed_build_keeps (hreach : Reach g h e) {cause : EngineError}
    (hfail : (e.build clock).1 = .error cause) {tx : Transaction}
    (hpending : e.mempool.get? tx.id = some tx) (hpasses : e.WouldAdmit clock tx)
    (huntaken : ∀ content, (e.draft clock).1 = .ok content → tx ∉ content.txs) :
    (e.build clock).2.mempool.get? tx.id = some tx ∨
    ∃ parent now context view, e.buildPlan clock = .ok (parent, now, context) ∧
      e.viewFrom parent.id = .ok view ∧
      (∃ ahead, ahead ≠ [] ∧ ahead <+: (e.selection context now view).taken ∧
        (ahead ++ [tx]).Sublist (e.offered context) ∧
        Selection.FailsBehind e.genesis now (Overlay.on view) ahead tx) ∧
      ((∀ content, (e.draft clock).1 ≠ .ok content) →
        ∃ required found, cause = .insufficientSurplus required found) := by
  rw [Engine.build_eq_draft_of_error hfail]
  obtain ⟨parent, context, view, hparent, hcontext, hview, hwindow, hfresh, changes, hexecute⟩ :=
    hpasses.exists_window
  cases hplan : e.buildPlan clock with
  | error cause =>
    -- building ends before it looks at the pool
    left
    rw [Engine.draft_of_error hplan]
    exact hpending
  | ok plan =>
    -- the plan is made on the block, at the time and in the window that submitting looks at
    obtain ⟨parent', now, context'⟩ := plan
    obtain ⟨hparent', rfl, -, hcontext'⟩ := Engine.buildPlan_eq_ok_iff.1 hplan
    obtain rfl := Except.ok.inj (hparent.symm.trans hparent')
    obtain rfl := Except.ok.inj (hcontext.symm.trans hcontext')
    by_cases hid : tx.id ∈
        (e.selection context (Engine.childTime clock parent) view).dropped.map (·.id)
    · -- the identifier was dropped, and it is the transaction's own, as a pool has it once
      right
      have hmem := hreach.mem_of_id_mem hpending (Selection.dropped_sublist _ _ _ _ _ _) hid
      obtain ⟨ahead, hne, hahead, hsub, hfails⟩ :=
        Engine.exists_ahead_of_dropped hfresh hexecute hmem
      have htaken : (e.selection context (Engine.childTime clock parent) view).taken ≠ [] :=
        fun hnil => hne (List.prefix_nil.1 (hnil ▸ hahead))
      exact ⟨parent, _, context, view, rfl, hview, ⟨ahead, hne, hahead, hsub, hfails⟩,
        Engine.error_of_taken hplan hview hfail htaken⟩
    · -- neither dropped nor put together, the transaction is where it was
      left
      refine Engine.get?_draft_of_plan hplan hview hpending hwindow hid fun content hcontent hin =>
        huntaken content hcontent ?_
      rw [Engine.fst_draft_of_plan hplan hview] at hcontent
      obtain ⟨-, -, rfl⟩ := Engine.assemble_eq_ok hcontent
      exact hreach.mem_of_id_mem hpending (e.taken_sublist_selection _ _ _) hin

/-! ## A conflict

Two transactions that claim one namespace, each of which could be submitted, and neither of which
proves more work than it has to.
-/

namespace Rivals

open Siblings (hash frame claim key)

def genesis : Genesis := { minPrice := 0, minBlockCost := 1 }

def first : Block where
  content := ⟨Hash.zero, 0, 0, 1, 1, []⟩
  bytes := frame ⟨Hash.zero, 0, 0, 1, 1, []⟩
  id := hash 0xce93003fe015df773c4c54c398bebcc2419bf8b26b4862d9a4c6d3bd0e0bbac1
  id_eq := by decide +kernel

/-- The claim of the greater identifier. -/
def upper : Transaction where
  unsigned := ⟨⟨key, first.id, 0, 3⟩, .claim "foo"⟩
  signature := claim.signature
  digest := hash 0x64d663323a78c3e19953e68ae7019897a1f7f7c16653746de710cccf5e4b46a3
  id := hash 0xb7e2f4f5296b01b9542ee5f4a1be9f8f25382a62f74525dfbe751f9878dc5aaf
  digest_eq := by decide +kernel
  id_eq := by decide +kernel

def lower : Transaction where
  unsigned := ⟨⟨key, first.id, 0, 0⟩, .claim "foo"⟩
  signature := claim.signature
  digest := hash 0x54c918360a8c85bec455a83fe980f7dbe827f04af64eb59367feefa0636c8e2b
  id := hash 0xb587ce9e88dc79e4ad6c0970194dc060ab34dcc5dbd377793f12da9ede8004bd
  digest_eq := by decide +kernel
  id_eq := by decide +kernel

theorem isFramed_first : first.IsFramed Engine.framing := Block.isFramed_iff.2 (by decide +kernel)

/-- The engine on the first block. -/
def start : Engine := Engine.atGenesis genesis [] first

theorem reach_start : Reach genesis (.start first) start := by
  have hfirst : Block.first Engine.framing genesis = .ok first :=
    Block.ofContent_eq_ok_iff.2 ⟨rfl, isFramed_first⟩
  exact Reach.atGenesis rfl hfirst rfl

/-- Both claims are submitted. -/
def pending : History × Engine :=
  History.follow [(1, .submit lower), (1, .submit upper)] (.start first, start)

theorem reach_pending : Reach genesis pending.1 pending.2 := by
  refine reach_start.follow fun request hrequest => ?_
  simp only [List.mem_cons, List.not_mem_nil, or_false] at hrequest
  rcases hrequest with rfl | rfl <;> trivial

/-- `lower` is pending, and `WouldAdmit` lets it pass. -/
theorem lower_pending :
    pending.2.mempool.get? lower.id = some lower ∧ pending.2.WouldAdmit 1 lower := by
  unfold Engine.WouldAdmit
  decide +kernel

/-- Nothing is drafted on `pending`, and `lower` is gone. -/
theorem build_pending :
    (pending.2.draft 1).1.toOption = none ∧
    (pending.2.build 1).1 = .error (.insufficientSurplus 1 0) ∧
    (pending.2.build 1).2.mempool.get? lower.id = none := by
  decide +kernel

/-- `lower` is lost for others that were selected ahead of it. -/
theorem lower_conflicts :
    ∃ parent now context view, pending.2.buildPlan 1 = .ok (parent, now, context) ∧
      pending.2.viewFrom parent.id = .ok view ∧
      ∃ ahead, ahead ≠ [] ∧ ahead <+: (pending.2.selection context now view).taken ∧
        (ahead ++ [lower]).Sublist (pending.2.offered context) ∧
        Selection.FailsBehind pending.2.genesis now (Overlay.on view) ahead lower := by
  obtain ⟨hdraft, hfail, hgone⟩ := build_pending
  obtain ⟨hpending, hpasses⟩ := lower_pending
  have huntaken : ∀ content, (pending.2.draft 1).1 = .ok content → lower ∉ content.txs := by
    intro content hcontent
    rw [hcontent] at hdraft
    cases hdraft
  have hkept := reach_pending.failed_build_keeps hfail hpending hpasses huntaken
  rw [hgone] at hkept
  obtain ⟨parent, now, context, view, hplan, hview, hconflict, -⟩ := hkept.resolve_left nofun
  exact ⟨parent, now, context, view, hplan, hview, hconflict⟩

end Rivals

/-! ## A block that is built once more

A block is rejected, and its transaction is submitted again. At the same time the same block comes
of it, which verification refuses.
-/

namespace Siblings

def rejected : History × Engine :=
  History.follow [(100, .verify left), (100, .reject left.id), (50, .submit claim)]
    (.start first, start)

theorem reach_rejected : Reach genesis rejected.1 rejected.2 := by
  refine reach_start.follow fun request hrequest => ?_
  simp only [List.mem_cons, List.not_mem_nil, or_false] at hrequest
  rcases hrequest with rfl | rfl | rfl
  · exact isFramed_left
  · trivial
  · trivial

/-- `claim` is pending again, and `WouldAdmit` lets it pass. -/
theorem claim_pending :
    rejected.2.mempool.get? claim.id = some claim ∧ rejected.2.WouldAdmit 50 claim := by
  unfold Engine.WouldAdmit
  decide +kernel

/-- `left` is put together once more and refused, and its `claim` is gone. -/
theorem build_rejected :
    (rejected.2.build 50).1 = .error (.selfCheck (.alreadyDecided left.id .rejected)) ∧
    (rejected.2.build 50).2.mempool.get? claim.id = none := by
  decide +kernel

end Siblings

/--
What `build` loses: `lower`, the lower of two claims, and the claim of a block rejected before.
-/
theorem Rivals.claim_lost :
    (Reach genesis pending.1 pending.2 ∧
      (pending.2.build 1).1 = .error (.insufficientSurplus 1 0) ∧
      pending.2.mempool.get? lower.id = some lower ∧ pending.2.WouldAdmit 1 lower ∧
      (pending.2.build 1).2.mempool.get? lower.id = none) ∧
    (Reach Siblings.genesis Siblings.rejected.1 Siblings.rejected.2 ∧
      (Siblings.rejected.2.build 50).1 =
        .error (.selfCheck (.alreadyDecided Siblings.left.id .rejected)) ∧
      Siblings.rejected.2.mempool.get? Siblings.claim.id = some Siblings.claim ∧
      Siblings.rejected.2.WouldAdmit 50 Siblings.claim ∧
      (Siblings.rejected.2.build 50).2.mempool.get? Siblings.claim.id = none) := by
  obtain ⟨-, hfail, hgone⟩ := build_pending
  obtain ⟨hpending, hpasses⟩ := lower_pending
  obtain ⟨hfail', hgone'⟩ := Siblings.build_rejected
  obtain ⟨hpending', hpasses'⟩ := Siblings.claim_pending
  exact ⟨⟨reach_pending, hfail, hpending, hpasses, hgone⟩,
    ⟨Siblings.reach_rejected, hfail', hpending', hpasses', hgone'⟩⟩

end LeaseChain
