import LeaseChain.Proofs.Engine.Building
import LeaseChain.Proofs.Engine.Retention

/-!
# Blocks that are built once more

A block that consensus rejects is forgotten, and its transactions may become pending again. What
tells a new block from it is its parent, its time in whole seconds and its transactions in order. So
building at the same second on the same parent puts the same block together if it selects the same
transactions, and verification refuses it because it was rejected. At a later time this cannot
happen.

## Key results

- `Reach.exists_rejected`: what is remembered as rejected are blocks of the run
- `Reach.pending_of_draft`: what a block that is put together shows about the state
- `Reach.build_repeats_iff`: when building puts a rejected block together
-/

namespace LeaseChain

variable {g : Genesis} {h h' : History} {e e' : Engine} {clock : UInt64}

/-- `Transition` has no more identifiers rejected than that of a tracked block. -/
theorem Transition.isRejected_cases (ht : Transition h e h' e') {id : Hash}
    (hrejected : e'.isRejected id = true) :
    e.isRejected id = true ∨ ∃ entry, e.tracked[id]? = some entry := by
  cases ht with
  | quiet same | name _ same | rename _ same | recheck _ _ same =>
    exact .inl (same.isRejected_eq id ▸ hrejected)
  | track _ _ _ _ same | attach _ _ _ _ same | prefer _ same =>
    exact .inl ((same.isRejected_eq id).symm.trans hrejected)
  | commit _ _ same =>
    -- acceptance forgets those that are no higher
    rw [same.isRejected_eq] at hrejected
    exact .inl (Std.ExtTreeMap.contains_of_contains_filter hrejected)
  | @forget _ j entry hfound same =>
    rw [same.isRejected_eq, Engine.isRejected, Engine.forget, Std.ExtTreeMap.contains_insert,
      Bool.or_eq_true] at hrejected
    rcases hrejected with hj | hrejected
    · obtain rfl := Std.LawfulEqCmp.compare_eq_iff_eq.1 (beq_iff_eq.1 hj)
      exact .inr ⟨entry, hfound⟩
    · exact .inl hrejected
  | reopen _ same =>
    rw [same.isRejected_eq] at hrejected
    simp [Engine.isRejected, Engine.atRest] at hrejected

/-- `isRejected` holds of blocks of the run only. -/
theorem Reach.exists_rejected (hreach : Reach g h e) (hfree : h.CollisionFree) {id : Hash}
    (hrejected : e.isRejected id = true) : ∃ b ∈ h.blocks, b.id = id := by
  refine hreach.invariant (P := fun h e => ∀ id, e.isRejected id = true → ∃ b ∈ h.blocks, b.id = id)
    (fun _ _ e _ hstart id hid => ?_) (fun _ _ _ _ _ hc ih ht _ id hid => ?_) hfree id hrejected
  · obtain ⟨g', store, tip, rfl⟩ := Engine.eq_atRest_of_start (congrArg Prod.fst hstart)
    simp [Engine.isRejected, Engine.atRest] at hid
  · have hsub := Coherent.blocks_subset_of_transition ht
    rcases ht.isRejected_cases hid with hold | ⟨entry, hentry⟩
    · obtain ⟨b, hb, hbid⟩ := ih id hold
      exact ⟨b, hsub hb, hbid⟩
    · obtain ⟨hbid, hb, -⟩ := hc.arranged.tracked hentry
      exact ⟨entry.block, hsub hb, hbid⟩

/-- `draft` stands on the preferred block, at `childTime` and of pending transactions. -/
theorem Reach.pending_of_draft (hreach : Reach g h e) {content : BlockContent}
    (hdraft : (e.draft clock).1 = .ok content) :
    (∃ parent, e.preferredBlock = .ok parent ∧ content.parentId = parent.id ∧
      content.timestamp = Engine.childTime clock parent) ∧
    ∀ tx ∈ content.txs, e.mempool.get? tx.id = some tx := by
  obtain ⟨parent, now, context, view, hplan, -, hassemble⟩ := Engine.draft_eq_ok hdraft
  obtain ⟨hpreferred, htime, -, -⟩ := Engine.buildPlan_eq_ok_iff.1 hplan
  obtain ⟨-, -, rfl⟩ := Engine.assemble_eq_ok hassemble
  exact ⟨⟨parent, hpreferred, rfl, htime.symm⟩, fun tx htx =>
    hreach.get?_of_mem_offered ((e.taken_sublist_selection context now view).subset htx)⟩

/--
The error of `build` is a `selfCheck` exactly when the draft is the content of a block of the run
that `isRejected`, and then its cause is `alreadyDecided`. A drafted content names the preferred
block as its parent and has the `childTime` of now, and so is no earlier than the clock, and all its
transactions are pending.
-/
theorem Reach.build_repeats_iff (hreach : Reach g h e) (clock : UInt64)
    (hfree : CollisionFree ((h.blocks ++ (e.drafted clock).toList).map (·.bytes))) :
    (∀ cause, (e.build clock).1 = .error (.selfCheck cause) ↔
      ∃ b ∈ h.blocks, e.isRejected b.id = true ∧ (e.draft clock).1 = .ok b.content ∧
        cause = .alreadyDecided b.id .rejected) ∧
    ∀ content, (e.draft clock).1 = .ok content →
      (∃ parent, e.preferredBlock = .ok parent ∧ content.parentId = parent.id ∧
        content.timestamp = Engine.childTime clock parent) ∧
      clock ≤ content.timestamp ∧ ∀ tx ∈ content.txs, e.mempool.get? tx.id = some tx := by
  have hrun : h.CollisionFree := hfree.mono (List.map_subset _ (List.subset_append_left _ _))
  have hsound := (hreach.coherent hrun).sound
  have hnamed (block : Block) (hdrafted : e.drafted clock = some block) :
      (h.name block).CollisionFree := by
    refine hfree.mono (List.map_subset _ fun b hb => ?_)
    simp only [hdrafted, History.blocks, History.name, Option.toList_some, List.mem_append,
      List.mem_cons, List.not_mem_nil, or_false] at hb ⊢
    tauto
  refine ⟨fun cause => ⟨fun hblamed => ?_, ?_⟩, fun content hdraft => ?_⟩
  · -- the block that was refused has the identifier of a rejected one, and so is that one
    obtain ⟨block, hdrafted, hrejected, rfl⟩ := hreach.isRejected_of_selfCheck hnamed hblamed
    obtain ⟨content, hdraft, hblock⟩ := Engine.drafted_eq_some hdrafted
    obtain ⟨rfl, hframed⟩ := Block.ofContent_eq_ok_iff.1 hblock
    obtain ⟨b, hb, hid⟩ := hreach.exists_rejected hrun hrejected
    obtain rfl := hsound.eq_of_named hframed (hnamed block hdrafted) hb hid
    exact ⟨b, hb, hrejected, hdraft, rfl⟩
  · rintro ⟨b, hb, hrejected, hdraft, rfl⟩
    have hdrafted := Engine.drafted_of_draft (hsound.framed b hb) hdraft
    obtain ⟨_, _, _, -, -, -, -, hverify⟩ := hreach.verify_drafted (hnamed b hdrafted) hdrafted
    rw [Engine.build_eq_of_drafted hdrafted, hverify, if_pos hrejected]
  · obtain ⟨⟨parent, hpreferred, hparent, htime⟩, hpending⟩ := hreach.pending_of_draft hdraft
    refine ⟨⟨parent, hpreferred, hparent, htime⟩, ?_, hpending⟩
    rw [htime]
    exact Engine.le_childTime clock parent

/-! ## A block that comes back

A node builds a block that consensus rejects, and the sender submits its claim once more.
-/

namespace Siblings

def returned : History × Engine :=
  History.follow [(50, .submit claim), (50, .build), (50, .reject left.id), (50, .submit claim)]
    (.start first, start)

theorem reach_returned : Reach genesis returned.1 returned.2 := by
  refine reach_start.follow fun request hrequest => ?_
  simp only [List.mem_cons, List.not_mem_nil, or_false] at hrequest
  rcases hrequest with rfl | rfl | rfl | rfl <;> trivial

theorem draft_returned : returned.1 = ⟨first, [left], [left], []⟩ ∧
    returned.2.isRejected left.id = true ∧ (returned.2.draft 50).1 = .ok left.content := by
  decide +kernel

/-- `build` gives the rejected block again at the same second. -/
theorem build_returned : Reach genesis returned.1 returned.2 ∧ left ∈ returned.1.blocks ∧
    returned.2.isRejected left.id = true ∧
    (returned.2.build 50).1 = .error (.selfCheck (.alreadyDecided left.id .rejected)) ∧
    ∀ tx ∈ left.txs, returned.2.mempool.get? tx.id = some tx := by
  obtain ⟨hhistory, hrejected, hdraft⟩ := draft_returned
  have hleft : left ∈ returned.1.blocks := by
    rw [hhistory]
    exact List.mem_cons_of_mem _ List.mem_cons_self
  -- no ids collide among the blocks so far and the draft, which is `left` once more
  have hfree : CollisionFree
      ((returned.1.blocks ++ (returned.2.drafted 50).toList).map (·.bytes)) := by
    rw [hhistory, Engine.drafted_of_draft isFramed_left hdraft]
    exact CollisionFree.of_ids (·.id_eq) (by decide +kernel)
  obtain ⟨hrepeats, hdrafts⟩ := reach_returned.build_repeats_iff 50 hfree
  obtain ⟨-, -, hpending⟩ := hdrafts left.content hdraft
  exact ⟨reach_returned, hleft, hrejected, (hrepeats _).2 ⟨left, hleft, hrejected, hdraft, rfl⟩,
    hpending⟩

end Siblings

end LeaseChain
