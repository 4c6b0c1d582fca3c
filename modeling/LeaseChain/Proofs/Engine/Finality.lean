import LeaseChain.Proofs.Engine.Acceptance
import LeaseChain.Proofs.Engine.Bookkeeping

/-!
# Decisions are final

A rejected block is remembered until a block of its height is accepted. It may be parsed again after
that, and no request knows that it was rejected; but the accepted chain has passed its height by
then. A block that is accepted on the tip is one higher than it, so a block that was set aside never
is. This takes that only children of the last accepted block are accepted, and that the store stays
open: an engine that starts again remembers no rejected block.

## Key results

- `Engine.SetAside.record`: what was set aside stays so
- `Reach.decisions_final`: rejected blocks are never accepted, and accepted ones stay accepted
-/

namespace LeaseChain

/-- The engine keeps running; the store is not opened again. -/
def Request.StaysOpen : Request → Prop
  | .reopen .. => False
  | _ => True

/-- The states that requests lead to while the store stays open, with their histories. -/
inductive Onward (h₀ : History) (e₀ : Engine) : History → Engine → Prop where
  | refl : Onward h₀ e₀ h₀ e₀
  | call {h : History} {e : Engine} (clock : UInt64) {request : Request}
      (hform : request.WellFormed) (hopen : request.StaysOpen) (honward : Onward h₀ e₀ h e) :
      Onward h₀ e₀ (h.record e clock request) (e.after clock request)

variable {g : Genesis} {h h' h₀ : History} {e e' e₀ : Engine} {request : Request}

/-! ## What a request keeps -/

/-- `History.record` only adds accepted blocks. -/
theorem History.chain_subset_record (h : History) (e : Engine) (clock : UInt64)
    (request : Request) : h.chain ⊆ (h.record e clock request).chain := by
  have hrefl : h.chain ⊆ h.chain := fun _ hb => hb
  -- only an acceptance that commits makes the chain longer
  cases request with
  | parse bytes => simp only [record]; split <;> exact hrefl
  | verify block => simp only [record]; split <;> exact hrefl
  | build => simp only [record]; split <;> exact hrefl
  | accept id => simp only [record]; split; exacts [List.subset_cons_self _ _, hrefl]
  | _ => exact hrefl

namespace Onward

/-- An `Onward` state of a reachable one is reachable. -/
theorem reach (honward : Onward h₀ e₀ h e) (hreach : Reach g h₀ e₀) : Reach g h e := by
  -- induction on the requests, each of which is a call of the run
  induction honward with
  | refl => exact hreach
  | call clock hform _ _ ih => exact ih.call clock hform

/-- No block of the run is lost `Onward`. -/
theorem blocks_subset (honward : Onward h₀ e₀ h e) : h₀.blocks ⊆ h.blocks := by
  induction honward with
  | refl => exact fun _ hb => hb
  | call clock _ _ _ ih => exact List.Subset.trans ih (History.blocks_subset_record _ _ clock _)

/-- No accepted block is lost `Onward`. -/
theorem chain_subset (honward : Onward h₀ e₀ h e) : h₀.chain ⊆ h.chain := by
  induction honward with
  | refl => exact fun _ hb => hb
  | call clock _ _ _ ih => exact List.Subset.trans ih (History.chain_subset_record _ _ clock _)

/-- `History.follow` leads `Onward`, if none of the requests closes the store. -/
theorem follow (honward : Onward h₀ e₀ h e) (requests : List (UInt64 × Request))
    (hrequests : ∀ request ∈ requests, request.2.WellFormed ∧ request.2.StaysOpen) :
    Onward h₀ e₀ (History.follow requests (h, e)).1 (History.follow requests (h, e)).2 := by
  -- induction on the requests, from the state that the ones before lead to
  induction requests generalizing h e with
  | nil => exact honward
  | cons request requests ih =>
    obtain ⟨⟨hform, hopen⟩, hrest⟩ := List.forall_mem_cons.1 hrequests
    exact ih (honward.call request.1 hform hopen) hrest

/-- What every request keeps on an open store, while the run is `Linear`, holds `Onward`. -/
theorem preserves {P : History → Engine → Prop} (honward : Onward h₀ e₀ h e)
    (hreach : Reach g h₀ e₀)
    (hstep : ∀ {h : History} {e : Engine} {clock : UInt64} {request : Request}, Reach g h e →
      P h e → request.WellFormed → request.StaysOpen → (h.record e clock request).CollisionFree →
      (h.record e clock request).Linear → P (h.record e clock request) (e.after clock request))
    (hstart : P h₀ e₀) (hfree : h.CollisionFree) (hlinear : h.Linear) : P h e := by
  -- induction on the requests; a front of the run has fewer blocks and is one chain as well
  induction honward with
  | refl => exact hstart
  | @call h e clock request hform hopen honward ih =>
    have hreach := honward.reach hreach
    have hfree' := hfree.of_subset (h.blocks_subset_record e clock request)
    have hp := ih hfree' (((hreach.coherent hfree').transition clock hform).linear hlinear)
    exact hstep hreach hp hform hopen hfree hlinear

end Onward

namespace Engine

/-- `verify` leaves `rejected` as it is. -/
theorem rejected_verify (e : Engine) (clock : UInt64) (block : Block) :
    (e.verify clock block).2.rejected = e.rejected := by
  rcases Transition.verify_cases e clock block with ⟨_, hv⟩ | ⟨_, hv⟩ | ⟨_, _, _, _, hv⟩ <;>
    exact congrArg (·.2.rejected) hv

/-- `build` leaves `rejected` as it is. -/
theorem rejected_build (e : Engine) (clock : UInt64) :
    (e.build clock).2.rejected = e.rejected := by
  have hdraft := (e.sameChain_draft clock).rejected
  rw [build_eq_finishBlock]
  -- the draft is opened, so that the state is the same on both sides
  generalize e.draft clock = drafted at hdraft ⊢
  obtain ⟨content, e'⟩ := drafted
  cases content with
  | error cause => exact hdraft
  | ok content =>
    simp only [finishBlock]
    split
    · exact hdraft
    · next block _ =>
      have hverify := rejected_verify e' clock block
      split <;> next hv => rw [hv] at hverify; exact hverify.trans hdraft

/-- `reject` remembers a tracked block with its height, and forgets nothing. -/
theorem getElem?_rejected_reject (e : Engine) (clock : UInt64) {j : Hash} {entry : Tracked}
    (hnew : ¬e.isRejected j = true) (hentry : e.tracked[j]? = some entry) (id : Hash) :
    (e.reject clock j).2.rejected[id]? =
      if j = id then some entry.block.height else e.rejected[id]? := by
  -- the answer is that of `forget`, as what is added to the pool again is not remembered
  rw [← getElem?_rejected_forget e j entry.block id]
  simp only [reject, if_neg hnew, hentry]
  split
  · show (readd _ clock entry.block.txs).rejected[id]? = _
    rw [(sameChain_readd _ clock entry.block.txs).rejected]
  · rfl

/-- What is `rejected` stays so after another `reject`. -/
theorem rejected_stays_of_reject (e : Engine) (clock : UInt64) (j : Hash) {id : Hash}
    {height : UInt64} (hrejected : e.rejected[id]? = some height) :
    (e.reject clock j).2.rejected[id]? = some height := by
  -- a block that was rejected before is refused, and one that is not tracked changes nothing
  by_cases hnew : e.isRejected j = true
  · rw [reject, if_pos hnew]
    exact hrejected
  cases hentry : e.tracked[j]? with
  | none =>
    simp only [reject, if_neg hnew, hentry]
    exact hrejected
  | some entry =>
    have hne : j ≠ id := fun hid => hnew (isRejected_iff.2 ⟨height, hid ▸ hrejected⟩)
    rw [e.getElem?_rejected_reject clock hnew hentry, if_neg hne]
    exact hrejected

/-- A block that `reject` succeeds for is in `rejected`. -/
theorem exists_rejected_of_reject {clock : UInt64} {id : Hash}
    (hreject : (e.reject clock id).1 = .ok ()) :
    ∃ height, (e.reject clock id).2.rejected[id]? = some height := by
  by_cases hnew : e.isRejected id = true
  · rw [reject, if_pos hnew]
    exact isRejected_iff.1 hnew
  cases hentry : e.tracked[id]? with
  | none =>
    simp only [reject, if_neg hnew, hentry] at hreject
    cases hreject
  | some entry => exact ⟨_, by rw [e.getElem?_rejected_reject clock hnew hentry, if_pos rfl]⟩

/-- `accept` takes a block out of `rejected` only if it is no higher than the new tip. -/
theorem getElem?_rejected_accept (e : Engine) (j : Hash) {id : Hash} {height : UInt64}
    (hrejected : e.rejected[id]? = some height) :
    (e.accept j).2.rejected[id]? = some height ∨ height ≤ (e.accept j).2.lastAccepted.height := by
  simp only [accept]
  split
  · exact .inl hrejected
  split
  · exact .inl hrejected
  · -- the heights that are kept are those above the block that was committed
    next entry _ =>
    split
    · exact .inl hrejected
    · split
      · exact .inl hrejected
      · by_cases hheight : entry.block.height < height
        · refine .inl ?_
          simp only [settle, Std.ExtTreeMap.getElem?_filter', hrejected, Option.filter_some,
            decide_eq_true hheight, if_true]
        · exact .inr (UInt64.not_lt.1 hheight)

/--
A request that `StaysOpen` takes a block out of `rejected` only if it is no higher than the tip.
-/
theorem getElem?_rejected_after (e : Engine) (clock : UInt64) (hopen : request.StaysOpen)
    {id : Hash} {height : UInt64} (hrejected : e.rejected[id]? = some height) :
    (e.after clock request).rejected[id]? = some height ∨
      height ≤ (e.after clock request).lastAccepted.height := by
  have hsame {e' : Engine} (same : e'.rejected = e.rejected) : e'.rejected[id]? = some height :=
    same ▸ hrejected
  -- accepting and rejecting alone touch what is remembered
  cases request with
  | parse bytes =>
    refine .inl (hsame ?_)
    simp only [after, parse]
    split
    · rfl
    · split
      · rfl
      · split <;> rfl
  | verify block => exact .inl (hsame (e.rejected_verify clock block))
  | accept j => exact e.getElem?_rejected_accept j hrejected
  | reject j => exact .inl (e.rejected_stays_of_reject clock j hrejected)
  | prefer j =>
    refine .inl (hsame ?_)
    simp only [after, prefer]
    split <;> rfl
  | build => exact .inl (hsame (e.rejected_build clock))
  | submit tx => exact .inl (hsame (e.sameChain_submit clock tx).rejected)
  | gossip payload => exact .inl (hsame (e.sameChain_receiveGossip clock payload).rejected)
  | prune => exact .inl (hsame (e.sameChain_pruneMempool clock).rejected)
  | takeFresh | takeNotices | signal | refuse => exact .inl hrejected
  | reopen => exact hopen.elim

/-- Only a stored block has the `status` of an accepted one. -/
theorem isStored_of_status {id : Hash} (hstatus : e.status id = .ok .accepted) :
    e.isStored id = true := by
  -- a tracked block is in process and a remembered one rejected, so that only the store is left
  simp only [status] at hstatus
  split at hstatus
  · cases hstatus
  split at hstatus
  · cases hstatus
  split at hstatus
  · next hstored => exact hstored
  · cases hstatus

end Engine

namespace Coherent

/-- A block of `h.chain` has the `status` of an accepted one, and `reject` refuses it. -/
theorem accepted_of_mem_chain (hc : Coherent g h e) (ht : e.Tidy h) {b : Block}
    (hb : b ∈ h.chain) : e.status b.id = .ok .accepted ∧
      ∀ clock, (e.reject clock b.id).1 = .error (.alreadyDecided b.id .accepted) := by
  -- none of the three records holds the block but the store
  have htracked : e.tracked[b.id]? = none := by
    rw [Option.eq_none_iff_forall_ne_some]
    exact fun entry hentry => (hc.arranged.tracked hentry).2.2 b hb rfl
  have huntracked : ¬e.isTracked b.id = true := by
    rw [Engine.isTracked_iff, htracked]
    exact fun ⟨_, h⟩ => nomatch h
  have hunrejected : ¬e.isRejected b.id = true := by
    rw [Engine.isRejected_iff]
    exact fun ⟨height, hheight⟩ => (ht.rejected hheight).2 b hb rfl
  have hstored : e.isStored b.id = true := hc.settled.isStored_iff.2 ⟨b, hb, rfl⟩
  constructor
  · rw [Engine.status, if_neg huntracked, if_neg hunrejected, if_pos hstored]
  · intro clock
    simp only [Engine.reject, if_neg hunrejected, htracked, if_pos hstored]

end Coherent

/-! ## Blocks that were set aside -/

/--
A block of the run that is not accepted, and that is remembered as rejected or no higher than the
last accepted block.
-/
structure Engine.SetAside (h : History) (e : Engine) (b : Block) : Prop where
  mem : b ∈ h.blocks
  unaccepted : ∀ x ∈ h.chain, x.id ≠ b.id
  passed : e.rejected[b.id]? = some b.height ∨ b.height ≤ e.lastAccepted.height

namespace Engine.SetAside

variable {b : Block}

/-- A block that was `SetAside` does not stand on the tip when it is `acceptable`. -/
theorem not_accepted (hs : e.SetAside h b) (hc : Coherent g h e) (ht : e.Tidy h)
    (hfree : h.CollisionFree) {entry : Tracked} {changes : Changes}
    (hfound : e.tracked[b.id]? = some entry) (hacceptable : acceptable b.id entry = .ok changes) :
    entry.block.parentId ≠ e.lastAccepted.id := by
  intro hparent
  obtain ⟨hid, hmem, -⟩ := hc.arranged.tracked hfound
  obtain rfl := hfree.eq_of_id_eq hc.sound hmem hs.mem hid
  rcases hs.passed with hrejected | hheight
  · rw [ht.unrejected hfound] at hrejected
    cases hrejected
  · -- a child of the tip is one higher
    have hext := hc.extends_tip hfree hfound (acceptable_eq_ok_iff.1 hacceptable) hparent
    rw [UInt64.le_iff_toNat_le, hext.2.1] at hheight
    exact Nat.not_succ_le_self _ hheight

/-- What was `SetAside` stays so, as long as the run is `Linear` and the store stays open. -/
theorem record (hs : e.SetAside h b) (hreach : Reach g h e) {clock : UInt64}
    (hform : request.WellFormed) (hopen : request.StaysOpen)
    (hfree : (h.record e clock request).CollisionFree)
    (hlinear : (h.record e clock request).Linear) :
    (e.after clock request).SetAside (h.record e clock request) b := by
  have hfree' := hfree.of_subset (h.blocks_subset_record e clock request)
  have hc := hreach.coherent hfree'
  have ht := hreach.tidy hfree'
  have htransition := hc.transition clock hform
  have hheight := hc.height_le_of_transition htransition hfree' hlinear
  refine ⟨h.blocks_subset_record e clock request hs.mem, ?_, ?_⟩
  -- only a commit makes the chain longer, and it commits no block that was set aside
  · generalize h.record e clock request = h' at htransition hlinear
    cases htransition with
    | @commit _ id entry changes hfound hacceptable same =>
      refine List.forall_mem_cons.2 ⟨fun hid => ?_, hs.unaccepted⟩
      obtain rfl : id = b.id := (hc.arranged.tracked hfound).1.symm.trans hid
      exact hs.not_accepted hc ht hfree' hfound hacceptable (hc.parentId_of_linear hlinear)
    | _ => exact hs.unaccepted
  · -- what was passed stays passed, as the height of the tip does not fall
    rcases hs.passed with hrejected | hpassed
    · exact e.getElem?_rejected_after clock hopen hrejected
    · exact .inr (UInt64.le_trans hpassed hheight)

end Engine.SetAside

/-- `reject` leads from a state of `Reach` to another, with the same history. -/
theorem Reach.reject (hreach : Reach g h e) (clock : UInt64) (id : Hash) :
    Reach g h (e.reject clock id).2 :=
  @Reach.call g h e clock (.reject id) trivial hreach

/-- `accept` leads from a state of `Reach` to another. -/
theorem Reach.accept (hreach : Reach g h e) (clock : UInt64) (id : Hash) :
    Reach g (h.record e clock (.accept id)) (e.accept id).2 :=
  @Reach.call g h e clock (.accept id) trivial hreach

/-- An `accept` that commits a tracked block is noted by `History.accept`. -/
theorem History.record_accept {clock : UInt64} {id : Hash} {entry : Tracked}
    (hfound : e.tracked[id]? = some entry) (haccept : (e.accept id).1 = .ok ()) :
    h.record e clock (.accept id) = h.accept entry.block := by
  simp only [History.record, hfound, haccept]

/-- A block that `reject` succeeds for is `SetAside`. -/
theorem Reach.setAside_reject (hreach : Reach g h e) (hfree : h.CollisionFree) {clock : UInt64}
    {id : Hash} (hreject : (e.reject clock id).1 = .ok ()) :
    ∃ b, b.id = id ∧ (e.reject clock id).2.SetAside h b := by
  have hreach' := hreach.reject clock id
  obtain ⟨height, hheight⟩ := Engine.exists_rejected_of_reject hreject
  obtain ⟨⟨b, hb, rfl, rfl⟩, hnew⟩ := (hreach'.tidy hfree).rejected hheight
  exact ⟨b, rfl, hb, hnew, .inl hheight⟩

/-- A block that `accept` succeeds for is on the chain. -/
theorem Reach.exists_mem_chain_accept (hreach : Reach g h e) (clock : UInt64)
    (hfree : h.CollisionFree) {id : Hash} (haccept : (e.accept id).1 = .ok ()) :
    ∃ b ∈ (h.record e clock (.accept id)).chain, b.id = id := by
  have hc := hreach.coherent hfree
  -- a block that is accepted is committed now, or it is in the store already
  cases hfound : e.tracked[id]? with
  | some entry =>
    simp only [History.record, hfound, haccept]
    exact ⟨entry.block, List.mem_cons_self, (hc.arranged.tracked hfound).1⟩
  | none =>
    simp only [History.record, hfound]
    simp only [Engine.accept, hfound] at haccept
    split at haccept
    · cases haccept
    · split at haccept
      · next hstored => exact hc.settled.isStored_iff.1 hstored
      · cases haccept

/--
Decisions are final along every run `Onward`, while the store stays open. A block that `reject` took
does not get the `status` of an accepted one as long as the run is `Linear`, and `accept` refuses it
on the last accepted block, whatever is parsed, verified or forgotten in between. A block that
`accept` took keeps that status, and `reject` answers `alreadyDecided`.
-/
theorem Reach.decisions_final (hreach : Reach g h e) (clock : UInt64) (id : Hash) :
    ((e.reject clock id).1 = .ok () → ∀ {h' : History} {e' : Engine},
      Onward h (e.reject clock id).2 h' e' → h'.CollisionFree → h'.Linear →
      (∀ b ∈ h'.accepted, b.id ≠ id) ∧ e'.status id ≠ .ok .accepted ∧
      ∀ {entry : Tracked}, e'.tracked[id]? = some entry →
        entry.block.parentId = e'.lastAccepted.id → (e'.accept id).1 ≠ .ok ()) ∧
    ((e.accept id).1 = .ok () → ∀ {h' : History} {e' : Engine},
      Onward (h.record e clock (.accept id)) (e.accept id).2 h' e' → h'.CollisionFree →
      e'.status id = .ok .accepted ∧
      ∀ clock', (e'.reject clock' id).1 = .error (.alreadyDecided id .accepted)) := by
  refine ⟨fun hreject h' e' honward hfree hlinear => ?_, fun haccept h' e' honward hfree => ?_⟩
  · -- the block that was rejected is set aside, and stays so onward
    have hfree₀ := hfree.of_subset honward.blocks_subset
    obtain ⟨b, rfl, hs₀⟩ := hreach.setAside_reject hfree₀ hreject
    have hreach₀ := hreach.reject clock b.id
    have hs : e'.SetAside h' b := honward.preserves (P := fun h e => e.SetAside h b) hreach₀
      (fun hreach hs hform hopen => hs.record hreach hform hopen) hs₀ hfree hlinear
    -- three readings of the one invariant: the chain, the status and the next acceptance
    have hreach' := honward.reach hreach₀
    have hc := hreach'.coherent hfree
    refine ⟨fun x hx => hs.unaccepted x (List.mem_append_left _ hx), fun hstatus => ?_,
      fun {entry} hfound hparent haccept => ?_⟩
    · obtain ⟨x, hx, hid⟩ := hc.settled.isStored_iff.1 (Engine.isStored_of_status hstatus)
      exact hs.unaccepted x hx hid
    · obtain ⟨changes, hchanges⟩ := Engine.acceptable_of_accept hfound haccept
      exact hs.not_accepted hc (hreach'.tidy hfree) hfree hfound hchanges hparent
  · -- the block that was accepted is on the chain, which only grows
    have hfree₀ := hfree.of_subset honward.blocks_subset
    have hreach' := honward.reach (hreach.accept clock id)
    obtain ⟨b, hb, rfl⟩ := hreach.exists_mem_chain_accept clock
      (hfree₀.of_subset (h.blocks_subset_record e clock (.accept id))) haccept
    exact (hreach'.coherent hfree).accepted_of_mem_chain (hreach'.tidy hfree)
      (honward.chain_subset hb)

/-- `parse` tracks a framed block that is not known. -/
theorem Engine.parse_of_unknown {block : Block} (hframed : block.IsFramed framing)
    (hunknown : e.status block.id = .error (.blockNotFound block.id)) :
    e.parse block.bytes = (.ok block,
      { e with tracked := e.tracked.insert block.id ⟨block, none, []⟩ }) := by
  have hread : Block.ofBytes framing block.bytes = .ok block := hframed
  -- what is not found under any of the three records is not known
  simp only [status] at hunknown
  split at hunknown
  · cases hunknown
  split at hunknown
  · cases hunknown
  split at hunknown
  · cases hunknown
  next huntracked hunrejected hunstored =>
  have hnone : e.tracked[block.id]? = none := by
    rw [Option.eq_none_iff_forall_ne_some]
    exact fun entry hentry => huntracked (isTracked_iff.2 ⟨entry, hentry⟩)
  simp only [parse, hread, hnone, hunrejected, hunstored, Bool.or_self, Bool.false_eq_true,
    if_false]

/-- A `parse` of a framed block that is not known names it and tracks it. -/
theorem History.follow_parse {clock : UInt64} {block : Block}
    (hframed : block.IsFramed Engine.framing)
    (hunknown : e.status block.id = .error (.blockNotFound block.id))
    (requests : List (UInt64 × Request)) :
    History.follow ((clock, .parse block.bytes) :: requests) (h, e) =
      History.follow requests (h.name block,
        { e with tracked := e.tracked.insert block.id ⟨block, none, []⟩ }) := by
  simp only [History.follow, History.record, Engine.after,
    Engine.parse_of_unknown hframed hunknown]

namespace Siblings

/-- Both blocks are verified. -/
def rivals : History × Engine :=
  History.follow [(100, .verify left), (100, .verify right)] (.start first, start)

theorem reach_rivals : Reach genesis rivals.1 rivals.2 := by
  refine reach_start.follow fun request hrequest => ?_
  simp only [List.mem_cons, List.not_mem_nil, or_false] at hrequest
  rcases hrequest with rfl | rfl
  · exact isFramed_left
  · exact isFramed_right

/-- The right block is rejected. -/
def dismissed : Engine := (rivals.2.reject 100 right.id).2

/-- The left one is accepted, and the right one is forgotten with that. -/
def passed : History × Engine := History.follow [(100, .accept left.id)] (rivals.1, dismissed)

/-- In `passed`, `right` was rejected and `left` accepted, and `right` is not known any more. -/
theorem right_forgotten : (rivals.2.reject 100 right.id).1 = .ok () ∧
    (dismissed.accept left.id).1 = .ok () ∧
    passed.1 = ⟨first, [right, left], [right, left], [left]⟩ ∧
    passed.2.status right.id = .error (.blockNotFound right.id) := by
  decide +kernel

/-- The right one is parsed again, which tracks it as if it had never been rejected. -/
def reparsed : History × Engine :=
  History.follow [(100, .parse right.bytes)] (passed.1, passed.2)

/-- In `reparsed`, `right` is tracked like any other block. -/
theorem reparsed_eq : reparsed.1 = passed.1.name right ∧
    reparsed.2.status right.id = .ok .processing := by
  rw [reparsed, History.follow_parse isFramed_right right_forgotten.2.2.2]
  exact ⟨rfl, by rw [History.follow, Engine.status, if_pos (by simp [Engine.isTracked])]⟩

/-- `right` is not accepted in `reparsed`, though it is tracked again after it was forgotten. -/
theorem right_stays_rejected : (rivals.2.reject 100 right.id).1 = .ok () ∧
    reparsed.2.status right.id = .ok .processing ∧
    (∀ b ∈ reparsed.1.accepted, b.id ≠ right.id) ∧ left ∈ reparsed.1.accepted ∧
    reparsed.2.status left.id = .ok .accepted := by
  obtain ⟨hreject, haccept, hpassed, -⟩ := right_forgotten
  obtain ⟨hhistory, htracked⟩ := reparsed_eq
  rw [hpassed] at hhistory
  have hfree : reparsed.1.CollisionFree := by
    rw [hhistory]
    exact CollisionFree.of_ids (·.id_eq) (by decide +kernel)
  have hlinear : reparsed.1.Linear := by
    rw [hhistory, History.Linear]
    decide +kernel
  -- the second run goes on from the first, by one more request
  have hparsed {h : History} {e : Engine} (honward : Onward h e passed.1 passed.2) :
      Onward h e reparsed.1 reparsed.2 :=
    honward.follow [(100, .parse right.bytes)] (by simp [Request.WellFormed, Request.StaysOpen])
  have haccepted : Onward rivals.1 dismissed passed.1 passed.2 :=
    Onward.refl.follow [(100, .accept left.id)] (by simp [Request.WellFormed, Request.StaysOpen])
  have hreach : Reach genesis rivals.1 dismissed := reach_rivals.reject 100 right.id
  have hrejected := hparsed haccepted
  rw [dismissed] at hrejected
  have hlater := hparsed .refl
  simp only [passed, History.follow, Engine.after] at hlater
  obtain ⟨hnever, -⟩ :=
    (reach_rivals.decisions_final 100 right.id).1 hreject hrejected hfree hlinear
  obtain ⟨hstatus, -⟩ := (hreach.decisions_final 100 left.id).2 haccept hlater hfree
  refine ⟨hreject, htracked, hnever, ?_, hstatus⟩
  rw [hhistory]
  exact List.mem_cons_self

end Siblings

end LeaseChain
