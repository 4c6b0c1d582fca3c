import LeaseChain.Proofs.Engine.Opening
import LeaseChain.Proofs.Engine.Transition
import LeaseChain.Proofs.Mempool

/-!
# What is pending

Transactions come into the pool only through the checks of admission, by whatever request: what is
pending after a request was pending before it, or has passed the checks in a state with the chain
that the request left (`Engine.Origin`). What the checks find about a transaction alone, that its
sender signed it and that its form is allowed, stays true of it as long as it is pending; the rest
depends on the preferred block, and may not.

## Key results

- `Engine.checkAdmission_eq_ok_iff`: what admission checks
- `Engine.poolStep_after`: where the pending transactions come from, request by request
- `Reach.pooled`: what is true of every pending transaction
-/

namespace LeaseChain

namespace Engine

/-- `checkAdmission` lets a transaction pass exactly when it passes all checks. -/
theorem checkAdmission_eq_ok_iff {e : Engine} {clock : UInt64} {tx : Transaction} :
    e.checkAdmission clock tx = .ok () ↔
      ¬e.mempool.has tx.id = true ∧ tx.verifySignature = .ok () ∧
      Ledger.validateForm e.genesis tx.unsigned = .ok () ∧
      ∃ parent, e.preferredBlock = .ok parent ∧
      ∃ context, e.contextAfter parent (childTime clock parent) = .ok context ∧
        context.recentBlocks.contains tx.blockId = true ∧
        ¬context.recentTxs.contains tx.id = true ∧
        ¬tx.difficulty < context.nextDifficulty ∧
      ∃ view, e.viewFrom parent.id = .ok view ∧ ¬view.hasTransaction tx.id = true ∧
      ∃ changes,
        tx.unsigned.execute ⟨e.genesis, childTime clock parent, tx.id⟩ view = .ok changes := by
  unfold checkAdmission
  simp only [↓Except.guard_eq_ok_iff, ↓Except.bind_unit_eq_ok_iff, Except.bind_eq_ok_iff,
    Except.mapError_eq_ok_iff, Except.discard_eq_ok_iff, Bool.not_eq_true', Bool.not_eq_false]

/-! ## Where pending transactions come from -/

/-- The pool loses transactions at most, and the durable state is as it was. -/
structure Keeps (e e' : Engine) : Prop where
  genesis : e'.genesis = e.genesis
  entries : e'.store.entries = e.store.entries
  consistent : e.mempool.Consistent → e'.mempool.Consistent
  pending : ∀ {id : Hash} {tx : Transaction}, e'.mempool.get? id = some tx →
    e.mempool.get? id = some tx

/-- How a transaction comes to be pending after a request. -/
inductive Origin (e e' : Engine) (id : Hash) (tx : Transaction) : Prop where
  /-- It was pending before, over the same durable state. -/
  | kept (pending : e.mempool.get? id = some tx) (genesis : e'.genesis = e.genesis)
      (entries : e'.store.entries = e.store.entries)
  /-- It was pending before, and a block was committed that is without it. -/
  | spared {blockId : Hash} {entry : Tracked} {changes : Changes}
      (pending : e.mempool.get? id = some tx) (genesis : e'.genesis = e.genesis)
      (found : e.tracked[blockId]? = some entry)
      (acceptable : Engine.acceptable blockId entry = .ok changes)
      (entries : e'.store.entries = e.store.entries.apply changes)
      (without : id ∉ entry.block.txs.map (·.id))
  /-- It passed admission on the chain that the request left. -/
  | admitted {m : Engine} {clock : UInt64} (same : m.SameChain e')
      (passes : m.checkAdmission clock tx = .ok ())

/-- What a request does to the pool. -/
structure PoolStep (e e' : Engine) : Prop where
  consistent : e.mempool.Consistent → e'.mempool.Consistent
  origin : ∀ {id : Hash} {tx : Transaction}, e'.mempool.get? id = some tx → Origin e e' id tx

variable {e e' m : Engine} {clock : UInt64}

namespace Keeps

/-- A step that leaves parameters, store and pool alone `Keeps` what is pending. -/
theorem congr (hgenesis : e'.genesis = e.genesis) (hentries : e'.store.entries = e.store.entries)
    (hpool : e'.mempool = e.mempool) : Keeps e e' :=
  ⟨hgenesis, hentries, fun hc => hpool ▸ hc, fun h => hpool ▸ h⟩

theorem refl (e : Engine) : Keeps e e := .congr rfl rfl rfl

theorem trans (h : Keeps e m) (h' : Keeps m e') : Keeps e e' where
  genesis := h'.genesis.trans h.genesis
  entries := h'.entries.trans h.entries
  consistent hc := h'.consistent (h.consistent hc)
  pending hpending := h.pending (h'.pending hpending)

/-- `removeAll` `Keeps` the other transactions pending. -/
theorem removeAll (ids : List Hash) (hgenesis : e'.genesis = e.genesis)
    (hentries : e'.store.entries = e.store.entries)
    (hpool : e'.mempool = e.mempool.removeAll ids) : Keeps e e' where
  genesis := hgenesis
  entries := hentries
  consistent hc := hpool ▸ hc.removeAll ids
  pending h := by
    rw [hpool, Mempool.get?_removeAll] at h
    split at h
    · cases h
    · exact h

/-- `prune` `Keeps` the valid transactions pending. -/
theorem prune (valid : Hash → Bool) (hgenesis : e'.genesis = e.genesis)
    (hentries : e'.store.entries = e.store.entries)
    (hpool : e'.mempool = (e.mempool.prune valid).2) : Keeps e e' :=
  .removeAll (e.mempool.staleIds valid) hgenesis hentries hpool

/-- `parse` has no part in the pool. -/
theorem parse (bytes : Bytes) : Keeps e (e.parse bytes).2 := by
  unfold Engine.parse
  split
  · exact .refl e
  split
  · exact .refl e
  split
  · exact .refl e
  · exact .congr rfl rfl rfl

/-- `verify` has no part in the pool. -/
theorem verify (clock : UInt64) (block : Block) : Keeps e (e.verify clock block).2 := by
  -- only the last case changes the state, and not its pool
  rcases Transition.verify_cases e clock block with ⟨cause, hv⟩ | ⟨-, hv⟩ | ⟨parent, v, -, -, hv⟩
  · rw [hv]
    exact .refl e
  · rw [hv]
    exact .refl e
  · rw [hv]
    exact .congr rfl rfl rfl

/-- `prefer` has no part in the pool. -/
theorem prefer (id : Hash) : Keeps e (e.prefer id).2 := by
  unfold Engine.prefer
  split
  · exact .congr rfl rfl rfl
  · exact .refl e

/-- `draft` takes transactions out of the pool and brings none in. -/
theorem draft (clock : UInt64) : Keeps e (e.draft clock).2 := by
  unfold Engine.draft
  split
  · exact .refl e
  · next parent now context _ =>
    have hpruned : Keeps e { e with mempool :=
        (e.mempool.prune context.recentBlocks.contains).2 } :=
      .prune context.recentBlocks.contains rfl rfl rfl
    simp only []
    -- without a view nothing but the pruning has happened
    split
    · exact hpruned
    · have hcleaned (txs : List Transaction) : Keeps e (discardTxs { e with mempool :=
          (e.mempool.prune context.recentBlocks.contains).2 } txs) :=
        hpruned.trans (.removeAll (txs.map (·.id)) rfl rfl rfl)
      split
      · exact hcleaned _
      · exact (hcleaned _).trans (.removeAll _ rfl rfl rfl)

/-- `build` takes transactions out of the pool and brings none in. -/
theorem build (clock : UInt64) : Keeps e (e.build clock).2 := by
  have hdraft := Keeps.draft (e := e) clock
  -- the pool was pruned and emptied of what was taken before the block is framed
  rw [build_eq_finishBlock]
  split
  · next heq => rwa [heq] at hdraft
  · next content e' heq =>
    rw [heq] at hdraft
    refine hdraft.trans ?_
    unfold finishBlock
    split
    · exact .refl e'
    · next block _ =>
      have hverify := Keeps.verify (e := e') clock block
      split
      · next hv => rwa [hv] at hverify
      · next hv =>
        rw [hv] at hverify
        exact hverify.trans (.congr rfl rfl rfl)

/-- `pruneMempool` takes transactions out of the pool and brings none in. -/
theorem pruneMempool (clock : UInt64) : Keeps e (e.pruneMempool clock).2 := by
  unfold Engine.pruneMempool
  split
  · exact .refl e
  · next context _ => exact .prune context.recentBlocks.contains rfl rfl rfl

end Keeps

/-- `atRest` has nothing pending. -/
theorem get?_atRest (g : Genesis) (settings : Settings) (store : Store) (tip : Block) (id : Hash) :
    (atRest g settings store tip).mempool.get? id = none :=
  Mempool.get?_empty _ id

namespace PoolStep

/-- What `Keeps` the pool is a `PoolStep`. -/
theorem of_keeps (h : Keeps e e') : PoolStep e e' where
  consistent := h.consistent
  origin hpending := .kept (h.pending hpending) h.genesis h.entries

theorem trans (h : PoolStep e m) (h' : PoolStep m e') (same : m.SameChain e') :
    PoolStep e e' where
  consistent hc := h'.consistent (h.consistent hc)
  origin hpending := by
    -- what was pending in between has its origin before, as the second step is on the same chain
    have hfirst {id : Hash} {tx : Transaction} (hm : m.mempool.get? id = some tx) :
        Origin e e' id tx := by
      cases h.origin hm with
      | kept hpending hgenesis hentries =>
        exact .kept hpending (same.genesis.trans hgenesis) (same.entries.trans hentries)
      | spared hpending hgenesis hfound hacceptable hentries hwithout =>
        exact .spared hpending (same.genesis.trans hgenesis) hfound hacceptable
          (same.entries.trans hentries) hwithout
      | admitted hsame hpasses => exact .admitted (hsame.trans same) hpasses
    cases h'.origin hpending with
    | kept hm | spared hm => exact hfirst hm
    | admitted hsame hpasses => exact .admitted hsame hpasses

/-- `add` of a transaction that passes `checkAdmission` is a `PoolStep`. -/
theorem add {tx : Transaction} (hpasses : e.checkAdmission clock tx = .ok ())
    (same : e.SameChain e') (hpool : e'.mempool = (e.mempool.add tx).2) : PoolStep e e' where
  consistent hc := hpool ▸ hc.add tx
  origin {id other} h := by
    rw [hpool] at h
    rcases Mempool.get?_add h with rfl | h
    · exact .admitted same hpasses
    · exact .kept h same.genesis same.entries

/-- `submit` brings in the submitted transaction at most, after its checks. -/
theorem submit (clock : UInt64) (tx : Transaction) : PoolStep e (e.submit clock tx).2 := by
  have same := sameChain_submit e clock tx
  unfold Engine.submit at same ⊢
  split
  · exact .of_keeps (.refl e)
  · next hpasses =>
    -- what stays in the pool is queued for peers too, which is beside the pool
    have henqueue : (e.enqueue tx).mempool = (e.mempool.add tx).2 := by
      unfold enqueue
      split
      split <;> next heq _ => simp only [heq]
    simp only [hpasses] at same
    exact .add hpasses same henqueue

/-- `submitAll` brings each transaction in by its own checks. -/
theorem submitAll (clock : UInt64) (txs : List Transaction) (count : Nat) :
    PoolStep e (submitAll clock txs count e).2 := by
  -- induction on the transactions, with the state generalized; each is submitted to what is there
  -- by then
  induction txs generalizing e count with
  | nil => exact .of_keeps (.refl e)
  | cons tx txs ih =>
    have hsubmit := PoolStep.submit (e := e) clock tx
    unfold Engine.submitAll
    split <;> next heq =>
      rw [heq] at hsubmit
      exact hsubmit.trans (ih _) (sameChain_submitAll clock txs _ _)

/-- `readd` brings each transaction of a rejected block back by its own checks. -/
theorem readd (clock : UInt64) (txs : List Transaction) : PoolStep e (e.readd clock txs) := by
  -- each transaction is checked against the pool that the ones before it left
  induction txs generalizing e with
  | nil => exact .of_keeps (.refl e)
  | cons tx txs ih =>
    cases hcheck : e.checkAdmission clock tx with
    | ok =>
      have hstep : e.readd clock (tx :: txs) =
          Engine.readd { e with mempool := (e.mempool.add tx).2 } clock txs := by
        simp only [Engine.readd, List.foldl_cons, hcheck]
      have hadd : PoolStep e { e with mempool := (e.mempool.add tx).2 } :=
        .add hcheck ⟨rfl, rfl, rfl, rfl, rfl, rfl⟩ rfl
      rw [hstep]
      exact hadd.trans ih (sameChain_readd _ clock txs)
    | error =>
      have hstep : e.readd clock (tx :: txs) = e.readd clock txs := by
        simp only [Engine.readd, List.foldl_cons, hcheck]
      rw [hstep]
      exact ih

/-- `accept` takes out the transactions of the block that it commits. -/
theorem accept (id : Hash) : PoolStep e (e.accept id).2 := by
  -- each early exit leaves the state alone; the last case commits
  unfold Engine.accept
  split
  · exact .of_keeps (.refl e)
  split
  · exact .of_keeps (.refl e)
  · next entry hfound =>
    split
    · exact .of_keeps (.refl e)
    · next changes hacceptable =>
      -- a medium that refuses leaves store and pool as they were
      cases hrefusals : e.store.refusals with
      | succ refusals =>
        simp only [Store.commit, hrefusals]
        exact .of_keeps (.congr rfl rfl rfl)
      | zero =>
        simp only [Store.commit, hrefusals]
        have hpool (committed : Engine) : (committed.settle id entry).mempool =
          committed.mempool.removeAll (entry.block.txs.map (·.id)) := rfl
        constructor
        · intro hc
          rw [hpool]
          exact hc.removeAll _
        · intro j tx hpending
          rw [hpool, Mempool.get?_removeAll] at hpending
          split at hpending
          · cases hpending
          · next hwithout => exact .spared hpending rfl hfound hacceptable rfl hwithout

/-- `reject` brings in transactions of the rejected block at most. -/
theorem reject (clock : UInt64) (id : Hash) : PoolStep e (e.reject clock id).2 := by
  unfold Engine.reject
  split
  · exact .of_keeps (.refl e)
  split
  · exact .of_keeps (.refl e)
  · next entry _ =>
    -- forgetting the block leaves the pool alone; its transactions come back through admission
    have hforget : PoolStep e (e.forget id entry.block) := .of_keeps (.congr rfl rfl rfl)
    have hnotify (m : Engine) : PoolStep m (m.notify (.rejected id)) :=
      .of_keeps (.congr rfl rfl rfl)
    have same (m : Engine) : m.SameChain (m.notify (.rejected id)) :=
      ⟨rfl, rfl, rfl, rfl, rfl, rfl⟩
    simp only []
    split
    · have hreadd := hforget.trans (PoolStep.readd clock entry.block.txs)
        (sameChain_readd _ clock entry.block.txs)
      exact hreadd.trans (hnotify _) (same _)
    · exact hforget.trans (hnotify _) (same _)

/-- The pool is lost when the node stops. -/
theorem atRest (e : Engine) (g : Genesis) (settings : Settings) (store : Store) (tip : Block) :
    PoolStep e (Engine.atRest g settings store tip) where
  consistent _ := Mempool.consistent_empty _
  origin h := nomatch h.symm.trans (get?_atRest ..)

end PoolStep

/-- Every request is a `PoolStep`. -/
theorem poolStep_after (e : Engine) (clock : UInt64) (request : Request) :
    PoolStep e (e.after clock request) := by
  -- most requests bring nothing in; those that do go through the checks of admission
  cases request with
  | parse bytes => exact .of_keeps (.parse bytes)
  | verify block => exact .of_keeps (.verify clock block)
  | accept id => exact .accept id
  | reject id => exact .reject clock id
  | prefer id => exact .of_keeps (.prefer id)
  | build => exact .of_keeps (.build clock)
  | submit tx => exact .submit clock tx
  | gossip payload =>
    simp only [Engine.after, receiveGossip]
    split
    · exact .of_keeps (.refl e)
    · exact .submitAll clock _ 0
  | prune => exact .of_keeps (.pruneMempool clock)
  | takeFresh | takeNotices | signal | refuse _ => exact .of_keeps (.congr rfl rfl rfl)
  | reopen g settings =>
    simp only [Engine.after]
    split
    · next opened hopened =>
      obtain ⟨g', store, tip, rfl⟩ := eq_atRest_of_start hopened
      exact .atRest e g' settings store tip
    · exact .of_keeps (.refl e)

/-! ## What is true of pending transactions -/

/-- The pool is consistent, and what is pending is signed by its sender and of an allowed form. -/
structure Pooled (e : Engine) : Prop where
  consistent : e.mempool.Consistent
  admitted : ∀ {id : Hash} {tx : Transaction}, e.mempool.get? id = some tx →
    tx.verifySignature = .ok () ∧ Ledger.validateForm e.genesis tx.unsigned = .ok ()

/--
A `PoolStep` keeps a state `Pooled`: what was found about a transaction alone stays true of it.
-/
theorem Pooled.step (hp : e.Pooled) (hstep : PoolStep e e') : e'.Pooled where
  consistent := hstep.consistent hp.consistent
  admitted hpending := by
    -- what was pending keeps what was found; what was admitted has just been checked
    cases hstep.origin hpending with
    | kept hold hgenesis | spared hold hgenesis => exact hgenesis ▸ hp.admitted hold
    | admitted same hpasses =>
      obtain ⟨-, hsigned, hform, -⟩ := checkAdmission_eq_ok_iff.1 hpasses
      exact ⟨hsigned, same.genesis ▸ hform⟩

end Engine

/-- Every state of `Reach` is `Pooled`. -/
theorem Reach.pooled {g : Genesis} {h : History} {e : Engine} (hreach : Reach g h e) :
    e.Pooled := by
  -- induction on the run: nothing is pending at its start
  induction hreach with
  | start hstart =>
    obtain ⟨g', store, tip, rfl⟩ := Engine.eq_atRest_of_start (congrArg Prod.fst hstart)
    exact ⟨Mempool.consistent_empty _, fun hpending =>
      nomatch hpending.symm.trans (Engine.get?_atRest ..)⟩
  | call clock _ _ ih => exact ih.step (Engine.poolStep_after _ clock _)

end LeaseChain
