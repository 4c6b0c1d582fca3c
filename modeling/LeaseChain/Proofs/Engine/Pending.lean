import LeaseChain.Proofs.Engine.Coherence
import LeaseChain.Proofs.Engine.Retention

/-!
# No pending transaction is confirmed

Admission refuses a transaction that the preferred block or a block behind it includes, by looking
at the index entries in its view. Layers add index entries and take none out, so that nothing that
is admitted is in the durable index; and as a block that is committed takes its transactions out of
the pool, nothing that stays pending comes into it later. The pool need not be pruned for this, and
the block need not have been built from the pool.

## Key results

- `Coherent.hasTransaction_of_viewFrom`: what is in the durable index is in every view
- `Reach.pending_admissible`: what is true of every pending transaction
-/

namespace LeaseChain

/-- `has` holds of a key that no layer deletes where the table has it. -/
theorem View.has_of_kept {layers : List Changes} {base : Table Bytes} {key : Bytes}
    (hkept : ∀ layer ∈ layers, layer[key]? ≠ some none)
    (hbase : (durable base).has key = true) : (⟨layers, base⟩ : View).has key = true := by
  induction layers with
  | nil => exact hbase
  | cons layer layers ih =>
    obtain ⟨hlayer, hlayers⟩ := List.forall_mem_cons.1 hkept
    have hbelow := ih hlayers
    show ((⟨layers, base⟩ : View).push layer).has key = true
    rw [has] at hbelow ⊢
    rw [get?_push]
    -- the nearest layer puts a value, or leaves the key to those below
    cases hwrite : layer[key]? with
    | none => exact hbelow
    | some change =>
      cases change with
      | none => exact absurd hwrite hlayer
      | some value => rfl

variable {g : Genesis} {h : History} {e e' : Engine}

/-- `hasTransaction` in the store implies it in the view of any block's child. -/
theorem Coherent.hasTransaction_of_viewFrom (hc : Coherent g h e) {id txId : Hash} {view : View}
    (hview : e.viewFrom id = .ok view) (hstored : e.durable.hasTransaction txId = true) :
    view.hasTransaction txId = true := by
  obtain ⟨hbase, hlayers⟩ := Engine.of_viewFrom hview
  obtain ⟨layers, base⟩ := view
  obtain rfl : base = e.store.entries := hbase
  refine View.has_of_kept (fun layer hlayer => ?_) hstored
  obtain ⟨j, entry, v, hentry, hv, rfl⟩ := hlayers layer hlayer
  obtain ⟨-, -, below, heffect⟩ := hc.arranged.checked hentry hv
  rw [Block.getElem?_effect_transaction heffect]
  split <;> exact nofun

/-- `checkAdmission` passes no transaction that is in the durable index. -/
theorem Coherent.hasTransaction_of_checkAdmission (hc : Coherent g h e') {clock : UInt64}
    {tx : Transaction} (same : e.SameChain e') (hpasses : e.checkAdmission clock tx = .ok ()) :
    e'.durable.hasTransaction tx.id = false := by
  obtain ⟨-, -, -, parent, -, -, -, -, -, -, view, hview, habsent, -⟩ :=
    Engine.checkAdmission_eq_ok_iff.1 hpasses
  rw [← same.viewFrom_eq] at hview
  exact Bool.eq_false_iff.2 fun hstored => habsent (hc.hasTransaction_of_viewFrom hview hstored)

/-- `committed` adds the block's own transactions to the durable index, and no others. -/
theorem Coherent.hasTransaction_of_committed (hc : Coherent g h e) {blockId txId : Hash}
    {entry : Tracked} {changes : Changes} (hfound : e.tracked[blockId]? = some entry)
    (hacceptable : Engine.acceptable blockId entry = .ok changes)
    (hentries : e'.store.entries = e.store.entries.apply changes)
    (hwithout : txId ∉ entry.block.txs.map (·.id)) :
    e'.durable.hasTransaction txId = e.durable.hasTransaction txId := by
  obtain ⟨-, -, view, heffect⟩ :=
    hc.arranged.checked hfound (Engine.acceptable_eq_ok_iff.1 hacceptable)
  simp only [View.hasTransaction, View.has, Engine.durable, View.get?_durable, hentries,
    Table.getElem?_apply, Block.getElem?_effect_transaction heffect, if_neg hwithout,
    Option.getD_none]

/-- `PoolStep` brings in no transaction that is in the durable index after it. -/
theorem Engine.PoolStep.unconfirmed (hstep : PoolStep e e') (hc : Coherent g h e) {h' : History}
    (hc' : Coherent g h' e') (hconsistent : e.mempool.Consistent)
    (hold : ∀ id tx, e.mempool.get? id = some tx → e.durable.hasTransaction tx.id = false)
    {id : Hash} {tx : Transaction} (hpending : e'.mempool.get? id = some tx) :
    e'.durable.hasTransaction tx.id = false := by
  cases hstep.origin hpending with
  | kept hbefore _ hentries =>
    rw [durable, hentries]
    exact hold id tx hbefore
  | spared hbefore _ hfound hacceptable hentries hwithout =>
    have hid : tx.id = id := hconsistent.id_eq hbefore
    rw [hc.hasTransaction_of_committed hfound hacceptable hentries (hid ▸ hwithout)]
    exact hold id tx hbefore
  | admitted same hpasses => exact hc'.hasTransaction_of_checkAdmission same hpasses

/--
`hasTransaction` in the store holds of nothing pending, along every run whose blocks the hash tells
apart.
-/
theorem Reach.unconfirmed (hreach : Reach g h e) (hfree : h.CollisionFree) :
    ∀ id tx, e.mempool.get? id = some tx → e.durable.hasTransaction tx.id = false := by
  induction hreach with
  | start hstart =>
    obtain ⟨g', store, tip, rfl⟩ := Engine.eq_atRest_of_start (congrArg Prod.fst hstart)
    exact fun id tx hpending => nomatch hpending.symm.trans (Engine.get?_atRest ..)
  | @call h e clock request hform hreach ih =>
    have hfree' := hfree.of_subset (h.blocks_subset_record e clock request)
    have hc := hreach.coherent hfree'
    intro id tx hpending
    exact (Engine.poolStep_after e clock request).unconfirmed hc
      ((hreach.call clock hform).coherent hfree) hreach.pooled.consistent (ih hfree') hpending

/--
In every reachable state, whatever the settings are, a transaction that the `mempool` holds stands
under its own identifier, passes `verifySignature` and `validateForm`, and is not in the durable
index as long as the hash tells the run's blocks apart.
-/
theorem Reach.pending_admissible (hreach : Reach g h e) {id : Hash} {tx : Transaction}
    (hpending : e.mempool.get? id = some tx) :
    tx.id = id ∧ tx.verifySignature = .ok () ∧
      Ledger.validateForm e.genesis tx.unsigned = .ok () ∧
      (h.CollisionFree → e.durable.hasTransaction tx.id = false) := by
  obtain ⟨hsigned, hform⟩ := hreach.pooled.admitted hpending
  exact ⟨hreach.pooled.consistent.id_eq hpending, hsigned, hform, fun hfree =>
    hreach.unconfirmed hfree id tx hpending⟩

namespace Siblings

theorem collisionFree_rejected : rejected.1.CollisionFree := by
  -- whether or not the block passed, it is the only one that was named
  have hblocks : rejected.1.blocks = [first, left] := by
    simp only [rejected, History.follow, History.record]
    split <;> rfl
  rw [History.CollisionFree, hblocks]
  exact CollisionFree.of_ids (·.id_eq) (by decide +kernel)

/-- `claim` of a block that was rejected is pending again, and is not confirmed. -/
theorem claim_admissible : Reach genesis rejected.1 rejected.2 ∧ rejected.1.CollisionFree ∧
    rejected.2.mempool.get? claim.id = some claim ∧ claim.verifySignature = .ok () ∧
    Ledger.validateForm rejected.2.genesis claim.unsigned = .ok () ∧
    rejected.2.durable.hasTransaction claim.id = false := by
  have hpending := claim_pending.1
  obtain ⟨-, hsigned, hform, hunconfirmed⟩ := reach_rejected.pending_admissible hpending
  exact ⟨reach_rejected, collisionFree_rejected, hpending, hsigned, hform,
    hunconfirmed collisionFree_rejected⟩

end Siblings

end LeaseChain
