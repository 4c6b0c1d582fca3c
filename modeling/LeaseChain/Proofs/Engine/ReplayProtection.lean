import LeaseChain.Engine.Query
import LeaseChain.Proofs.Engine.Replay

/-!
# No transaction is included twice

Verification looks for a transaction in a window of recent blocks only, and never in the index. The
pedigree of a verified block says that this is enough: no identifier comes twice on the way back to
the first block. So where one chain is accepted, the index, which names the last block that includes
a transaction, names the only one.

## Key results

- `Table.getElem?_replay_transaction`: the index after a chain
- `Engine.confirmedIn_eq_find?`: what a query for a transaction answers
- `Reach.included_once`: no transaction is on a path twice, and the query finds its block
-/

namespace LeaseChain

variable {g : Genesis} {h : History} {e : Engine}

/-- `replay` leaves an index that leads from a transaction to the last block with it. -/
theorem Table.getElem?_replay_transaction {blocks : List Block} {table : Table Bytes}
    (hreplay : replay g blocks.reverse = .ok table) (id : Hash) :
    table[StoreKey.transaction id]? =
      (blocks.find? fun b => id ∈ b.txIds).map fun b => b.id.bytes := by
  induction blocks generalizing table with
  | nil =>
    obtain ⟨⟨block, changes⟩, hstate, hreplay⟩ := Except.bind_eq_ok_iff.1 hreplay
    -- the genesis state has no index entries
    obtain rfl : Table.apply ∅ changes = table := Except.ok.inj hreplay
    have hnone := (Engine.genesisState_eq_ok hstate).2.2.2.1 id
    rw [getElem?_apply, hnone, Std.ExtTreeMap.getElem?_empty]
    rfl
  | cons block blocks ih =>
    rw [List.reverse_cons, replay_concat] at hreplay
    obtain ⟨before, hbefore, hrun⟩ := Except.bind_eq_ok_iff.1 hreplay
    have hindex := getElem?_runBlock_transaction hrun id
    -- the newest block overwrites what the blocks before it wrote
    rw [ih hbefore] at hindex
    rw [hindex, List.find?_cons]
    by_cases hmem : id ∈ block.txIds
    · have hmem' : id ∈ block.txs.map (·.id) := hmem
      simp [hmem, hmem']
    · have hmem' : id ∉ block.txs.map (·.id) := hmem
      simp [hmem, hmem']

/-- `confirmedIn` answers with the last accepted block that includes the transaction. -/
theorem Engine.confirmedIn_eq_find? (hreach : Reach g h e) (hfree : h.CollisionFree)
    (hlinear : h.Linear) (txId : Hash) :
    e.confirmedIn txId = .ok ((h.accepted.find? fun b => txId ∈ b.txIds).map (·.id)) := by
  have hindex :=
    Table.getElem?_replay_transaction (hreach.replayed hfree hlinear).stored txId
  rw [confirmedIn, durable, View.get?_durable, hindex]
  cases h.accepted.find? fun b => txId ∈ b.txIds with
  | none => rfl
  | some b => simp only [Option.map_some, Hash.ofBytes?_bytes]

/-- `txIds` without repetition on a path tell which block includes a transaction. -/
theorem Block.eq_of_mem_txIds {path : List Block} (hnodup : (path.flatMap txIds).Nodup)
    {a b : Block} (ha : a ∈ path) (hb : b ∈ path) {id : Hash} (hida : id ∈ a.txIds)
    (hidb : id ∈ b.txIds) : a = b := by
  induction path with
  | nil => cases ha
  | cons c path ih =>
    rw [List.flatMap_cons, List.nodup_append] at hnodup
    obtain ⟨-, hrest, hapart⟩ := hnodup
    -- an id of the front block stands in no block behind it
    have hnot {d : Block} (hd : d ∈ path) (hidc : id ∈ c.txIds) (hidd : id ∈ d.txIds) : False :=
      hapart id hidc id (List.mem_flatMap.2 ⟨d, hd, hidd⟩) rfl
    rcases List.mem_cons.1 ha with rfl | ha'
    · rcases List.mem_cons.1 hb with rfl | hb'
      · rfl
      · exact (hnot hb' hida hidb).elim
    · rcases List.mem_cons.1 hb with rfl | hb'
      · exact (hnot ha' hidb hida).elim
      · exact ih hrest ha' hb'

/-- `Linear` chains include a transaction in one accepted block at most. -/
theorem Reach.eq_of_accepted_mem_txIds (hreach : Reach g h e) (hfree : h.CollisionFree)
    (htxfree : h.TxCollisionFree) (hlinear : h.Linear) {a b : Block} (ha : a ∈ h.accepted)
    (hb : b ∈ h.accepted) {txId : Hash} (hida : txId ∈ a.txIds) (hidb : txId ∈ b.txIds) :
    a = b := by
  have hsound := (hreach.coherent hfree).sound
  -- the chain is the lineage of its tip, and so its pedigree
  obtain ⟨tip, path, hchain⟩ := h.exists_front []
  have hchain : h.chain = tip :: path := hchain
  have htip := hsound.verified_of_mem_chain (hchain ▸ List.mem_cons_self : tip ∈ h.chain)
  have hpedigree :=
    hreach.pedigree_of_lineage hfree htip (hchain ▸ hsound.lineage_chain hlinear)
  have hnodup := hpedigree.distinct htxfree
  rw [← hchain] at hnodup
  exact Block.eq_of_mem_txIds hnodup (List.mem_append_left _ ha) (List.mem_append_left _ hb) hida
    hidb

/--
On every `Lineage` of a verified or accepted block the `txIds` of the blocks have no duplicate.
Where the run is `Linear`, `confirmedIn` finds exactly the accepted block that includes a
transaction, of which there is at most one, and finds nothing exactly when there is none.
-/
theorem Reach.included_once (hreach : Reach g h e) (hfree : h.CollisionFree)
    (htxfree : h.TxCollisionFree) :
    (∀ b, b ∈ h.verified ∨ b ∈ h.chain → (∃ path, h.Lineage (b :: path)) ∧
      ∀ path, h.Lineage (b :: path) → ((b :: path).flatMap Block.txIds).Nodup) ∧
    (h.Linear → ∀ txId,
      (∀ id, e.confirmedIn txId = .ok (some id) ↔
        ∃ b ∈ h.accepted, b.id = id ∧ txId ∈ b.txIds ∧ ∀ a ∈ h.accepted, txId ∈ a.txIds → a = b) ∧
      (e.confirmedIn txId = .ok none ↔ ∀ b ∈ h.accepted, txId ∉ b.txIds)) := by
  have hsound := (hreach.coherent hfree).sound
  refine ⟨fun b hb => ?_, fun hlinear txId => ?_⟩
  · have hb : b = h.first ∨ b ∈ h.verified := hb.elim .inr hsound.verified_of_mem_chain
    refine ⟨?_, fun path hl => (hreach.pedigree_of_lineage hfree hb hl).distinct htxfree⟩
    obtain ⟨path, hp⟩ := hreach.pedigree hfree b hb
    exact ⟨path, hp.lineage⟩
  · rw [e.confirmedIn_eq_find? hreach hfree hlinear txId]
    refine ⟨fun id => ⟨fun hfound => ?_, ?_⟩, ?_⟩
    · -- the block that was found includes it, and no other does
      obtain ⟨b, hb, hid⟩ := Option.map_eq_some_iff.1 (Except.ok.inj hfound)
      have hmem : txId ∈ b.txIds := by simpa using List.find?_some hb
      have hbmem := List.mem_of_find?_eq_some hb
      exact ⟨b, hbmem, hid, hmem, fun a ha ha' =>
        hreach.eq_of_accepted_mem_txIds hfree htxfree hlinear ha hbmem ha' hmem⟩
    · -- whatever is found includes it, and is the only one that does
      rintro ⟨b, hb, rfl, hmem, hunique⟩
      cases hfind : h.accepted.find? fun b => txId ∈ b.txIds with
      | none =>
        have hnone := List.find?_eq_none.1 hfind b hb
        exact absurd (by simpa using hmem) hnone
      | some a =>
        have hmem' : txId ∈ a.txIds := by simpa using List.find?_some hfind
        rw [hunique a (List.mem_of_find?_eq_some hfind) hmem']
        rfl
    · rw [Except.ok.injEq, Option.map_eq_none_iff, List.find?_eq_none]
      simp only [decide_eq_true_eq]

/-- `confirmedIn` finds the accepted one of two siblings with the same transaction. -/
theorem Siblings.confirmedIn_forked :
    forked.2.confirmedIn claim.id = .ok (some left.id) ∧
    ∀ path, forked.1.Lineage (right :: path) → ((right :: path).flatMap Block.txIds).Nodup := by
  have htxs : forked.1.TxCollisionFree := by
    rw [history_forked, History.TxCollisionFree, ← List.map_flatMap]
    exact CollisionFree.of_ids Transaction.id_eq_of_write (by decide +kernel)
  obtain ⟨hnodup, hconfirmed⟩ := reach_forked.included_once collisionFree_forked htxs
  have hverified : right ∈ forked.1.verified := history_forked ▸ List.mem_cons_self
  refine ⟨((hconfirmed linear_forked claim.id).1 left.id).2 ?_, (hnodup right (.inl hverified)).2⟩
  rw [history_forked]
  decide +kernel

end LeaseChain
