import LeaseChain.Engine.Opening
import LeaseChain.Proofs.Block.Effect
import LeaseChain.Proofs.Genesis.Document
import LeaseChain.Proofs.Wire.Frames

/-!
# Opening a store

The first start writes balances, the first block and three facts about the chain, and nothing else.
A store that holds these facts opens with the parameters and the last accepted block that they name.

## Key results

- `Engine.genesisState_eq_ok`: what the genesis state holds
- `Engine.storedState_eq_ok`: what a store with the facts of a chain opens as
- `Engine.start_empty`: an engine that started on an empty store is at rest on the first block
-/

namespace LeaseChain

/-- `Block.first` has height and time zero and no transactions. -/
theorem Block.first_eq_ok {framing : Framing} {g : Genesis} {b : Block}
    (h : first framing g = .ok b) :
    b.IsFramed framing ∧ b.height = 0 ∧ b.timestamp = 0 ∧ b.txs = [] := by
  obtain ⟨hcontent, hframed⟩ := ofContent_eq_ok_iff.1 h
  refine ⟨hframed, ?_⟩
  simp only [height, timestamp, txs, hcontent]
  exact ⟨trivial, trivial, trivial⟩

namespace Engine

theorem onLedger_creditAll (credits : List (PublicKey × UInt64)) :
    (creditAll credits).OnLedger := by
  -- the fold keeps what holds of the empty changes
  have hempty := Changes.onLedger_empty
  unfold creditAll
  generalize (∅ : Changes) = changes at hempty ⊢
  induction credits generalizing changes with
  | nil => exact hempty
  | cons credit credits ih => exact ih _ (hempty.putBalance _ _)

/-- `genesisState` holds the block, the pointer and the document beside the balances. -/
theorem genesisState_eq_ok {g : Genesis} {block : Block} {changes : Changes}
    (h : genesisState g = .ok (block, changes)) :
    g.validate = .ok () ∧ Block.first framing g = .ok block ∧
    (∀ id, changes[StoreKey.block id]? =
      if block.id = id then some (some block.bytes) else none) ∧
    (∀ id, changes[StoreKey.transaction id]? = none) ∧
    changes[StoreKey.lastAccepted]? = some (some block.id.bytes) ∧
    changes[StoreKey.genesis]? = some (some g.toDocument) ∧
    changes[StoreKey.initialized]? = some (some [1]) := by
  obtain ⟨hvalid, h⟩ := Except.bind_unit_eq_ok_iff.1 h
  obtain ⟨first, hfirst, h⟩ := Except.bind_eq_ok_iff.1 h
  obtain ⟨credits, -, h⟩ := Except.bind_eq_ok_iff.1 h
  obtain ⟨rfl, rfl⟩ := Prod.mk.inj (Except.ok.inj h)
  rw [Except.mapError_eq_ok_iff] at hvalid hfirst
  -- the facts are written over the balances, at keys that are not the ledger's
  have hledger := onLedger_creditAll credits
  refine ⟨hvalid, hfirst, fun id => ?_, fun id => ?_, ?_, ?_, ?_⟩
  · simp only [Changes.getElem?_put, StoreKey.lastAccepted, StoreKey.genesis, StoreKey.initialized,
      StoreKey.fact_ne_block, if_false, StoreKey.block_inj,
      hledger _ (StoreKey.not_isLedger_block id)]
  · simp only [Changes.getElem?_put, StoreKey.lastAccepted, StoreKey.genesis, StoreKey.initialized,
      StoreKey.fact_ne_transaction, StoreKey.block_ne_transaction, if_false,
      hledger _ (StoreKey.not_isLedger_transaction id)]
  · simp [Changes.getElem?_put, StoreKey.lastAccepted, StoreKey.genesis, StoreKey.initialized]
  · simp [Changes.getElem?_put, StoreKey.lastAccepted, StoreKey.genesis, StoreKey.initialized]
  · simp [Changes.getElem?_put, StoreKey.initialized]

/-- `loadBlock` reads a framed block back from its bytes. -/
theorem loadBlock_of_framed {entries : Table Bytes} {b : Block} (hframed : b.IsFramed framing)
    (hbytes : entries[StoreKey.block b.id]? = some b.bytes) :
    loadBlock entries b.id = .ok (some b) := by
  have hread : Block.ofBytes framing b.bytes = .ok b := hframed
  simp only [loadBlock, hbytes, hread]
  rfl

/-- `storedState` is the parameters of the document and the block that the pointer leads to. -/
theorem storedState_eq_ok {entries : Table Bytes} {g : Genesis} {tip : Block}
    (hvalid : g.validate = .ok ()) (hdocument : entries[StoreKey.genesis]? = some g.toDocument)
    (hpointer : entries[StoreKey.lastAccepted]? = some tip.id.bytes)
    (hload : loadBlock entries tip.id = .ok (some tip)) : storedState entries = .ok (g, tip) := by
  simp only [storedState, factOf, hdocument, hpointer, Except.ok_bind,
    Genesis.ofDocument_toDocument hvalid, Except.mapError_ok, Hash.ofBytes?_bytes, hload]
  rfl

/-- `start` leaves an engine `atRest`. -/
theorem eq_atRest_of_start {g : Genesis} {settings : Settings} {store : Store} {e : Engine}
    (h : (start g settings store).1 = .ok e) :
    ∃ g' store' tip, e = atRest g' settings store' tip := by
  unfold start at h
  split at h
  · split at h
    · cases h
    · next g' tip _ => exact ⟨g', store, tip, (Except.ok.inj h).symm⟩
  · split at h
    · cases h
    · next block _ _ =>
      split at h
      · cases h
      · next store' _ => exact ⟨g, store', block, (Except.ok.inj h).symm⟩

/-- `start` on an empty store leaves an engine `atRest` on the first block. -/
theorem start_empty {g : Genesis} {settings : Settings} {refusals : Nat} {e : Engine}
    {store : Store} (h : start g settings ⟨∅, refusals⟩ = (.ok e, store)) :
    ∃ block changes, genesisState g = .ok (block, changes) ∧ e = atRest g settings store block ∧
      store.entries = Table.apply ∅ changes := by
  -- an empty store is not initialized, and the genesis state is committed to it
  have hempty : ¬(⟨∅, refusals⟩ : Store).entries.contains StoreKey.initialized = true := by simp
  rw [start, if_neg hempty] at h
  split at h
  · cases (Prod.mk.inj h).1
  · next block changes hstate =>
    cases refusals with
    | succ n => cases (Prod.mk.inj h).1
    | zero =>
      obtain ⟨he, rfl⟩ := Prod.mk.inj h
      exact ⟨block, changes, hstate, (Except.ok.inj he).symm, rfl⟩

end Engine

end LeaseChain
