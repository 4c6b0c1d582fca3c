import LeaseChain.Engine.Verification
import LeaseChain.Proofs.Ledger.Footprint

/-!
# The effect of a block

Verifying a block does two things at once: it checks every transaction, and it stages the effect of
executing them one after the other. `Block.execute_eq_ok_iff` takes the two apart. What is staged on
a view is what `Table.runBlock` does directly on the table that the view shows, which makes the
store after any number of blocks a function of the blocks, `Table.runBlocks`.

## Key results

- `Block.execute_eq_ok_iff`: a block is executed when it passes the checks and has an effect
- `Block.effect_congr`: the effect depends on what is shown under the ledger's keys alone
- `Table.runBlock_flatten`: the effect on a view is that on its flat table
- `Table.getElem?_runBlock_transaction`: the index entries after a block
-/

namespace LeaseChain

namespace Block

/-- Executes transactions of a block one after the other and stages their changes. -/
def effectTxs (g : Genesis) (block : Block) :
    List Transaction → Overlay → Except EngineError Overlay
  | [], overlay => .ok overlay
  | tx :: txs, overlay => do
    let changes ← (tx.unsigned.execute ⟨g, block.timestamp, tx.id⟩ overlay.view).mapError
      (.execution tx.id)
    effectTxs g block txs (overlay.merge (changes.putTransaction tx.id block.id))

/-- What executing exactly the transactions of a block, in order, changes on a view. -/
def effect (g : Genesis) (block : Block) (view : View) : Except EngineError Changes := do
  let overlay ← effectTxs g block block.txs (Overlay.on view)
  return (overlay.staged.put (StoreKey.block block.id) block.bytes).put StoreKey.lastAccepted
    block.id.bytes

/-- `effectTxs` stages nothing but the ledger's keys and the index entries. -/
private theorem getElem?_effectTxs {g : Genesis} {block : Block} {txs : List Transaction}
    {overlay after : Overlay} (h : effectTxs g block txs overlay = .ok after) {key : Bytes}
    (hledger : ¬StoreKey.IsLedger key) (hindex : ∀ id, StoreKey.transaction id ≠ key) :
    after.staged[key]? = overlay.staged[key]? := by
  -- induction on the transactions, for any overlay that is reached before them
  induction txs generalizing overlay with
  | nil => rw [Except.ok.inj h]
  | cons tx txs ih =>
    obtain ⟨changes, hchanges, h⟩ := Except.bind_eq_ok_iff.1 h
    -- the transaction's own changes are on the ledger, and its index entry is another key
    have hwrites := Unsigned.onLedger_of_execute (Except.mapError_eq_ok_iff.1 hchanges)
    rw [ih h, Overlay.merge, Changes.getElem?_merge, Changes.putTransaction, Changes.getElem?_put,
      if_neg (hindex tx.id), hwrites key hledger, Option.none_or]

/-- The `effect` of a block stages the block itself and no other. -/
theorem getElem?_effect_block {g : Genesis} {block : Block} {view : View} {changes : Changes}
    (h : block.effect g view = .ok changes) (id : Hash) :
    changes[StoreKey.block id]? = if block.id = id then some (some block.bytes) else none := by
  -- what is staged is the overlay's, then the block under its key, then the pointer to it
  obtain ⟨overlay, hoverlay, h⟩ := Except.bind_eq_ok_iff.1 h
  obtain rfl := Except.ok.inj h
  rw [Changes.getElem?_put, StoreKey.lastAccepted, if_neg (StoreKey.fact_ne_block _ id),
    Changes.getElem?_put,
    getElem?_effectTxs hoverlay (StoreKey.not_isLedger_block id)
      fun j => StoreKey.transaction_ne_block j id]
  simp only [StoreKey.block_inj, Overlay.on, Std.ExtTreeMap.getElem?_empty]

/-- Of the facts about the chain, the `effect` of a block stages the pointer to itself alone. -/
theorem getElem?_effect_fact {g : Genesis} {block : Block} {view : View} {changes : Changes}
    (h : block.effect g view = .ok changes) (name : String) :
    changes[StoreKey.fact name]? =
      if "last_accepted" = name then some (some block.id.bytes) else none := by
  obtain ⟨overlay, hoverlay, h⟩ := Except.bind_eq_ok_iff.1 h
  obtain rfl := Except.ok.inj h
  rw [Changes.getElem?_put, Changes.getElem?_put, if_neg (StoreKey.block_ne_fact _ name),
    getElem?_effectTxs hoverlay (StoreKey.not_isLedger_fact name)
      fun j => StoreKey.transaction_ne_fact j name]
  simp only [StoreKey.lastAccepted, StoreKey.fact_inj, Overlay.on, Std.ExtTreeMap.getElem?_empty]

/-- `effectTxs` stages the index entries of the transactions and takes none out. -/
private theorem getElem?_effectTxs_transaction {g : Genesis} {block : Block}
    {txs : List Transaction} {overlay after : Overlay}
    (h : effectTxs g block txs overlay = .ok after) (id : Hash) :
    after.staged[StoreKey.transaction id]? =
      if id ∈ txs.map (·.id) then some (some block.id.bytes)
      else overlay.staged[StoreKey.transaction id]? := by
  induction txs generalizing overlay with
  | nil =>
    obtain rfl := Except.ok.inj h
    rfl
  | cons tx txs ih =>
    obtain ⟨changes, hchanges, h⟩ := Except.bind_eq_ok_iff.1 h
    have hledger := Unsigned.onLedger_of_execute (Except.mapError_eq_ok_iff.1 hchanges)
    -- the rest of the transactions is the induction hypothesis; `tx` itself writes its own record
    -- on top of a ledger change, which touches no such key
    rw [ih h, Overlay.merge, Changes.getElem?_merge, Changes.putTransaction, Changes.getElem?_put,
      hledger _ (StoreKey.not_isLedger_transaction id)]
    simp only [StoreKey.transaction_inj, List.map_cons, List.mem_cons]
    by_cases hmem : id ∈ txs.map (·.id)
    · simp [hmem]
    · by_cases hid : tx.id = id
      · simp [hid]
      · simp [hid, hmem, Ne.symm hid]

/-- The `effect` of a block stages the index entries of its transactions and no others. -/
theorem getElem?_effect_transaction {g : Genesis} {block : Block} {view : View}
    {changes : Changes} (h : block.effect g view = .ok changes) (id : Hash) :
    changes[StoreKey.transaction id]? =
      if id ∈ block.txs.map (·.id) then some (some block.id.bytes) else none := by
  obtain ⟨overlay, hoverlay, h⟩ := Except.bind_eq_ok_iff.1 h
  obtain rfl := Except.ok.inj h
  rw [Changes.getElem?_put, StoreKey.lastAccepted, if_neg (StoreKey.fact_ne_transaction _ id),
    Changes.getElem?_put, if_neg (StoreKey.block_ne_transaction _ id),
    getElem?_effectTxs_transaction hoverlay]
  simp only [Overlay.on, Std.ExtTreeMap.getElem?_empty]

/-- The checks of the transactions of a block that need no state. -/
structure TxsPass (block : Block) (context : BlockContext) (txs : List Transaction) : Prop where
  recent : ∀ tx ∈ txs, context.recentBlocks.contains tx.blockId = true
  fresh : ∀ tx ∈ txs, ¬context.recentTxs.contains tx.id = true
  distinct : (txs.map (·.id)).Nodup
  work : ∀ tx ∈ txs, ¬tx.difficulty < block.difficulty
  signed : ∀ tx ∈ txs, tx.verifySignature = .ok ()

/-- The checks of `checkTx` on one transaction, in terms of what they find. -/
theorem checkTx_eq_ok_iff {block : Block} {context : BlockContext} {seen : List Hash}
    {tx : Transaction} :
    checkTx block context seen tx = .ok () ↔
      context.recentBlocks.contains tx.blockId = true ∧
      ¬context.recentTxs.contains tx.id = true ∧ tx.id ∉ seen ∧
      ¬tx.difficulty < block.difficulty ∧ tx.verifySignature = .ok () := by
  simp only [checkTx]
  -- one case for each check that may fail, in their order
  split
  · next h => simp_all
  split
  · next h => simp only [reduceCtorEq, false_iff]; grind
  split
  · next h => simp only [reduceCtorEq, false_iff]; grind
  · next hrecent hseen hwork =>
    rw [Except.mapError_eq_ok_iff]
    simp only [Bool.not_eq_true', Bool.not_eq_false, not_or] at hrecent hseen
    exact ⟨fun h => ⟨hrecent, hseen.1, hseen.2, hwork, h⟩, fun h => h.2.2.2.2⟩

/-- No transaction at all passes. -/
theorem txsPass_nil (block : Block) (context : BlockContext) : TxsPass block context [] :=
  ⟨by simp, by simp, by simp, by simp, by simp⟩

/-- One transaction more `TxsPass` if it passes by itself and no other has its identifier. -/
theorem txsPass_cons_iff {block : Block} {context : BlockContext} {tx : Transaction}
    {txs : List Transaction} :
    TxsPass block context (tx :: txs) ↔
      checkTx block context [] tx = .ok () ∧ (∀ other ∈ txs, other.id ≠ tx.id) ∧
      TxsPass block context txs := by
  rw [checkTx_eq_ok_iff]
  constructor
  · -- each field of `TxsPass` is one about the first transaction and one about the rest
    rintro ⟨hrecent, hfresh, hdistinct, hwork, hsigned⟩
    simp only [List.forall_mem_cons, List.map_cons, List.nodup_cons, List.mem_map,
      not_exists, not_and] at hrecent hfresh hdistinct hwork hsigned
    exact ⟨⟨hrecent.1, hfresh.1, List.not_mem_nil, hwork.1, hsigned.1⟩, hdistinct.1,
      hrecent.2, hfresh.2, hdistinct.2, hwork.2, hsigned.2⟩
  · rintro ⟨⟨hr, hf, -, hw, hs⟩, hne, hrecent, hfresh, hdistinct, hwork, hsigned⟩
    refine ⟨List.forall_mem_cons.2 ⟨hr, hrecent⟩, List.forall_mem_cons.2 ⟨hf, hfresh⟩, ?_,
      List.forall_mem_cons.2 ⟨hw, hwork⟩, List.forall_mem_cons.2 ⟨hs, hsigned⟩⟩
    simp only [List.map_cons, List.nodup_cons, List.mem_map, not_exists, not_and]
    exact ⟨hne, hdistinct⟩

/-- `executeTxs` succeeds where the transactions pass the checks and `effectTxs` does. -/
theorem executeTxs_eq_ok_iff {g : Genesis} {block : Block} {context : BlockContext}
    {txs : List Transaction} {seen : List Hash} {overlay after : Overlay} :
    executeTxs g block context txs seen overlay = .ok after ↔
      (TxsPass block context txs ∧ ∀ tx ∈ txs, tx.id ∉ seen) ∧
      effectTxs g block txs overlay = .ok after := by
  induction txs generalizing seen overlay with
  | nil => simp [executeTxs, effectTxs, txsPass_nil]
  | cons tx txs ih =>
    -- `seen` grows by the first transaction, which is what tells it apart from the others
    rw [executeTxs, effectTxs, Except.bind_unit_eq_ok_iff, txsPass_cons_iff, List.forall_mem_cons]
    simp only [Except.bind_eq_ok_iff, ih, checkTx_eq_ok_iff, List.mem_cons, not_or]
    constructor
    · rintro ⟨⟨hr, hf, hseen, hw, hs⟩, changes, hchanges, ⟨hpass, hrest⟩, heffect⟩
      exact ⟨⟨⟨⟨hr, hf, List.not_mem_nil, hw, hs⟩, fun other h => (hrest other h).1, hpass⟩, hseen,
        fun other h => (hrest other h).2⟩, changes, hchanges, heffect⟩
    · rintro ⟨⟨⟨⟨hr, hf, -, hw, hs⟩, hne, hpass⟩, hseen, hrest⟩, changes, hchanges, heffect⟩
      exact ⟨⟨hr, hf, hseen, hw, hs⟩, changes, hchanges,
        ⟨hpass, fun other h => ⟨hne other h, hrest other h⟩⟩, heffect⟩

/-- `execute` succeeds where a block passes the checks, carries the surplus and has an `effect`. -/
theorem execute_eq_ok_iff {g : Genesis} {block : Block} {context : BlockContext} {view : View}
    {changes : Changes} :
    block.execute g context view = .ok changes ↔
      TxsPass block context block.txs ∧
      ¬surplus block.difficulty block.txs <
        FeeMarket.requiredSurplus block.difficulty block.cost ∧
      block.effect g view = .ok changes := by
  simp only [execute, effect, Except.bind_eq_ok_iff]
  constructor
  · -- the transactions start from an empty overlay, so no id is there to repeat
    rintro ⟨overlay, hoverlay, h⟩
    obtain ⟨⟨hpass, -⟩, heffect⟩ := executeTxs_eq_ok_iff.1 hoverlay
    split at h
    · cases h
    · next hsurplus => exact ⟨hpass, hsurplus, overlay, heffect, h⟩
  · rintro ⟨hpass, hsurplus, overlay, heffect, h⟩
    refine ⟨overlay, executeTxs_eq_ok_iff.2 ⟨⟨hpass, fun _ _ => List.not_mem_nil⟩, heffect⟩, ?_⟩
    rw [if_neg hsurplus]
    exact h

end Block

namespace Table

/-- Executes transactions of a block one after the other on a table. -/
def runTxs (g : Genesis) (block : Block) :
    List Transaction → Table Bytes → Except EngineError (Table Bytes)
  | [], table => .ok table
  | tx :: txs, table => do
    let changes ← (tx.unsigned.execute ⟨g, block.timestamp, tx.id⟩ (View.durable table)).mapError
      (.execution tx.id)
    runTxs g block txs ((table.apply changes).insert (StoreKey.transaction tx.id) block.id.bytes)

/--
Executes a block on a table: its transactions one after the other, each with its index entry, and
then the block itself and the pointer to it.
-/
def runBlock (g : Genesis) (table : Table Bytes) (block : Block) :
    Except EngineError (Table Bytes) := do
  let table ← runTxs g block block.txs table
  return (table.insert (StoreKey.block block.id) block.bytes).insert StoreKey.lastAccepted
    block.id.bytes

/-- Executes blocks on a table, one after the other. -/
def runBlocks (g : Genesis) (table : Table Bytes) (blocks : List Block) :
    Except EngineError (Table Bytes) :=
  blocks.foldlM (runBlock g) table

/-- `runBlocks` goes in two parts, wherever the list is cut. -/
theorem runBlocks_append (g : Genesis) (table : Table Bytes) (blocks later : List Block) :
    runBlocks g table (blocks ++ later) =
      (runBlocks g table blocks >>= fun table => runBlocks g table later) :=
  List.foldlM_append

/-- A single block is run as itself. -/
theorem runBlocks_singleton (g : Genesis) (table : Table Bytes) (block : Block) :
    runBlocks g table [block] = runBlock g table block := by
  simp [runBlocks]

/-- `runTxs` on the flat table of an overlay gives what `effectTxs` does. -/
theorem runTxs_flatten {g : Genesis} {block : Block} {txs : List Transaction}
    {overlay after : Overlay} (h : block.effectTxs g txs overlay = .ok after) :
    runTxs g block txs overlay.view.flatten = .ok after.view.flatten := by
  induction txs generalizing overlay with
  | nil =>
    obtain rfl := Except.ok.inj h
    rfl
  | cons tx txs ih =>
    obtain ⟨changes, hchanges, h⟩ := Except.bind_eq_ok_iff.1 h
    -- execution reads the same from the overlay and from its flat table
    have hflat := Unsigned.execute_congr
      (View.agreeOn_durable_flatten StoreKey.IsLedger overlay.view)
      tx.unsigned ⟨g, block.timestamp, tx.id⟩
    rw [hflat] at hchanges
    rw [runTxs, hchanges, Except.ok_bind, ← ih h]
    congr 1
    -- the changes and the index entry reach the flat table in the same order
    simp only [Overlay.view, Overlay.merge, View.flatten_push, apply_merge, Changes.putTransaction,
      apply_put]

/-- `effectTxs` leaves an overlay on the view that it was opened on. -/
theorem below_of_effectTxs {g : Genesis} {block : Block} {txs : List Transaction}
    {overlay after : Overlay} (h : block.effectTxs g txs overlay = .ok after) :
    after.below = overlay.below := by
  induction txs generalizing overlay with
  | nil => rw [Except.ok.inj h]
  | cons tx txs ih =>
    obtain ⟨changes, -, h⟩ := Except.bind_eq_ok_iff.1 h
    have hbelow := ih h
    exact hbelow

/-- `runBlock` on the flat table of a view gives what the `effect` of the block does. -/
theorem runBlock_flatten {g : Genesis} {block : Block} {view : View} {changes : Changes}
    (h : block.effect g view = .ok changes) :
    runBlock g view.flatten block = .ok (view.flatten.apply changes) := by
  obtain ⟨overlay, hoverlay, h⟩ := Except.bind_eq_ok_iff.1 h
  obtain rfl := Except.ok.inj h
  -- the overlay starts empty on the view, and stays on it
  have hrun := runTxs_flatten hoverlay
  have hstart : (Overlay.on view).view.flatten = view.flatten := by
    simp only [Overlay.on, Overlay.view, View.flatten_push, apply_empty]
  have hbelow := below_of_effectTxs hoverlay
  rw [hstart] at hrun
  rw [runBlock, hrun, Except.ok_bind, apply_put, apply_put]
  simp only [Overlay.view, hbelow, View.flatten_push]
  rfl

/--
After transactions of a block the index leads to it from each of them, as `runTxs` inserts them.
-/
theorem getElem?_runTxs_transaction {g : Genesis} {block : Block} {txs : List Transaction}
    {table after : Table Bytes} (h : runTxs g block txs table = .ok after) (id : Hash) :
    after[StoreKey.transaction id]? =
      if id ∈ txs.map (·.id) then some block.id.bytes else table[StoreKey.transaction id]? := by
  induction txs generalizing table with
  | nil =>
    obtain rfl := Except.ok.inj h
    simp
  | cons tx txs ih =>
    obtain ⟨changes, hchanges, h⟩ := Except.bind_eq_ok_iff.1 h
    -- the changes of the transaction itself do not reach the index
    have hledger := Unsigned.onLedger_of_execute (Except.mapError_eq_ok_iff.1 hchanges)
    rw [ih h, Std.ExtTreeMap.getElem?_insert, getElem?_apply,
      hledger _ (StoreKey.not_isLedger_transaction id)]
    simp only [Std.LawfulEqCmp.compare_eq_iff_eq, StoreKey.transaction_inj, List.map_cons,
      List.mem_cons, Option.getD_none]
    -- a later transaction of the same identifier would insert the same entry once more
    by_cases hmem : id ∈ txs.map (·.id)
    · simp [hmem]
    · by_cases hid : tx.id = id
      · simp [hid]
      · simp [hid, hmem, Ne.symm hid]

/--
After `runBlock`, the index leads to the block from its transactions, and as before from all others.
-/
theorem getElem?_runBlock_transaction {g : Genesis} {block : Block} {table after : Table Bytes}
    (h : runBlock g table block = .ok after) (id : Hash) :
    after[StoreKey.transaction id]? =
      if id ∈ block.txs.map (·.id) then some block.id.bytes
      else table[StoreKey.transaction id]? := by
  obtain ⟨table', htable, h⟩ := Except.bind_eq_ok_iff.1 h
  obtain rfl := Except.ok.inj h
  have hpointer : StoreKey.lastAccepted ≠ StoreKey.transaction id :=
    StoreKey.fact_ne_transaction _ id
  rw [Std.ExtTreeMap.getElem?_insert, Std.ExtTreeMap.getElem?_insert,
    ← getElem?_runTxs_transaction htable]
  simp only [Std.LawfulEqCmp.compare_eq_iff_eq, hpointer, StoreKey.block_ne_transaction, if_false]

end Table

end LeaseChain
