import LeaseChain.Proofs.Engine.Replay
import LeaseChain.Proofs.Ledger.Isolation
import LeaseChain.Proofs.Ledger.Supply

/-!
# The supply of a chain

The genesis state credits the allocations, and every accepted block burns the fees of its
transactions. Where the credits sum to less than the largest word, nothing else happens to the
supply: it is the credits without the fees.

## Key results

- `Table.supply_runBlocks`: what blocks do to the supply when they are executed on a table
- `Engine.balance_genesisState`: the balances of the genesis state
- `Table.supply_genesis`: the supply of the genesis state
- `Genesis.supply_conserved`: the supply after a transaction, along a chain and along a run
-/

namespace LeaseChain

open Table (replay)

/-- The fees of transactions, exactly. -/
def Transaction.feesOf (g : Genesis) (txs : List Transaction) : Nat :=
  (txs.map fun tx => (tx.unsigned.fee g).toNat).sum

/-- The fees of all transactions of blocks, exactly. -/
def Block.feesOf (g : Genesis) (blocks : List Block) : Nat :=
  (blocks.map fun block => Transaction.feesOf g block.txs).sum

/--
The sum of the balances that allocations credit. Of two allocations to one key the later one counts.
-/
noncomputable def Genesis.credited (credits : List (PublicKey × UInt64)) : Nat :=
  ∑ holder, ((credits.reverse.lookup holder).getD 0).toNat

/-- Seen from the end by `lookup`, the last credit is the first that counts. -/
theorem lookup_reverse_concat (credits : List (PublicKey × UInt64)) (key : PublicKey)
    (amount : UInt64) (holder : PublicKey) :
    (credits ++ [(key, amount)]).reverse.lookup holder =
      if key = holder then some amount else credits.reverse.lookup holder := by
  rw [List.reverse_append, List.reverse_singleton, List.singleton_append, List.lookup_cons]
  by_cases hkey : key = holder
  · simp [hkey]
  · simp [hkey, beq_eq_false_iff_ne.2 (Ne.symm hkey)]

/-- Where no key is credited twice, `credited` is the sum of all credits. -/
theorem Genesis.credited_of_nodup {credits : List (PublicKey × UInt64)}
    (h : (credits.map (·.1)).Nodup) :
    credited credits = (credits.map fun credit => credit.2.toNat).sum := by
  -- induction from the last credit on, since that one is the first that `lookup` finds
  induction credits using List.reverseRecOn with
  | nil => simp [credited]
  | append_singleton credits credit ih =>
    obtain ⟨key, amount⟩ := credit
    rw [List.map_append, List.map_singleton, List.nodup_append] at h
    obtain ⟨hnodup, -, hnew⟩ := h
    have hnone : credits.reverse.lookup key = none := by
      rw [List.lookup_eq_none_iff]
      intro credit hcredit
      simpa using Ne.symm (hnew _ (List.mem_map_of_mem (List.mem_reverse.1 hcredit)) _
        List.mem_cons_self)
    -- the last credit counts at its own key alone, where there was none before
    obtain ⟨rest, hbefore, hafter⟩ := View.exists_sum_one
      (f := fun holder => ((credits.reverse.lookup holder).getD 0).toNat)
      (g := fun holder => (((credits ++ [(key, amount)]).reverse.lookup holder).getD 0).toNat) key
      fun holder hne => by rw [lookup_reverse_concat, if_neg (Ne.symm hne)]
    rw [hnone] at hbefore
    rw [lookup_reverse_concat, if_pos rfl] at hafter
    have hsum := ih hnodup
    rw [credited, hbefore] at hsum
    rw [credited, hafter, List.map_append, List.sum_append, ← hsum]
    simp [Nat.add_comm]

/-- A sum that shrinks by an amount, and by exactly that where it is below the largest word. -/
def Burns (before burned after : Nat) : Prop :=
  after ≤ before ∧ (before < UInt64.size - 1 → after + burned = before)

/--
What `Burns` in two parts is burned together, exactly where the first sum is below the largest word.
-/
theorem Burns.trans {a b c m n : Nat} (h : Burns a m b) (h' : Burns b n c) : Burns a (m + n) c := by
  obtain ⟨hle, hexact⟩ := h
  obtain ⟨hle', hexact'⟩ := h'
  refine ⟨Nat.le_trans hle' hle, fun hbound => ?_⟩
  have hfirst := hexact hbound
  have hsecond := hexact' (by omega)
  omega

namespace Table

open View (durable)

variable {g : Genesis} {table after : Table Bytes}

/-- To insert under a key that is no balance's leaves the `supply`. -/
theorem supply_insert {key : Bytes} (hkey : ∀ holder, key ≠ StoreKey.balance holder)
    (value : Bytes) : (durable (table.insert key value)).supply = (durable table).supply :=
  View.supply_congr fun holder => by
    simp [Std.ExtTreeMap.getElem?_insert, Std.LawfulEqCmp.compare_eq_iff_eq, hkey holder]

/-- To `apply` changes to a table is the same to the `supply` as to `push` them over it. -/
theorem supply_apply (changes : Changes) :
    (durable (table.apply changes)).supply = ((durable table).push changes).supply :=
  View.supply_congr fun holder => by
    rw [View.get?_durable, getElem?_apply, View.get?_push, View.get?_durable]

/-- `runTxs` `Burns` the fees of the transactions. -/
theorem supply_runTxs {block : Block} {txs : List Transaction}
    (h : runTxs g block txs table = .ok after) :
    Burns (durable table).supply (Transaction.feesOf g txs) (durable after).supply := by
  -- induction on the transactions; the index entry of each is no balance
  induction txs generalizing table with
  | nil =>
    obtain rfl := Except.ok.inj h
    exact ⟨Nat.le_refl _, fun _ => rfl⟩
  | cons tx txs ih =>
    obtain ⟨changes, hchanges, h⟩ := Except.bind_eq_ok_iff.1 h
    rw [Except.mapError_eq_ok_iff] at hchanges
    have hfirst := (Unsigned.execute_eq_ok_iff.1 hchanges).2.supply_push
    have hrest := ih h
    rw [supply_insert fun holder =>
      (StoreKey.ne_of_isLedger (StoreKey.isLedger_balance holder)
        (StoreKey.not_isLedger_transaction tx.id)).symm, supply_apply] at hrest
    exact Burns.trans hfirst hrest

/-- `runBlocks` `Burns` the fees of the blocks. -/
theorem supply_runBlocks {blocks : List Block} (h : runBlocks g table blocks = .ok after) :
    Burns (durable table).supply (Block.feesOf g blocks) (durable after).supply := by
  -- induction on the blocks, with the table after the first one for the rest
  induction blocks generalizing table with
  | nil =>
    obtain rfl := Except.ok.inj h
    exact ⟨Nat.le_refl _, fun _ => rfl⟩
  | cons block blocks ih =>
    obtain ⟨middle, hblock, h⟩ := Except.bind_eq_ok_iff.1 h
    obtain ⟨executed, hexecuted, hblock⟩ := Except.bind_eq_ok_iff.1 hblock
    obtain rfl := Except.ok.inj hblock
    have hrest := ih h
    -- the block itself and the pointer to it are no balances
    rw [StoreKey.lastAccepted,
      supply_insert fun holder => (StoreKey.ne_of_isLedger (StoreKey.isLedger_balance holder)
        (StoreKey.not_isLedger_fact _)).symm,
      supply_insert fun holder => (StoreKey.ne_of_isLedger (StoreKey.isLedger_balance holder)
        (StoreKey.not_isLedger_block block.id)).symm] at hrest
    exact (supply_runTxs hexecuted).trans hrest

end Table

namespace Engine

/-- `creditAll` leaves each key the last balance that is credited to it. -/
theorem getElem?_creditAll (credits : List (PublicKey × UInt64)) (holder : PublicKey) :
    (creditAll credits)[StoreKey.balance holder]? =
      (credits.reverse.lookup holder).map fun amount => some (Wire.write amount) := by
  -- induction from the last credit on, as in `lookup_reverse_concat`
  induction credits using List.reverseRecOn with
  | nil => simp [creditAll]
  | append_singleton credits credit ih =>
    obtain ⟨key, amount⟩ := credit
    have hlast : creditAll (credits ++ [(key, amount)]) =
        (creditAll credits).putBalance key amount := by
      simp only [creditAll, List.foldl_append, List.foldl_cons, List.foldl_nil]
    rw [hlast, Changes.getElem?_putBalance, ih, lookup_reverse_concat]
    simp only [StoreKey.balance_inj]
    split <;> rfl

/--
`genesisState` leaves each key the last balance that is credited to it: the block and the facts are
written beside the balances.
-/
theorem balance_genesisState {g : Genesis} {block : Block} {changes : Changes}
    {credits : List (PublicKey × UInt64)} (hstate : genesisState g = .ok (block, changes))
    (hcredits : g.credits = .ok credits) (holder : PublicKey) :
    (View.durable (Table.apply ∅ changes)).balance holder =
      .ok ((credits.reverse.lookup holder).getD 0) := by
  obtain ⟨-, h⟩ := Except.bind_unit_eq_ok_iff.1 hstate
  obtain ⟨first, -, h⟩ := Except.bind_eq_ok_iff.1 h
  obtain ⟨found, hfound, h⟩ := Except.bind_eq_ok_iff.1 h
  rw [hcredits, Except.mapError_eq_ok_iff] at hfound
  obtain rfl := Except.ok.inj hfound
  obtain ⟨-, rfl⟩ := Prod.mk.inj (Except.ok.inj h)
  -- what the genesis state writes beside the credits is under no key of the ledger
  have hledger := StoreKey.isLedger_balance holder
  have hfact (name : String) : StoreKey.fact name ≠ StoreKey.balance holder :=
    (StoreKey.ne_of_isLedger hledger (StoreKey.not_isLedger_fact name)).symm
  have hblock : StoreKey.block first.id ≠ StoreKey.balance holder :=
    (StoreKey.ne_of_isLedger hledger (StoreKey.not_isLedger_block first.id)).symm
  rw [View.balance, View.record?, View.get?_durable, Table.getElem?_apply, StoreKey.initialized,
    StoreKey.genesis, StoreKey.lastAccepted, Changes.getElem?_put, if_neg (hfact _),
    Changes.getElem?_put, if_neg (hfact _), Changes.getElem?_put, if_neg (hfact _),
    Changes.getElem?_put, if_neg hblock, getElem?_creditAll]
  cases credits.reverse.lookup holder with
  | none => simp
  | some amount => simp

end Engine

/-- The `supply` of the genesis state is what is `credited`. -/
theorem Table.supply_genesis {g : Genesis} {block : Block} {changes : Changes}
    {credits : List (PublicKey × UInt64)} (hstate : Engine.genesisState g = .ok (block, changes))
    (hcredits : g.credits = .ok credits) :
    (View.durable (Table.apply ∅ changes)).supply = Genesis.credited credits :=
  Finset.sum_congr rfl fun holder _ =>
    View.holding_of_balance (Engine.balance_genesisState hstate hcredits holder)

/-- The order of blocks does not count for `feesOf`. -/
theorem Block.feesOf_reverse (g : Genesis) (blocks : List Block) :
    feesOf g blocks.reverse = feesOf g blocks := by
  rw [feesOf, List.map_reverse, List.sum_reverse, feesOf]

/--
An execution never adds to the `supply`, and takes the `fee` and nothing else from a supply below
the largest word. Where the `credits` sum to less than that, the supply after `replay` of a chain is
`credited` without `feesOf` its blocks, and so it is in the durable state along every run that is
`Linear`.
-/
theorem Genesis.supply_conserved (g : Genesis) :
    (∀ {tx : Unsigned} {time : UInt64} {txId : Hash} {view : View} {changes : Changes},
      tx.execute ⟨g, time, txId⟩ view = .ok changes →
      (view.push changes).supply ≤ view.supply ∧ (view.supply < UInt64.size - 1 →
        (view.push changes).supply + (tx.fee g).toNat = view.supply)) ∧
    ∀ {credits : List (PublicKey × UInt64)}, g.credits = .ok credits →
      credited credits < UInt64.size - 1 →
      (∀ {blocks : List Block} {table : Table Bytes}, replay g blocks = .ok table →
        (View.durable table).supply + Block.feesOf g blocks = credited credits) ∧
      ∀ {h : History} {e : Engine}, Reach g h e → h.CollisionFree → h.Linear →
        e.durable.supply + Block.feesOf g h.accepted = credited credits := by
  -- the law of one execution, which is then carried along a chain
  refine ⟨fun hexecute => (Unsigned.execute_eq_ok_iff.1 hexecute).2.supply_push,
    fun {credits} hcredits hbound => ?_⟩
  -- from the genesis state, of which the supply is credited, through all the blocks
  have hreplay {blocks : List Block} {table : Table Bytes} (h : replay g blocks = .ok table) :
      (View.durable table).supply + Block.feesOf g blocks = credited credits := by
    obtain ⟨⟨first, changes⟩, hstate, hrun⟩ := Except.bind_eq_ok_iff.1 h
    have hstart := Table.supply_genesis hstate hcredits
    obtain ⟨-, hexact⟩ := Table.supply_runBlocks hrun
    rw [hstart] at hexact
    exact hexact hbound
  refine ⟨hreplay, fun {h e} hreach hfree hlinear => ?_⟩
  have hstored := hreplay (hreach.replayed hfree hlinear).stored
  rw [Block.feesOf_reverse] at hstored
  exact hstored

/-! ## A payment

A chain that credits one key, and a block in which that key pays another.
-/

namespace Payments

open Siblings (hash frame first claim key keyBytes isFramed_first)

/-- The default parameters, with a thousand units for one key. -/
def genesis : Genesis := { allocations := [⟨Bytes.toHex keyBytes, 1000⟩] }

/-- The key may be decoded, and this is what it is credited. -/
def credits : List (PublicKey × UInt64) := [(key, 1000)]

/-- The allocation is decoded to `credits`. -/
theorem credits_genesis : genesis.credits = .ok credits := by
  have hhash : Hash.ofHex? (Bytes.toHex keyBytes) = some ⟨keyBytes, rfl⟩ := by decide +kernel
  have hcredit : Allocation.credit ⟨Bytes.toHex keyBytes, 1000⟩ = .ok (key, 1000) := by
    simp only [Allocation.credit, PublicKey.ofHex, hhash, PublicKey.ofBytes]
    rw [show keyBytes = key.bytes from rfl, PublicKey.ofBytes?_bytes]
  rw [Genesis.credits, genesis, List.mapM_cons, hcredit]
  rfl

/-- The key pays thirty of its units to a guest, and a unit for the fee. -/
def payment : Transaction where
  unsigned := ⟨⟨key, first.id, 1, 0⟩, .transfer Neighbours.guest 30⟩
  signature := claim.signature
  digest := hash 0x5ce71cc18c807b374122f132b1d79a14828cc457b2d25cc646c8e366bc63279b
  id := hash 0xe109eaff503d550e9d9c275fe35cf3b6b6df24e1b89a6883385e2b73beecc086
  digest_eq := by decide +kernel
  id_eq := by decide +kernel

/-- The payment in a block. -/
def block : Block where
  content := ⟨first.id, 50, 1, 1, 0, [payment]⟩
  bytes := frame ⟨first.id, 50, 1, 1, 0, [payment]⟩
  id := hash 0x0f17569cc0759ba761390a94ee745b32db3773f1c06d82faefb78657da047f9f
  id_eq := by decide +kernel

theorem isFramed_block : block.IsFramed Engine.framing := Block.isFramed_iff.2 (by decide +kernel)

/-- The engine on the first block. -/
def start : Engine := Engine.atGenesis genesis credits first

theorem reach_start : Reach genesis (.start first) start := by
  have hfirst : Block.first Engine.framing genesis = .ok first :=
    Block.ofContent_eq_ok_iff.2 ⟨rfl, isFramed_first⟩
  have hvalid : genesis.validate = .ok () := by
    rw [Genesis.validate, credits_genesis]
    rfl
  exact Reach.atGenesis hvalid hfirst credits_genesis

/-- The block is verified and accepted. -/
def paid : History × Engine :=
  History.follow [(100, .verify block), (100, .accept block.id)] (.start first, start)

theorem reach_paid : Reach genesis paid.1 paid.2 := by
  refine reach_start.follow fun request hrequest => ?_
  simp only [List.mem_cons, List.not_mem_nil, or_false] at hrequest
  rcases hrequest with rfl | rfl
  · exact isFramed_block
  · trivial

theorem history_paid : paid.1 = ⟨first, [block], [block], [block]⟩ := by decide +kernel

/-- Of a thousand units one is burned, and those that were paid are still there. -/
theorem supply_paid : Genesis.credited credits = 1000 ∧ paid.1.accepted = [block] ∧
    paid.2.durable.supply + 1 = 1000 := by
  have hcredited : Genesis.credited credits = 1000 := Genesis.credited_of_nodup (by decide +kernel)
  have haccepted : paid.1.accepted = [block] := congrArg History.accepted history_paid
  have hfree : paid.1.CollisionFree := by
    rw [history_paid]
    exact CollisionFree.of_ids (·.id_eq) (by decide +kernel)
  have hlinear : paid.1.Linear := by
    rw [history_paid, History.Linear]
    decide +kernel
  have hfees : Block.feesOf genesis [block] = 1 := by decide +kernel
  have hsupply := ((Genesis.supply_conserved genesis).2 credits_genesis
    (by rw [hcredited]; decide)).2 reach_paid hfree hlinear
  rw [haccepted, hfees, hcredited] at hsupply
  exact ⟨hcredited, haccepted, hsupply⟩

end Payments

end LeaseChain
