import LeaseChain.Genesis.Basic
import LeaseChain.Json.Parser
import LeaseChain.Json.Printer

/-!
# The genesis document

Genesis parameters are written as a JSON object with one member per parameter, and read back from
any JSON record: members that are missing take their defaults, and members with other names are let
pass.
-/

namespace LeaseChain

open Json (Value)

namespace Allocation

/-- The record of an allocation. -/
def toJson (a : Allocation) : Value :=
  .object [(Json.encodeText "public_key", .ofText a.publicKey),
    (Json.encodeText "balance", .ofWord a.balance)]

/-- The allocation that a record describes; both of its fields have to be there. -/
def ofJson? (value : Value) : Option Allocation := do
  let fields ← value.fields? ["public_key", "balance"]
  let publicKey ← Json.required fields "public_key" Value.text?
  let balance ← Json.required fields "balance" Value.word?
  return { publicKey, balance }

end Allocation

namespace Genesis

/-- The names of the parameters, in the order they are written. -/
def fieldNames : List String := [
  "magic", "min_price", "min_block_cost", "min_difficulty", "base_tx_units", "claim_fee_units",
  "value_unit_size", "max_namespace_size", "max_key_size", "max_value_size", "claim_reward",
  "lifeline_unit_reward", "target_block_rate", "target_block_size", "lookback_window",
  "allocations"]

/-- The parameters' values, in the same order. -/
def fieldValues (g : Genesis) : List Value := [
  .ofWord g.magic, .ofWord g.minPrice, .ofWord g.minBlockCost, .ofWord g.minDifficulty,
  .ofWord g.baseTxUnits, .ofWord g.claimFeeUnits, .ofWord g.valueUnitSize,
  .ofWord g.maxNamespaceSize, .ofWord g.maxKeySize, .ofWord g.maxValueSize, .ofWord g.claimReward,
  .ofWord g.lifelineUnitReward, .ofWord g.targetBlockRate, .ofWord g.targetBlockSize,
  .ofWord g.lookbackWindow, .array (g.allocations.map Allocation.toJson)]

/-- The record of the parameters. -/
def toJson (g : Genesis) : Value :=
  .object ((fieldNames.map Json.encodeText).zip g.fieldValues)

/-- The document of the parameters. -/
def toDocument (g : Genesis) : Bytes := g.toJson.pretty

/-- The parameters that a record describes. -/
def ofJson? (value : Value) : Option Genesis := do
  let fields ← value.fields? fieldNames
  let word (name : String) (value : UInt64) := Json.withDefault fields name Value.word? value
  let allocations (value : Value) := do (← value.items?).mapM Allocation.ofJson?
  let default : Genesis := {}
  return {
    magic := ← word "magic" default.magic
    minPrice := ← word "min_price" default.minPrice
    minBlockCost := ← word "min_block_cost" default.minBlockCost
    minDifficulty := ← word "min_difficulty" default.minDifficulty
    baseTxUnits := ← word "base_tx_units" default.baseTxUnits
    claimFeeUnits := ← word "claim_fee_units" default.claimFeeUnits
    valueUnitSize := ← word "value_unit_size" default.valueUnitSize
    maxNamespaceSize := ← word "max_namespace_size" default.maxNamespaceSize
    maxKeySize := ← word "max_key_size" default.maxKeySize
    maxValueSize := ← word "max_value_size" default.maxValueSize
    claimReward := ← word "claim_reward" default.claimReward
    lifelineUnitReward := ← word "lifeline_unit_reward" default.lifelineUnitReward
    targetBlockRate := ← word "target_block_rate" default.targetBlockRate
    targetBlockSize := ← word "target_block_size" default.targetBlockSize
    lookbackWindow := ← word "lookback_window" default.lookbackWindow
    allocations := ← Json.withDefault fields "allocations" allocations default.allocations }

/-- Reads a document, without asking whether a chain can run with its parameters. -/
def parse (document : Bytes) : Except GenesisError Genesis :=
  match (Value.parse? document).bind ofJson? with
  | some g => .ok g
  | none => .error .malformed

/-- Reads a document and validates its parameters. -/
def ofDocument (document : Bytes) : Except GenesisError Genesis := do
  let g ← parse document
  g.validate
  return g

end Genesis

end LeaseChain
