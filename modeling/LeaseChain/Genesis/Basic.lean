import LeaseChain.Key
import LeaseChain.Quantity

/-!
# Genesis parameters

The economic constants and the first balances of a chain. Every node of a network runs with the
same values: they set the market for block space, the rent of namespaces and the limits on sizes.
`Genesis.validate` refuses parameters under which no block or namespace could exist, and
allocations to a text that is no key.
-/

namespace LeaseChain

/-- A first balance, credited to the key with the given hexadecimal text. -/
structure Allocation where
  publicKey : String
  balance : UInt64
deriving DecidableEq

/-- The parameters of a chain. -/
structure Genesis where
  /-- Tells networks apart. -/
  magic : UInt64 := 0
  /-- The least price of a fee unit. -/
  minPrice : UInt64 := 1
  /-- The least cost of a block. -/
  minBlockCost : UInt64 := 0
  /-- The least difficulty of a block. -/
  minDifficulty : UInt64 := 1
  /-- The fee units that every transaction pays. -/
  baseTxUnits : UInt64 := 1
  /-- The fee units that a claim pays on top. -/
  claimFeeUnits : UInt64 := 10
  /-- The bytes that one unit of a value holds. -/
  valueUnitSize : UInt64 := 256
  maxNamespaceSize : UInt64 := 256
  maxKeySize : UInt64 := 256
  maxValueSize : UInt64 := 64 * 1024
  /-- The seconds of ownership that a claim grants. -/
  claimReward : UInt64 := 30 * 24 * 60 * 60
  /-- The seconds that one funded unit buys for a namespace of one unit. -/
  lifelineUnitReward : UInt64 := 24 * 60 * 60
  /-- The seconds between two blocks that the market aims at. -/
  targetBlockRate : UInt64 := 1
  /-- The transactions in a block that the market aims at. -/
  targetBlockSize : UInt64 := 225
  /-- The seconds of history that guard against replay and steer the market. -/
  lookbackWindow : UInt64 := 60
  allocations : List Allocation := []
deriving DecidableEq

/-- What is wrong with genesis parameters. -/
inductive GenesisError where
  /-- The document cannot be read from its file. -/
  | unreadable (reason : String)
  /-- The document is not the JSON text of parameters. -/
  | malformed
  /-- A parameter has a value it must not have. -/
  | invalid (reason : String)
  /-- An allocation names no public key. -/
  | invalidAllocation (publicKey : String)
deriving DecidableEq

namespace GenesisError

/-- The text shown for the error. -/
def message : GenesisError → String
  | unreadable reason => s!"IO error: {reason}"
  | malformed => "JSON error"
  | invalid reason => s!"Invalid genesis: {reason}"
  | invalidAllocation publicKey => s!"Invalid allocation key: {publicKey}"

end GenesisError

/-- The allocation with its key read. -/
def Allocation.credit (a : Allocation) :
    Except GenesisError (PublicKey × UInt64) :=
  match PublicKey.ofHex a.publicKey with
  | .ok key => .ok (key, a.balance)
  | .error _ => .error (.invalidAllocation a.publicKey)

namespace Genesis

/-- The parameters that must not be zero, with their names, in the order they are checked. -/
def nonZero (g : Genesis) : List (String × UInt64) := [
  ("value_unit_size", g.valueUnitSize),
  ("target_block_rate", g.targetBlockRate),
  ("target_block_size", g.targetBlockSize),
  ("lookback_window", g.lookbackWindow),
  ("min_difficulty", g.minDifficulty),
  ("max_namespace_size", g.maxNamespaceSize),
  ("max_key_size", g.maxKeySize),
  ("max_value_size", g.maxValueSize)]

/-- The allocations with their keys read, in order, or the first that names no key. -/
def credits (g : Genesis) : Except GenesisError (List (PublicKey × UInt64)) :=
  g.allocations.mapM Allocation.credit

/-- The first fault of the parameters: a zero that must not be, then an allocation to no key. -/
def validate (g : Genesis) : Except GenesisError Unit := do
  match g.nonZero.find? (·.2 == 0) with
  | some (name, _) => throw (.invalid s!"{name} must be non-zero")
  | none => discard g.credits

/-- The transactions in the lookback window when blocks come at the target rate and size. -/
def targetTransactions (g : Genesis) : UInt64 :=
  satMul g.targetBlockSize g.lookbackWindow / max g.targetBlockRate 1

/-- The units of a value of the given length: one, and one more for each full unit size. -/
def valueUnits (g : Genesis) (length : Nat) : UInt64 :=
  clamp (length / max g.valueUnitSize.toNat 1 + 1)

end Genesis

end LeaseChain
