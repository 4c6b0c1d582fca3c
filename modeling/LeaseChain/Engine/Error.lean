import LeaseChain.Block
import LeaseChain.Ledger.Execution

/-!
# Errors of the engine

Every way in which a request to the engine can fail, and the text shown for it.
-/

namespace LeaseChain

/-- Why the engine refuses a request. -/
inductive EngineError where
  | parentNotFound (id : Hash)
  /-- An undecided block on the way to the durable state has not been verified. -/
  | parentNotVerified
  /-- The block stands on a block that has not been accepted. -/
  | parentNotAccepted
  /-- The parent is accepted, and another block has been accepted after it. -/
  | staleParent (id : Hash)
  | noTransactions
  | timestampTooEarly (timestamp parent : UInt64)
  | timestampTooLate (timestamp now : UInt64)
  | invalidHeight (expected found : UInt64)
  | invalidCost (expected found : UInt64)
  | invalidDifficulty (expected found : UInt64)
  /-- The transaction refers to a block outside the lookback window. -/
  | unknownReference (txId : Hash)
  | duplicateTransaction (txId : Hash)
  | difficultyTooLow (txId : Hash) (required found : UInt64)
  | invalidSignature (txId : Hash)
  | execution (txId : Hash) (cause : ExecutionError)
  | insufficientSurplus (required found : UInt64)
  | blockNotFound (id : Hash)
  | blockNotVerified (id : Hash)
  | alreadyDecided (id : Hash) (status : BlockStatus)
  /-- A block that was just built does not verify. -/
  | selfCheck (cause : EngineError)
  | nothingToBuild
  | storage (cause : StorageError)
  | frame (cause : FrameError)
  | crypto (cause : CryptoError)
  | genesis (cause : GenesisError)
deriving DecidableEq

namespace EngineError

/-- The text shown for the error. -/
def message : EngineError → String
  | parentNotFound id => s!"Parent block not found: {id.toHex}"
  | parentNotVerified => "Parent block has not been verified"
  | parentNotAccepted => "Parent block has not been accepted"
  | staleParent id => s!"Parent block {id.toHex} is accepted but no longer the tip"
  | noTransactions => "Block has no transactions"
  | timestampTooEarly timestamp parent =>
    s!"Block timestamp {timestamp} is not after parent timestamp {parent}"
  | timestampTooLate timestamp now =>
    s!"Block timestamp {timestamp} is too far ahead of local time {now}"
  | invalidHeight expected found => s!"Block height {found}, expected {expected}"
  | invalidCost expected found => s!"Block cost {found}, expected {expected}"
  | invalidDifficulty expected found => s!"Block difficulty {found}, expected {expected}"
  | unknownReference txId =>
    s!"Transaction {txId.toHex} references a block outside the lookback window"
  | duplicateTransaction txId => s!"Duplicate transaction {txId.toHex}"
  | difficultyTooLow txId required found =>
    s!"Transaction {txId.toHex} has difficulty {found}, below {required}"
  | invalidSignature txId => s!"Invalid signature on transaction {txId.toHex}"
  | execution txId cause => s!"Transaction {txId.toHex} failed: {cause.message}"
  | insufficientSurplus required found =>
    s!"Insufficient surplus difficulty: need {required}, found {found}"
  | blockNotFound id => s!"Block not found: {id.toHex}"
  | blockNotVerified id => s!"Block has not been verified: {id.toHex}"
  | alreadyDecided id status => s!"Block {id.toHex} is already {status.name}"
  | selfCheck cause => s!"Built block failed its own verification: {cause.message}"
  | nothingToBuild => "No transactions to build a block with"
  | storage cause => s!"Storage error: {cause.message}"
  | frame cause => s!"Codec error: {cause.message}"
  | crypto cause => s!"Crypto error: {cause.message}"
  | genesis cause => s!"Genesis error: {cause.message}"

end EngineError

end LeaseChain
