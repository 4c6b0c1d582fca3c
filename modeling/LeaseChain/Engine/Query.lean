import LeaseChain.Engine.State

/-!
# Queries

What the engine tells about accepted state. Undecided blocks are never seen, and a lease is live or
expired at the time of the last accepted block, so that every node gives the same answers.
-/

namespace LeaseChain

/-- What a transaction has to be mined against to be included soon. -/
structure MiningTarget where
  /-- The block that the transaction should refer to. -/
  blockId : Hash
  difficulty : UInt64
  cost : UInt64
  minPrice : UInt64

namespace Engine

/-- An answer about stored records. -/
def reading {α : Type} (read : Except StorageError α) : Except EngineError α :=
  read.mapError .storage

/-- The live lease of a namespace. -/
def leaseInfo (e : Engine) (name : String) : Except EngineError (Option Lease) :=
  reading (e.durable.liveLease? name e.lastAccepted.timestamp)

/-- The value of a key under a live namespace. -/
def resolve (e : Engine) (name : String) (key : Bytes) :
    Except EngineError (Option StoredValue) := do
  match ← e.leaseInfo name with
  | none => return none
  | some _ => reading (e.durable.value? name key)

/-- All values under a live namespace, in the order of their keys. -/
def range (e : Engine) (name : String) : Except EngineError (List (Bytes × StoredValue)) := do
  match ← e.leaseInfo name with
  | none => return []
  | some _ => reading (e.durable.values name)

/-- The balance of a key. -/
def balance (e : Engine) (holder : PublicKey) : Except EngineError UInt64 :=
  reading (e.durable.balance holder)

/-- The accepted block that includes a transaction. -/
def confirmedIn (e : Engine) (txId : Hash) : Except EngineError (Option Hash) :=
  match e.durable.get? (StoreKey.transaction txId) with
  | none => .ok none
  | some bytes =>
    match Hash.ofBytes? bytes with
    | some id => .ok (some id)
    | none => .error (.crypto .malformedHash)

/-- The target for a transaction made now on top of the preferred block. -/
def miningTarget (e : Engine) (clock : UInt64) : Except EngineError MiningTarget := do
  let parent ← e.preferredBlock
  let context ← e.contextAfter parent (childTime clock parent)
  return ⟨parent.id, context.nextDifficulty, context.nextCost, e.genesis.minPrice⟩

/-- Recently accepted transactions, newest first. -/
def recentActivity (e : Engine) : List Activity := e.activity.reverse

end Engine

end LeaseChain
