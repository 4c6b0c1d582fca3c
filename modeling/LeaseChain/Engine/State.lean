import LeaseChain.Consensus
import LeaseChain.Engine.Error
import LeaseChain.FeeMarket
import LeaseChain.Mempool
import LeaseChain.Settings

/-!
# The state of the engine

Blocks that consensus has not decided are tracked by their identifiers. A verified one holds the
changes that it makes and what they stand on: the durable store, or the changes of its parent. What
a tracked block sees is the durable store under the layers from it down to the store.

Requests to the engine are functions on this state. One that can change it answers with the state
after it, also when it fails.
-/

namespace LeaseChain

/-- What a verified block's changes stand on. -/
inductive Footing where
  | durable
  | block (id : Hash)
deriving DecidableEq

/-- What verification found a block to change. -/
structure Verified where
  footing : Footing
  changes : Changes

/-- A block that is not decided yet. -/
structure Tracked where
  block : Block
  /-- Present once the block has been verified. -/
  verified? : Option Verified
  /-- The verified blocks that stand on this one. -/
  children : List Hash

/-- An accepted transaction, for the list of recent activity. -/
structure Activity where
  blockId : Hash
  timestamp : UInt64
  txId : Hash
  sender : PublicKey
  operation : Operation

/-- The state of the engine. -/
structure Engine where
  genesis : Genesis
  settings : Settings
  store : Store
  tracked : Std.ExtTreeMap Hash Tracked
  lastAccepted : Block
  /-- The block that new blocks are built on. -/
  preferred : Hash
  /-- The heights of rejected blocks, kept until a block of that height is accepted. -/
  rejected : Std.ExtTreeMap Hash UInt64
  mempool : Mempool Transaction
  /-- Transactions admitted since they were last asked for, oldest first. -/
  fresh : List Transaction
  /-- Accepted transactions, oldest first. -/
  activity : List Activity
  /-- What consensus has not been told yet, oldest first. -/
  notices : List Notice
  /-- How many blocks were built; whoever waits for one compares. -/
  built : Nat

namespace Engine

/-- The framing of blocks and of gossip. -/
def framing : Framing := Framing.standard

/-- Whether a block is tracked. -/
def isTracked (e : Engine) (id : Hash) : Bool := e.tracked.contains id

/-- Whether a block is remembered as rejected. -/
def isRejected (e : Engine) (id : Hash) : Bool := e.rejected.contains id

/-- Whether a block is in the durable store. -/
def isStored (e : Engine) (id : Hash) : Bool := e.store.entries.contains (StoreKey.block id)

/-- The block that a table holds under an identifier. -/
def loadBlock (entries : Table Bytes) (id : Hash) : Except EngineError (Option Block) :=
  match entries[StoreKey.block id]? with
  | some bytes => some <$> (Block.ofBytes framing bytes).mapError .frame
  | none => .ok none

/-- The tracked, last accepted or stored block with an identifier. -/
def find? (e : Engine) (id : Hash) : Except EngineError (Option Block) :=
  match e.tracked[id]? with
  | some entry => .ok (some entry.block)
  | none =>
    if e.lastAccepted.id = id then .ok (some e.lastAccepted) else loadBlock e.store.entries id

/-- The block with an identifier. -/
def find (e : Engine) (id : Hash) : Except EngineError Block := do
  match ← e.find? id with
  | some block => return block
  | none => throw (.blockNotFound id)

/-- The block that new blocks are built on. -/
def preferredBlock (e : Engine) : Except EngineError Block := e.find e.preferred

/-- A bound on the number of blocks that the engine can find. -/
def knownBlocks (e : Engine) : Nat := e.tracked.size + e.store.entries.size + 1

/-- What a child of a block has to satisfy at a time. -/
def contextAfter (e : Engine) (parent : Block) (now : UInt64) : Except EngineError BlockContext :=
  BlockContext.after e.genesis now parent e.find? e.knownBlocks

/-- What a child of the block with an identifier has to satisfy at a time. -/
def executionContext (e : Engine) (parentId : Hash) (now : UInt64) :
    Except EngineError BlockContext := do
  e.contextAfter (← e.find parentId) now

/--
The time of a new child of a block: the clock's, or right after the block where that is later. The
second after the last one is zero, so that it is the clock's behind a block of the last second.
-/
def childTime (clock : UInt64) (parent : Block) : UInt64 := max clock (parent.timestamp + 1)

/-- The changes from a tracked block down to the durable store, over at most the given number. -/
def layersFrom (tracked : Std.ExtTreeMap Hash Tracked) :
    Nat → Tracked → Except EngineError (List Changes)
  | 0, _ => .error .parentNotVerified
  | limit + 1, entry =>
    match entry.verified? with
    | none => .error .parentNotVerified
    | some verified =>
      match verified.footing with
      | .durable => .ok [verified.changes]
      | .block id =>
        match tracked[id]? with
        | none => .error .parentNotVerified
        | some parent => do return verified.changes :: (← layersFrom tracked limit parent)

/-- The changes from a block down to the durable store; none for a block that is not tracked. -/
def layers (e : Engine) (id : Hash) : Except EngineError (List Changes) :=
  match e.tracked[id]? with
  | none => .ok []
  | some entry => layersFrom e.tracked e.tracked.size entry

/-- What a child of a block sees. -/
def viewFrom (e : Engine) (id : Hash) : Except EngineError View := do
  return ⟨← e.layers id, e.store.entries⟩

/-- The durable state. -/
def durable (e : Engine) : View := View.durable e.store.entries

/-- What consensus has decided about a block. -/
def status (e : Engine) (id : Hash) : Except EngineError BlockStatus :=
  if e.isTracked id then .ok .processing
  else if e.isRejected id then .ok .rejected
  else if e.isStored id then .ok .accepted
  else .error (.blockNotFound id)

/-- Adds a notice for consensus. -/
def notify (e : Engine) (notice : Notice) : Engine :=
  { e with notices := e.notices ++ [notice] }

/-- Asks consensus for a block. -/
def signalPending (e : Engine) : Engine := e.notify .pending

/-- Takes the notices for consensus out. -/
def takeNotices (e : Engine) : List Notice × Engine := (e.notices, { e with notices := [] })

/-- Chooses the block that new blocks are built on. -/
def prefer (e : Engine) (id : Hash) : Except EngineError Unit × Engine :=
  if e.isTracked id ∨ e.lastAccepted.id = id then (.ok (), { e with preferred := id })
  else (.error (.blockNotFound id), e)

/-- Reads a block, and tracks it unless it is known already. -/
def parse (e : Engine) (bytes : Bytes) : Except EngineError Block × Engine :=
  match Block.ofBytes framing bytes with
  | .error cause => (.error (.frame cause), e)
  | .ok block =>
    match e.tracked[block.id]? with
    | some entry => (.ok entry.block, e)
    | none =>
      if e.isRejected block.id || e.isStored block.id then (.ok block, e)
      else (.ok block, { e with tracked := e.tracked.insert block.id ⟨block, none, []⟩ })

end Engine

end LeaseChain
