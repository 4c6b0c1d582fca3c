import LeaseChain.Engine.State

/-!
# Admitting transactions

A transaction becomes pending if it would execute right after the preferred block, at the present
time and at the present price.
-/

namespace LeaseChain.Engine

/-- The checks of a transaction against the preferred block and the pool. -/
def checkAdmission (e : Engine) (clock : UInt64) (tx : Transaction) : Except EngineError Unit := do
  if e.mempool.has tx.id then throw (.duplicateTransaction tx.id)
  (tx.verifySignature).mapError fun _ => EngineError.invalidSignature tx.id
  (Ledger.validateForm e.genesis tx.unsigned).mapError (EngineError.execution tx.id)
  let parent ← e.preferredBlock
  let now := childTime clock parent
  let context ← e.contextAfter parent now
  if !context.recentBlocks.contains tx.blockId then throw (.unknownReference tx.id)
  if context.recentTxs.contains tx.id then throw (.duplicateTransaction tx.id)
  if tx.difficulty < context.nextDifficulty then
    throw (.difficultyTooLow tx.id context.nextDifficulty tx.difficulty)
  let view ← e.viewFrom parent.id
  if view.hasTransaction tx.id then throw (.duplicateTransaction tx.id)
  discard
    ((tx.unsigned.execute ⟨e.genesis, now, tx.id⟩ view).mapError (EngineError.execution tx.id))

/-- Appends a transaction to those not gossiped yet, of which the oldest make room. -/
def remember (limit : Nat) (fresh : List Transaction) (tx : Transaction) : List Transaction :=
  (if limit ≤ fresh.length then fresh.drop 1 else fresh) ++ [tx]

/-- Puts a transaction that was checked into the pool. -/
def enqueue (e : Engine) (tx : Transaction) : Engine :=
  let (stayed, mempool) := e.mempool.add tx
  if stayed then
    { e with mempool, fresh := remember e.settings.mempoolSize.toNat e.fresh tx }
  else { e with mempool }

/--
Submits a transaction and asks consensus for a block. A transaction that passes the checks counts as
submitted also if the pool is full of better ones.
-/
def submit (e : Engine) (clock : UInt64) (tx : Transaction) : Except EngineError Hash × Engine :=
  match e.checkAdmission clock tx with
  | .error cause => (.error cause, e)
  | .ok () => (.ok tx.id, (e.enqueue tx).signalPending)

/-- Submits transactions one after the other, and counts those that pass. -/
def submitAll (clock : UInt64) : List Transaction → Nat → Engine → Nat × Engine
  | [], count, e => (count, e)
  | tx :: txs, count, e =>
    match e.submit clock tx with
    | (.ok _, e) => submitAll clock txs (count + 1) e
    | (.error _, e) => submitAll clock txs count e

/-- Submits the transactions of a gossip payload, and counts those that pass. -/
def receiveGossip (e : Engine) (clock : UInt64) (payload : Bytes) :
    Except EngineError Nat × Engine :=
  match (framing.decode payload : Except FrameError (List Transaction)) with
  | .error cause => (.error (.frame cause), e)
  | .ok txs =>
    let (count, e) := submitAll clock txs 0 e
    (.ok count, e)

/-- Takes out the transactions admitted since the last call. -/
def takeFresh (e : Engine) : List Transaction × Engine := (e.fresh, { e with fresh := [] })

/-- The best pending transactions. -/
def regossipCandidates (e : Engine) (limit : Nat) : List Transaction := e.mempool.top limit

/-- What a child of the preferred block has to satisfy now. -/
def nextContext (e : Engine) (clock : UInt64) : Except EngineError BlockContext := do
  let parent ← e.preferredBlock
  e.contextAfter parent (childTime clock parent)

/--
Drops the pending transactions that refer to a block outside the window of the preferred block, and
counts them.
-/
def pruneMempool (e : Engine) (clock : UInt64) : Except EngineError Nat × Engine :=
  match e.nextContext clock with
  | .error cause => (.error cause, e)
  | .ok context =>
    let (count, mempool) := e.mempool.prune context.recentBlocks.contains
    (.ok count, { e with mempool })

end LeaseChain.Engine
