import LeaseChain.Engine.Decision
import LeaseChain.Engine.Verification

/-!
# Building blocks

A block is built on the preferred block from pending transactions, the best first. A transaction
that does not execute after those taken before it is dropped; the first that is below the difficulty
ends the selection, since all after it are weaker. The block goes through the same verification as
one received from a peer.
-/

namespace LeaseChain

/-- What is done with the transactions that were looked at. -/
structure Selection where
  /-- Those that go into the block, in order. -/
  taken : List Transaction
  /-- Those that are no longer pending for another reason. -/
  dropped : List Transaction

namespace Selection

/-- Selects from transactions in descending order, at most `room` of them. -/
def select (g : Genesis) (context : BlockContext) (now : UInt64) :
    Nat → Overlay → List Transaction → Selection
  | 0, _, _ => ⟨[], []⟩
  | _ + 1, _, [] => ⟨[], []⟩
  | room + 1, overlay, tx :: txs =>
    if tx.difficulty < context.nextDifficulty then ⟨[], []⟩
    else if context.recentTxs.contains tx.id then
      let rest := select g context now (room + 1) overlay txs
      { rest with dropped := tx :: rest.dropped }
    else match tx.unsigned.execute ⟨g, now, tx.id⟩ overlay.view with
      | .ok changes =>
        let rest := select g context now room (overlay.merge changes) txs
        { rest with taken := tx :: rest.taken }
      | .error _ =>
        let rest := select g context now (room + 1) overlay txs
        { rest with dropped := tx :: rest.dropped }

end Selection

namespace Engine

/--
The content of a block with the selected transactions, if there are any and they are worth it.
-/
def assemble (parent : Block) (context : BlockContext) (now : UInt64) (txs : List Transaction) :
    Except EngineError BlockContent :=
  if txs.isEmpty then .error .nothingToBuild
  else
    let found := Block.surplus context.nextDifficulty txs
    if found < context.requiredSurplus then
      .error (.insufficientSurplus context.requiredSurplus found)
    else .ok {
      parentId := parent.id
      timestamp := now
      height := parent.height + 1
      difficulty := context.nextDifficulty
      cost := context.nextCost
      txs }

/-- Removes transactions from the pool. -/
def discardTxs (e : Engine) (txs : List Transaction) : Engine :=
  { e with mempool := e.mempool.removeAll (txs.map (·.id)) }

/-- Frames and verifies a block of the given content. -/
def finishBlock (e : Engine) (clock : UInt64) (content : BlockContent) :
    Except EngineError Block × Engine :=
  match Block.ofContent framing content with
  | .error cause => (.error (.frame cause), e)
  | .ok block =>
    match e.verify clock block with
    | (.error cause, e) => (.error (.selfCheck cause), e)
    | (.ok (), e) => (.ok block, { e with built := e.built + 1 })

/-- What a block is built on, its time and its context. -/
def buildPlan (e : Engine) (clock : UInt64) :
    Except EngineError (Block × UInt64 × BlockContext) := do
  let parent ← e.preferredBlock
  let now := childTime clock parent
  if satAdd clock futureBound ≤ now then throw (.timestampTooLate now clock)
  return (parent, now, ← e.contextAfter parent now)

/-- Builds a block from pending transactions on the preferred block. -/
def build (e : Engine) (clock : UInt64) : Except EngineError Block × Engine :=
  match e.buildPlan clock with
  | .error cause => (.error cause, e)
  | .ok (parent, now, context) =>
    let e := { e with mempool := (e.mempool.prune context.recentBlocks.contains).2 }
    match e.viewFrom parent.id with
    | .error cause => (.error cause, e)
    | .ok view =>
      let selection := Selection.select e.genesis context now e.genesis.targetBlockSize.toNat
        (Overlay.on view) (e.mempool.top e.mempool.size)
      let e := e.discardTxs selection.dropped
      match assemble parent context now selection.taken with
      | .error cause => (.error cause, e)
      | .ok content => (e.discardTxs selection.taken).finishBlock clock content

/-- Whether an error says that nothing more can be built for now. -/
def isIdle : EngineError → Bool
  | .nothingToBuild | .insufficientSurplus _ _ | .timestampTooLate _ _ => true
  | _ => false

/--
Builds and accepts blocks, at most `limit`, until nothing more can be built; `count` were before.
-/
def finalizeUpTo (clock : UInt64) : Nat → Nat → Engine → Except EngineError Nat × Engine
  | 0, count, e => (.ok count, e)
  | limit + 1, count, e =>
    match e.build clock with
    | (.error cause, e) => (if isIdle cause then .ok count else .error cause, e)
    | (.ok block, e) =>
      match e.accept block.id with
      | (.error cause, e) => (.error cause, e)
      | (.ok (), e) =>
        match e.prefer block.id with
        | (.error cause, e) => (.error cause, e)
        | (.ok (), e) => finalizeUpTo clock limit (count + 1) e

/--
Builds and accepts blocks until nothing more can be built, and counts them. Every block takes a
pending transaction, so one attempt more than there are is enough.
-/
def finalizePending (e : Engine) (clock : UInt64) : Except EngineError Nat × Engine :=
  finalizeUpTo clock (e.mempool.size + 1) 0 e

end Engine

end LeaseChain
