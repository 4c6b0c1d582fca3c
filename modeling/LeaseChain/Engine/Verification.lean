import LeaseChain.Engine.State

/-!
# Verifying blocks

A block is verified by executing it on what its parent sees, after the checks of its place in the
chain and of the price it was made at. `Engine.checkBlock` finds the changes that the block makes;
`Engine.verify` keeps them, and leaves the state alone where the block fails.
-/

namespace LeaseChain

namespace Block

/-- The checks of one transaction in a block, before it is executed. -/
def checkTx (block : Block) (context : BlockContext) (seen : List Hash) (tx : Transaction) :
    Except EngineError Unit :=
  if !context.recentBlocks.contains tx.blockId then .error (.unknownReference tx.id)
  else if context.recentTxs.contains tx.id ∨ tx.id ∈ seen then
    .error (.duplicateTransaction tx.id)
  else if tx.difficulty < block.difficulty then
    .error (.difficultyTooLow tx.id block.difficulty tx.difficulty)
  else (tx.verifySignature).mapError fun _ => .invalidSignature tx.id

/-- Executes the given transactions of a block, after those `seen`, and stages their changes. -/
def executeTxs (g : Genesis) (block : Block) (context : BlockContext) :
    List Transaction → List Hash → Overlay → Except EngineError Overlay
  | [], _, overlay => .ok overlay
  | tx :: txs, seen, overlay => do
    checkTx block context seen tx
    let changes ← (tx.unsigned.execute ⟨g, block.timestamp, tx.id⟩ overlay.view).mapError
      (.execution tx.id)
    let overlay := overlay.merge (changes.putTransaction tx.id block.id)
    executeTxs g block context txs (tx.id :: seen) overlay

/-- The work of transactions above a difficulty. -/
def surplus (difficulty : UInt64) (txs : List Transaction) : UInt64 :=
  txs.foldl (fun sum tx => satAdd sum (tx.difficulty - difficulty)) 0

/-- The changes that a block makes to what its parent sees. -/
def execute (g : Genesis) (block : Block) (context : BlockContext) (view : View) :
    Except EngineError Changes := do
  let overlay ← executeTxs g block context block.txs [] (Overlay.on view)
  let required := FeeMarket.requiredSurplus block.difficulty block.cost
  let found := surplus block.difficulty block.txs
  if found < required then throw (.insufficientSurplus required found)
  return (overlay.staged.put (StoreKey.block block.id) block.bytes).put StoreKey.lastAccepted
    block.id.bytes

end Block

namespace Engine

/-- The parent of a block, if the block may still be built on it. -/
def openParent (e : Engine) (block : Block) : Except EngineError Block := do
  match ← e.find? block.parentId with
  | none => throw (.parentNotFound block.parentId)
  | some parent =>
    if e.isTracked parent.id ∨ parent.id = e.lastAccepted.id then return parent
    else throw (.staleParent parent.id)

/--
The checks of a block's form and place that need no context. The height after the greatest one is
zero, as it is for a block that is built.
-/
def checkPlace (clock : UInt64) (parent block : Block) : Except EngineError Unit :=
  if block.txs.isEmpty then .error .noTransactions
  else if block.timestamp ≤ parent.timestamp then
    .error (.timestampTooEarly block.timestamp parent.timestamp)
  else if satAdd clock futureBound ≤ block.timestamp then
    .error (.timestampTooLate block.timestamp clock)
  else if block.height ≠ parent.height + 1 then
    .error (.invalidHeight (parent.height + 1) block.height)
  else .ok ()

/-- The checks of the price that a block was made at. -/
def checkPrice (context : BlockContext) (block : Block) : Except EngineError Unit :=
  if block.cost ≠ context.nextCost then .error (.invalidCost context.nextCost block.cost)
  else if block.difficulty ≠ context.nextDifficulty then
    .error (.invalidDifficulty context.nextDifficulty block.difficulty)
  else .ok ()

/-- What a block changes and on what footing, with its parent. -/
def checkBlock (e : Engine) (clock : UInt64) (block : Block) :
    Except EngineError (Block × Verified) := do
  let parent ← e.openParent block
  checkPlace clock parent block
  let context ← e.contextAfter parent block.timestamp
  checkPrice context block
  let view ← e.viewFrom block.parentId
  let changes ← block.execute e.genesis context view
  let footing := if e.isTracked parent.id then Footing.block parent.id else Footing.durable
  return (parent, ⟨footing, changes⟩)

/-- Names a block among the children of its parent, if the parent is tracked. -/
def addChild (tracked : Std.ExtTreeMap Hash Tracked) (parentId id : Hash) :
    Std.ExtTreeMap Hash Tracked :=
  match tracked[parentId]? with
  | none => tracked
  | some parent =>
    if id ∈ parent.children then tracked
    else tracked.insert parentId { parent with children := parent.children ++ [id] }

/-- Keeps what verification found about a block, which is tracked from then on. -/
def attach (e : Engine) (block parent : Block) (verified : Verified) : Engine :=
  let entry : Tracked := (e.tracked[block.id]?).getD ⟨block, none, []⟩
  let tracked := e.tracked.insert block.id { entry with verified? := some verified }
  { e with tracked := addChild tracked parent.id block.id }

/-- Verifies a block. One that is accepted already passes. -/
def verify (e : Engine) (clock : UInt64) (block : Block) : Except EngineError Unit × Engine :=
  if e.isRejected block.id then (.error (.alreadyDecided block.id .rejected), e)
  else if !e.isTracked block.id && e.isStored block.id then (.ok (), e)
  else match e.checkBlock clock block with
    | .error cause => (.error cause, e)
    | .ok (parent, verified) => (.ok (), e.attach block parent verified)

end Engine

end LeaseChain
