import LeaseChain.Engine.State
import LeaseChain.Genesis.Document

/-!
# Opening a store

The first time, the genesis state is written: the balances of the allocations, the first block, the
pointer to it and the genesis document. From then on the store's own document counts, whatever
parameters the store is opened with.
-/

namespace LeaseChain.Engine

/--
The balances that the allocations credit; a later one to the same key replaces an earlier one.
-/
def creditAll (credits : List (PublicKey × UInt64)) : Changes :=
  credits.foldl (fun changes (holder, amount) => changes.putBalance holder amount) ∅

/-- The writes of the genesis state, with the first block. -/
def genesisState (g : Genesis) : Except EngineError (Block × Changes) := do
  g.validate.mapError EngineError.genesis
  let block ← (Block.first framing g).mapError EngineError.frame
  let credits ← g.credits.mapError EngineError.genesis
  let changes := (creditAll credits).put (StoreKey.block block.id) block.bytes
  return (block, ((changes.put StoreKey.lastAccepted block.id.bytes).put StoreKey.genesis
    g.toDocument).put StoreKey.initialized [1])

/-- A stored fact that has to be there. -/
def factOf (entries : Table Bytes) (key : Bytes) : Except EngineError Bytes :=
  match entries[key]? with
  | some bytes => .ok bytes
  | none => .error (.storage .notFound)

/-- The parameters and the last accepted block of a store that holds a chain. -/
def storedState (entries : Table Bytes) : Except EngineError (Genesis × Block) := do
  let document ← factOf entries StoreKey.genesis
  let g ← (Genesis.ofDocument document).mapError EngineError.genesis
  let pointer ← factOf entries StoreKey.lastAccepted
  match Hash.ofBytes? pointer with
  | none => throw (.crypto .malformedHash)
  | some id =>
    match ← loadBlock entries id with
    | none => throw (.storage .notFound)
    | some tip => return (g, tip)

/-- An engine at rest on its last accepted block. -/
def atRest (g : Genesis) (settings : Settings) (store : Store) (tip : Block) : Engine := {
  genesis := g
  settings
  store
  tracked := ∅
  lastAccepted := tip
  preferred := tip.id
  rejected := ∅
  mempool := Mempool.empty settings.mempoolSize.toNat
  fresh := []
  activity := []
  notices := []
  built := 0 }

/-- Opens a store. The answer holds the store as it is afterwards, also where opening fails. -/
def start (g : Genesis) (settings : Settings) (store : Store) :
    Except EngineError Engine × Store :=
  if store.entries.contains StoreKey.initialized then
    match storedState store.entries with
    | .error cause => (.error cause, store)
    | .ok (g, tip) => (.ok (atRest g settings store tip), store)
  else
    match genesisState g with
    | .error cause => (.error cause, store)
    | .ok (block, changes) =>
      match store.commit changes with
      | (.error cause, store) => (.error (.storage cause), store)
      | (.ok (), store) => (.ok (atRest g settings store block), store)

end LeaseChain.Engine
