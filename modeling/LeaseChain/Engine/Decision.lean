import LeaseChain.Engine.Admission

/-!
# Decisions of consensus

Accepting a block commits its changes to the durable store, on which the changes of its children
stand from then on. Rejecting a block forgets it and its changes.
-/

namespace LeaseChain.Engine

/-- Lets the changes of the given blocks stand on the durable store. -/
def rebase (tracked : Std.ExtTreeMap Hash Tracked) (children : List Hash) :
    Std.ExtTreeMap Hash Tracked :=
  children.foldl (fun tracked child =>
    match tracked[child]? with
    | some entry =>
      tracked.insert child
        { entry with verified? := entry.verified?.map fun v => { v with footing := .durable } }
    | none => tracked) tracked

/-- The transactions of a block for the list of recent activity. -/
def activityOf (block : Block) : List Activity :=
  block.txs.map fun tx => ⟨block.id, block.timestamp, tx.id, tx.sender, tx.operation⟩

/-- Appends to the list of recent activity, of which the oldest entries make room. -/
def record (limit : Nat) (activity new : List Activity) : List Activity :=
  let all := activity ++ new
  all.drop (all.length - limit)

/-- The changes of a tracked block that stand on the durable store. -/
def acceptable (id : Hash) (entry : Tracked) : Except EngineError Changes :=
  match entry.verified? with
  | none => .error (.blockNotVerified id)
  | some verified =>
    if verified.footing = .durable then .ok verified.changes else .error .parentNotAccepted

/-- The state after a tracked block's changes were committed. -/
def settle (e : Engine) (id : Hash) (entry : Tracked) : Engine :=
  let block := entry.block
  let tracked := rebase (e.tracked.erase id) entry.children
  { e with
    tracked
    mempool := e.mempool.removeAll (block.txs.map (·.id))
    lastAccepted := block
    rejected := e.rejected.filter fun _ height => block.height < height
    preferred := if tracked.contains e.preferred then e.preferred else block.id
    activity := record e.settings.activityCacheSize.toNat e.activity (activityOf block)
    notices := e.notices ++ [.accepted id block.height] }

/-- Accepts a block. One that is accepted already stays so. -/
def accept (e : Engine) (id : Hash) : Except EngineError Unit × Engine :=
  if e.isRejected id then (.error (.alreadyDecided id .rejected), e)
  else match e.tracked[id]? with
    | none => (if e.isStored id then .ok () else .error (.blockNotFound id), e)
    | some entry =>
      match acceptable id entry with
      | .error cause => (.error cause, e)
      | .ok changes =>
        match e.store.commit changes with
        | (.error cause, store) => (.error (.storage cause), { e with store })
        | (.ok (), store) => (.ok (), { e with store }.settle id entry)

/-- Removes a block from among the children of its parent, if the parent is tracked. -/
def removeChild (tracked : Std.ExtTreeMap Hash Tracked) (parentId id : Hash) :
    Std.ExtTreeMap Hash Tracked :=
  match tracked[parentId]? with
  | none => tracked
  | some parent =>
    tracked.insert parentId { parent with children := parent.children.filter (· ≠ id) }

/-- Makes those transactions pending again that would be admitted now. -/
def readd (e : Engine) (clock : UInt64) (txs : List Transaction) : Engine :=
  txs.foldl (fun e tx =>
    match e.checkAdmission clock tx with
    | .ok () => { e with mempool := (e.mempool.add tx).2 }
    | .error _ => e) e

/-- The state after a tracked block is forgotten. -/
def forget (e : Engine) (id : Hash) (block : Block) : Engine :=
  let tracked := removeChild (e.tracked.erase id) block.parentId id
  let fallback := if tracked.contains block.parentId then block.parentId else e.lastAccepted.id
  { e with
    tracked
    rejected := e.rejected.insert id block.height
    preferred := if e.preferred = id then fallback else e.preferred }

/-- Rejects a block. One that is remembered as rejected stays so. -/
def reject (e : Engine) (clock : UInt64) (id : Hash) : Except EngineError Unit × Engine :=
  if e.isRejected id then (.ok (), e)
  else match e.tracked[id]? with
    | none =>
      (.error (if e.isStored id then .alreadyDecided id .accepted else .blockNotFound id), e)
    | some entry =>
      let e := e.forget id entry.block
      let e := if e.settings.readdRejectedTxs then e.readd clock entry.block.txs else e
      (.ok (), e.notify (.rejected id))

end LeaseChain.Engine
