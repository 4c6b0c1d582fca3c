import LeaseChain.Gossip
import LeaseChain.Node
import LeaseChain.Node.Ticker

/-!
# Running nodes

A running node does four kinds of work, each at its own period: it asks for a block and gossips the
transactions that came in since, gossips the best pending transactions once more, prunes the pool
and compacts its store. It can also serve the requests for blocks itself, in place of consensus.

Work takes no time but for the wait of the build loop for a block. What happens is therefore a list
of events at points in time, and `RunningNode.step` does the next of them.
-/

namespace LeaseChain

/-- The build loop's wait for a block. -/
structure Wait where
  /-- When the wait ends without a block. -/
  deadline : Nat
  /-- How many blocks had been built when the wait began. -/
  built : Nat

/-- A batch that was handed over to the peers. -/
structure Sending where
  time : Nat
  batch : List Transaction
  outcome : Except GossipError Unit

/-- A node with its periodic work; times are in milliseconds after the start. -/
structure RunningNode where
  node : Node
  peers : Peers
  /-- Whether the node serves the requests for blocks itself. -/
  finalizes : Bool
  now : Nat
  building : Ticker
  /-- Present while the build loop waits for a block; it does not tick meanwhile. -/
  wait? : Option Wait
  regossiping : Ticker
  pruning : Ticker
  compacting : Ticker
  /-- What was handed over to the peers, oldest first. -/
  sendings : List Sending

namespace RunningNode

/-- Starts the periodic work of a node. -/
def start (node : Node) (peers : Peers) (finalizes : Bool) : RunningNode :=
  let settings := node.engine.settings
  { node
    peers
    finalizes
    now := 0
    building := .every settings.buildInterval
    wait? := none
    regossiping := .every settings.regossipInterval
    pruning := .every settings.pruneInterval
    compacting := .every settings.compactInterval
    sendings := [] }

/-- Puts a request to the engine. -/
def serve {α : Type} (r : RunningNode) (request : Engine → UInt64 → α × Engine) :
    α × RunningNode :=
  let (answer, node) := r.node.serve request
  (answer, { r with node })

/-- Hands one batch over to the peers. -/
def sendParcel (r : RunningNode) (parcel : List Transaction × Bytes) : RunningNode :=
  let (outcome, peers) := r.peers.send parcel.2
  { r with peers, sendings := r.sendings ++ [⟨r.now, parcel.1, outcome⟩] }

/-- Hands transactions over to the peers in batches. -/
def gossip (r : RunningNode) (txs : List Transaction) : RunningNode :=
  let size := r.node.engine.settings.regossipMaxTxs.toNat
  (Gossip.parcels Engine.framing size txs).foldl sendParcel r

/-- Ends the work of a tick of the build loop: gossips what came in since the last one. -/
def gossipFresh (r : RunningNode) : RunningNode :=
  let (txs, r) := { r with wait? := none }.serve fun e _ => e.takeFresh
  r.gossip txs

/--
A tick of the build loop. Where work is pending it asks for a block and waits for one; a wait of no
time is over before anybody can serve it, so that the tick ends at once.
-/
def tickBuilding (r : RunningNode) : RunningNode :=
  let r := { r with building := r.building.tick r.now }
  if r.node.engine.mempool.isEmpty then r.gossipFresh
  else
    let r := (r.serve fun e _ => ((), e.signalPending)).2
    let timeout := r.node.engine.settings.buildTimeout.toNat
    if timeout = 0 then r.gossipFresh
    else { r with wait? := some ⟨r.now + timeout, r.node.engine.built⟩ }

/-- A tick that gossips the best pending transactions. -/
def tickRegossiping (r : RunningNode) : RunningNode :=
  let limit := r.node.engine.settings.regossipMaxTxs.toNat
  { r with regossiping := r.regossiping.tick r.now }.gossip
    (r.node.engine.regossipCandidates limit)

/-- A tick that prunes the pool, if it can. -/
def tickPruning (r : RunningNode) : RunningNode :=
  ({ r with pruning := r.pruning.tick r.now }.serve fun e clock => e.pruneMempool clock).2

/-- A tick that compacts the store, whose entries stay the same. -/
def tickCompacting (r : RunningNode) : RunningNode :=
  { r with compacting := r.compacting.tick r.now }

/-- Whether the build loop waits and a block was built meanwhile. -/
def isServed (r : RunningNode) : Bool :=
  r.wait?.any fun wait => wait.built ≠ r.node.engine.built

/-- When the build loop acts next, unless a block is built before. -/
def nextBuilding (r : RunningNode) : Nat :=
  match r.wait? with
  | some wait => wait.deadline
  | none => r.building.due

/-- When the next event comes, unless one is due already. -/
def nextTime (r : RunningNode) : Nat :=
  [r.regossiping.due, r.pruning.due, r.compacting.due].foldl min r.nextBuilding

/--
The next event before the given time. Of those that are due the ticks come first, then the service
of a request, and then the end of a wait; where none is due, time moves on.
-/
def step (r : RunningNode) (limit : Nat) : Option RunningNode :=
  if r.wait?.isNone && r.building.due ≤ r.now then some r.tickBuilding
  else if r.regossiping.due ≤ r.now then some r.tickRegossiping
  else if r.pruning.due ≤ r.now then some r.tickPruning
  else if r.compacting.due ≤ r.now then some r.tickCompacting
  else if r.finalizes && r.node.mailbox.isFull then some { r with node := r.node.finalizeOnRequest }
  else if r.isServed || r.nextBuilding ≤ r.now then some r.gossipFresh
  else if r.nextTime < limit then some { r with now := r.nextTime }
  else none

/-- Does at most the given number of events before a time. -/
def advanceUpTo (limit : Nat) : Nat → RunningNode → RunningNode
  | 0, r => r
  | events + 1, r =>
    match r.step limit with
    | some r => advanceUpTo limit events r
    | none => r

/--
A bound on the number of events before a time. Every tick takes at least a millisecond off the time
left to its ticker, and brings about at most one service, one end of a wait and two moves of time.
-/
def eventBound (r : RunningNode) (limit : Nat) : Nat :=
  5 * [r.building, r.regossiping, r.pruning, r.compacting].foldl
    (fun sum t => sum + (limit - t.due)) 1

/-- Does all that happens before a time, which is the present then. -/
def advance (r : RunningNode) (limit : Nat) : RunningNode :=
  if limit ≤ r.now then r
  else { advanceUpTo limit (r.eventBound limit) r with now := limit }

/-- Stops the periodic work. A wait for a block is still waited out, and its tick ends as always. -/
def stop (r : RunningNode) : RunningNode :=
  match r.wait? with
  | none => r
  | some wait =>
    if r.isServed then r.gossipFresh else { r with now := max r.now wait.deadline }.gossipFresh

end RunningNode

end LeaseChain
