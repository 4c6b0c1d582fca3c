import Std.Data.ExtTreeSet
import LeaseChain.Block

/-!
# The market for block space

Every block declares the cost and the difficulty it was made at. Both follow from its parent, from
its own time and from the transactions in the window of recent blocks, never from a clock, so that
all nodes agree on them. `BlockContext.after` walks back through the window and derives what a child
of a block has to satisfy.
-/

namespace LeaseChain

/-- A finite set of hashes. -/
abbrev HashSet := Std.ExtTreeSet Hash

namespace FeeMarket

/--
The cost of a block: its parent's, and one more for each second it comes before the target rate, or
one less for each second after it, within the bounds.
-/
def nextCost (g : Genesis) (parentCost seconds : UInt64) : UInt64 :=
  clamp (max (parentCost.toNat + g.targetBlockRate.toNat - seconds.toNat) g.minBlockCost.toNat)

/--
How many windows have started since a block, the one that it is in included. The count is a sum of
words and wraps around: after `2 ^ 64 - 1` seconds and with windows of one second it is zero.
-/
def startedWindows (g : Genesis) (seconds : UInt64) : UInt64 := seconds / max g.lookbackWindow 1 + 1

/--
The difficulty of a block: one above its parent's when the window holds more transactions than the
target; else below it by one for each started window since, within the bound.
-/
def nextDifficulty (g : Genesis) (parentDifficulty : UInt64) (recentTxs : Nat)
    (seconds : UInt64) : UInt64 :=
  if g.targetTransactions.toNat < recentTxs then satAdd parentDifficulty 1
  else max (satSub parentDifficulty (startedWindows g seconds)) g.minDifficulty

/-- The surplus work that a block has to carry. -/
def requiredSurplus (difficulty cost : UInt64) : UInt64 := satMul difficulty cost

end FeeMarket

/-- What a child of a block has to satisfy. -/
structure BlockContext where
  /-- The blocks that a transaction may refer to. -/
  recentBlocks : HashSet
  /-- The transactions that the window holds. -/
  recentTxs : HashSet
  nextCost : UInt64
  nextDifficulty : UInt64

namespace BlockContext

/-- The surplus work that the child has to carry. -/
def requiredSurplus (context : BlockContext) : UInt64 :=
  FeeMarket.requiredSurplus context.nextDifficulty context.nextCost

variable {ε : Type}

/-- Whether a block is older than the window at the given time. -/
def isOlder (g : Genesis) (now : UInt64) (block : Block) : Bool :=
  g.lookbackWindow < satSub now block.timestamp

/--
The ancestors of a block from its parent back to the first that is older than the window, to the
height zero or to one that is not known, at most `limit` of them, nearest first.
-/
def ancestors (g : Genesis) (now : UInt64) (lookup : Hash → Except ε (Option Block)) :
    Nat → Block → Except ε (List Block)
  | 0, _ => .ok []
  | limit + 1, block =>
    if block.height = 0 then .ok []
    else do
      match ← lookup block.parentId with
      | none => return []
      | some ancestor =>
        if isOlder g now ancestor then return []
        else return ancestor :: (← ancestors g now lookup limit ancestor)

/-- The context that a window of blocks sets for a child of its first. -/
def ofWindow (g : Genesis) (now : UInt64) (parent : Block) (window : List Block) :
    BlockContext :=
  let recentTxs := Std.ExtTreeSet.ofList (window.flatMap fun block => block.txs.map (·.id))
  let seconds := satSub now parent.timestamp
  { recentBlocks := Std.ExtTreeSet.ofList (window.map (·.id))
    recentTxs
    nextCost := FeeMarket.nextCost g parent.cost seconds
    nextDifficulty := FeeMarket.nextDifficulty g parent.difficulty recentTxs.size seconds }

/--
The window before a child of a block at the given time: the block itself, however old, and its
ancestors within the lookback, of which `limit` bounds the number.
-/
def window (g : Genesis) (now : UInt64) (parent : Block)
    (lookup : Hash → Except ε (Option Block)) (limit : Nat) : Except ε (List Block) := do
  return parent :: (← ancestors g now lookup limit parent)

/-- The context for a child of a block at the given time. -/
def after (g : Genesis) (now : UInt64) (parent : Block)
    (lookup : Hash → Except ε (Option Block)) (limit : Nat) : Except ε BlockContext := do
  return ofWindow g now parent (← window g now parent lookup limit)

end BlockContext

end LeaseChain
