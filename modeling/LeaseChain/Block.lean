import LeaseChain.Transaction.Basic
import LeaseChain.Wire.Frame

/-!
# Blocks

A block's content is a link to its parent, a time, a height, the difficulty and the cost it was made
at, and its transactions. A `Block` is a content with its frame and its identifier, the hash of that
frame.
-/

namespace LeaseChain

/-- The exclusive bound on how many seconds a block may be ahead of the clock. -/
def futureBound : UInt64 := 10

/-- The replicated part of a block. -/
structure BlockContent where
  parentId : Hash
  /-- Seconds since the epoch. -/
  timestamp : UInt64
  height : UInt64
  /-- The least difficulty of a transaction in the block. -/
  difficulty : UInt64
  /-- The surplus work that the block carries, in multiples of its difficulty. -/
  cost : UInt64
  txs : List Transaction
deriving DecidableEq

instance : Wire BlockContent where
  write c := Wire.write c.parentId ++ Wire.write c.timestamp ++ Wire.write c.height ++
    Wire.write c.difficulty ++ Wire.write c.cost ++ Wire.write c.txs
  read := return ⟨← Wire.read, ← Wire.read, ← Wire.read, ← Wire.read, ← Wire.read, ← Wire.read⟩

/-- What consensus has decided about a block. -/
inductive BlockStatus where
  | processing
  | accepted
  | rejected
deriving DecidableEq

namespace BlockStatus

/-- The word that names the status. -/
def name : BlockStatus → String
  | processing => "Processing"
  | accepted => "Accepted"
  | rejected => "Rejected"

/-- Whether consensus is done with the block. -/
def isDecided (status : BlockStatus) : Bool := status ≠ .processing

end BlockStatus

/-- A block's content with its frame and its identifier. -/
structure Block where
  content : BlockContent
  /-- The frame of the content. -/
  bytes : Bytes
  /-- The hash of the frame. -/
  id : Hash
  id_eq : id = Hash.of bytes
deriving DecidableEq

namespace Block

/-- The block with the given content, if its frame is within the limit. -/
def ofContent (framing : Framing) (content : BlockContent) : Except FrameError Block := do
  let bytes ← framing.encode content
  return ⟨content, bytes, Hash.of bytes, rfl⟩

/-- The block with the given frame. -/
def ofBytes (framing : Framing) (bytes : Bytes) : Except FrameError Block := do
  let content ← framing.decode bytes
  return ⟨content, bytes, Hash.of bytes, rfl⟩

/-- The block of height zero that every chain with these parameters starts from. -/
def first (framing : Framing) (g : Genesis) : Except FrameError Block :=
  ofContent framing {
    parentId := Hash.zero
    timestamp := 0
    height := 0
    difficulty := g.minDifficulty
    cost := g.minBlockCost
    txs := [] }

def parentId (b : Block) : Hash := b.content.parentId

def timestamp (b : Block) : UInt64 := b.content.timestamp

def height (b : Block) : UInt64 := b.content.height

def difficulty (b : Block) : UInt64 := b.content.difficulty

def cost (b : Block) : UInt64 := b.content.cost

def txs (b : Block) : List Transaction := b.content.txs

end Block

end LeaseChain
