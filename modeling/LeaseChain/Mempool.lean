import Std.Data.ExtTreeSet
import LeaseChain.Transaction.Basic

/-!
# The pool of pending items

A bounded pool that keeps the items of the highest fee. It has two indexes: by identifier, to look
items up and to refuse what is there already, and by rank, a fee and then an identifier, whose
greatest end feeds blocks and whose least end gives way when the pool is full.
-/

namespace LeaseChain

/-- Items that a pool can hold. -/
class Pooled (α : Type) where
  id : α → Hash
  /-- What the item is worth; more is better. -/
  fee : α → UInt64
  /-- The block that the item was made against. -/
  blockId : α → Hash

instance : Pooled Transaction where
  id tx := tx.id
  fee tx := tx.difficulty
  blockId tx := tx.blockId

/-- The place of an item: by fee, and among equal fees by identifier. -/
structure Rank where
  fee : UInt64
  id : Hash
deriving DecidableEq

namespace Rank

/-- Compares fees first and identifiers second. -/
def cmp : Rank → Rank → Ordering := compareLex (compareOn Rank.fee) (compareOn Rank.id)

instance : Ord Rank := ⟨cmp⟩

instance : Std.TransCmp cmp :=
  inferInstanceAs (Std.TransCmp (compareLex (compareOn Rank.fee) (compareOn Rank.id)))

instance : Std.TransOrd Rank := inferInstanceAs (Std.TransCmp cmp)

instance : Std.LawfulEqOrd Rank where
  compare_self {a} := @Std.ReflCmp.compare_self _ cmp _ a
  eq_of_compare {a b} h := by
    have h' : (compare a.fee b.fee).then (compare a.id b.id) = .eq := h
    rw [Ordering.then_eq_eq] at h'
    have hf := Std.LawfulEqCmp.eq_of_compare h'.1
    have hi := Std.LawfulEqCmp.eq_of_compare h'.2
    cases a; cases b; cases hf; cases hi; rfl

end Rank

/-- A bounded pool with an index by identifier and one by rank. -/
structure Mempool (α : Type) where
  maxSize : Nat
  byId : Std.ExtTreeMap Hash α
  byRank : Std.ExtTreeSet Rank

namespace Mempool

variable {α : Type} [Pooled α]

/-- The rank of an item. -/
def rankOf (item : α) : Rank := ⟨Pooled.fee item, Pooled.id item⟩

/-- A pool without items. -/
def empty (maxSize : Nat) : Mempool α := ⟨maxSize, ∅, ∅⟩

/-- The number of items. -/
def size (pool : Mempool α) : Nat := pool.byId.size

/-- Whether there are no items. -/
def isEmpty (pool : Mempool α) : Bool := pool.byId.isEmpty

/-- Whether an item with the identifier is there. -/
def has (pool : Mempool α) (id : Hash) : Bool := pool.byId.contains id

/-- The item with the identifier. -/
def get? (pool : Mempool α) (id : Hash) : Option α := pool.byId[id]?

/-- The item at a rank with its fee. -/
def atRank? (pool : Mempool α) (rank : Rank) : Option (α × UInt64) :=
  (pool.get? rank.id).map (·, rank.fee)

/-- The item of the greatest rank with its fee. -/
def max? (pool : Mempool α) : Option (α × UInt64) := pool.byRank.max?.bind pool.atRank?

/-- The item of the least rank with its fee. -/
def min? (pool : Mempool α) : Option (α × UInt64) := pool.byRank.min?.bind pool.atRank?

/-- Takes the item at a rank out. -/
def takeAt (pool : Mempool α) (rank : Rank) : Option (α × UInt64) × Mempool α :=
  (pool.atRank? rank,
    { pool with byId := pool.byId.erase rank.id, byRank := pool.byRank.erase rank })

/-- Takes the item of the greatest rank out. -/
def popMax (pool : Mempool α) : Option (α × UInt64) × Mempool α :=
  match pool.byRank.max? with
  | some rank => pool.takeAt rank
  | none => (none, pool)

/-- Takes the item of the least rank out. -/
def popMin (pool : Mempool α) : Option (α × UInt64) × Mempool α :=
  match pool.byRank.min? with
  | some rank => pool.takeAt rank
  | none => (none, pool)

/-- Puts an item into both indexes. -/
def insert (pool : Mempool α) (item : α) : Mempool α :=
  { pool with
    byId := pool.byId.insert (Pooled.id item) item
    byRank := pool.byRank.insert (rankOf item) }

/--
Adds an item, unless one with its identifier is there; a pool that grows too large loses its least
item. The answer tells whether the item was added and stayed.
-/
def add (pool : Mempool α) (item : α) : Bool × Mempool α :=
  if pool.has (Pooled.id item) then (false, pool)
  else
    let grown := pool.insert item
    if grown.maxSize < grown.size then
      match grown.popMin with
      | (some (evicted, _), rest) => (Pooled.id evicted != Pooled.id item, rest)
      | (none, rest) => (true, rest)
    else (true, grown)

/-- Takes the item with the identifier out. -/
def remove (pool : Mempool α) (id : Hash) : Option α × Mempool α :=
  match pool.get? id with
  | none => (none, pool)
  | some item =>
    (some item,
      { pool with
        byId := pool.byId.erase id
        byRank := pool.byRank.erase ⟨Pooled.fee item, id⟩ })

/-- Takes items out by their identifiers. -/
def removeAll (pool : Mempool α) (ids : List Hash) : Mempool α :=
  ids.foldl (fun pool id => (pool.remove id).2) pool

/-- The identifiers of the items that were made against a block outside the given ones. -/
def staleIds (pool : Mempool α) (valid : Hash → Bool) : List Hash :=
  (pool.byId.toList.filter fun (_, item) => !valid (Pooled.blockId item)).map (·.1)

/-- Takes out all items that were made against a block outside the given ones, and counts them. -/
def prune (pool : Mempool α) (valid : Hash → Bool) : Nat × Mempool α :=
  let stale := pool.staleIds valid
  (stale.length, pool.removeAll stale)

/-- At most the given number of items, in descending order of rank. -/
def top (pool : Mempool α) (limit : Nat) : List α :=
  (pool.byRank.toList.reverse.take limit).filterMap fun rank => pool.get? rank.id

end Mempool

end LeaseChain
