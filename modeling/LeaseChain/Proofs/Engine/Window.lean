import LeaseChain.Proofs.Engine.Payment
import LeaseChain.Proofs.Engine.Rebasing
import LeaseChain.Proofs.Engine.Target
import Mathlib.Data.Set.Card

/-!
# The window of recent blocks

The walk back stops at the first ancestor that is older than the lookback. On a chain that is known
down to the height zero this loses nothing: times fall along the chain, so that whatever is behind
an ancestor that is too old is too old as well. The window is then a set that can be said without a
walk: the parent, however old, and those of its ancestors that the lookback covers. What a child has
to satisfy depends on that set alone.

## Key results

- `Block.Grounded.pairwise_timestamp`: times fall along a chain
- `BlockContext.reached_eq_filter`: the walk leaves out the ancestors that are too old and no others
- `BlockContext.after_takes_window`: the context of a block whose chain is known
-/

namespace LeaseChain

namespace Block.Grounded

variable {b : Block} {path newer older : List Block}

/-- `Grounded` holds behind each block of a chain that goes down to height zero. -/
theorem of_append (hpath : Grounded (newer ++ b :: older)) : Grounded (b :: older) := by
  -- induction on the newer blocks, of which each one has the next as its parent
  induction newer with
  | nil => exact hpath
  | cons c newer ih =>
    cases newer with
    | nil =>
      cases hpath with
      | child _ hpath => exact hpath
    | cons d newer =>
      cases hpath with
      | child _ hpath => exact ih hpath

/-- `Extends` leads from each block of a `Grounded` path to the next one. -/
theorem isChain (hpath : Grounded path) : path.IsChain Block.Extends := by
  induction hpath with
  | ground _ => exact .singleton _
  | child hext _ ih => exact .cons_cons hext ih

/-- `timestamp` falls along a `Grounded` path. -/
theorem pairwise_timestamp (hpath : Grounded path) :
    path.Pairwise fun b a => a.timestamp < b.timestamp := by
  -- each time is before the next, and the order is transitive
  have hchain : path.IsChain fun b a : Block => a.timestamp < b.timestamp :=
    hpath.isChain.imp fun _ _ hext => hext.2.2
  have htrans : Trans (fun b a : Block => a.timestamp < b.timestamp)
      (fun b a : Block => a.timestamp < b.timestamp)
      (fun b a : Block => a.timestamp < b.timestamp) :=
    ⟨fun hab hbc => UInt64.lt_trans hbc hab⟩
  exact hchain.pairwise

end Block.Grounded

namespace BlockContext

variable {g : Genesis} {ε : Type} {now : UInt64} {lookup : Hash → Except ε (Option Block)}
  {parent b : Block} {path older : List Block}

/-- A block is too old if it is more than `lookbackWindow` seconds old. -/
theorem isOlder_iff : isOlder g now b = true ↔
    g.lookbackWindow.toNat < now.toNat - b.timestamp.toNat := by
  rw [isOlder, decide_eq_true_iff, UInt64.lt_iff_toNat_lt, toNat_satSub]

/-- `isOlder` of a block is so of all that came before it. -/
theorem isOlder_of_le {a : Block} (hle : a.timestamp ≤ b.timestamp)
    (hold : isOlder g now b = true) : isOlder g now a = true := by
  rw [UInt64.le_iff_toNat_le] at hle
  rw [isOlder_iff] at hold ⊢
  omega

/-- `reached` leaves out what `isOlder` and nothing else, where times fall along the path. -/
theorem reached_eq_filter (htimes : path.Pairwise fun b a => a.timestamp < b.timestamp) :
    reached g now path = path.filter fun a => !isOlder g now a := by
  rw [reached]
  induction path with
  | nil => rfl
  | cons b path ih =>
    obtain ⟨hbefore, htimes⟩ := List.pairwise_cons.1 htimes
    rw [List.takeWhile_cons, List.filter_cons]
    by_cases hold : isOlder g now b = true
    · -- the walk ends here, and everything that is left came before
      rw [hold]
      refine (List.filter_eq_nil_iff.2 fun a ha hrecent => ?_).symm
      rw [isOlder_of_le (UInt64.le_of_lt (hbefore a ha)) hold] at hrecent
      exact Bool.false_ne_true hrecent
    · rw [Bool.eq_false_iff.2 hold]
      exact congrArg (b :: ·) (ih htimes)

/-- A block is the parent or one of the ancestors that the lookback covers. -/
def InWindow (g : Genesis) (now : UInt64) (parent : Block) (older : List Block) (b : Block) :
    Prop :=
  b = parent ∨ b ∈ older ∧ now.toNat - b.timestamp.toNat ≤ g.lookbackWindow.toNat

/-- The identifiers of the transactions in the window. -/
def windowTxs (g : Genesis) (now : UInt64) (parent : Block) (older : List Block) : Set Hash :=
  {id | ∃ b, InWindow g now parent older b ∧ ∃ tx ∈ b.txs, tx.id = id}

/-- The blocks `InWindow` are the parent and what the walk has `reached` behind it. -/
theorem mem_reached_iff (hchain : Block.Grounded (parent :: older)) :
    b ∈ parent :: reached g now older ↔ InWindow g now parent older b := by
  rw [List.mem_cons, reached_eq_filter (List.pairwise_cons.1 hchain.pairwise_timestamp).2,
    List.mem_filter, InWindow, Bool.not_eq_true', ← Bool.not_eq_true, isOlder_iff, Nat.not_lt]

/-- `recentTxs` are the `windowTxs`, and no others. -/
theorem contains_recentTxs_reached (hchain : Block.Grounded (parent :: older)) (id : Hash) :
    (ofWindow g now parent (parent :: reached g now older)).recentTxs.contains id = true ↔
      id ∈ windowTxs g now parent older := by
  simp only [contains_recentTxs_ofWindow, mem_reached_iff hchain, windowTxs, Set.mem_ofPred_eq]

/-- `recentTxs` counts each of the `windowTxs` once. -/
theorem size_recentTxs_reached (hchain : Block.Grounded (parent :: older)) :
    (ofWindow g now parent (parent :: reached g now older)).recentTxs.size =
      (windowTxs g now parent older).ncard := by
  -- the identifiers are listed by the blocks of the walk, some of them more than once
  have hids : windowTxs g now parent older =
      {id | id ∈ (parent :: reached g now older).flatMap fun b => b.txs.map (·.id)} := by
    ext id
    rw [← contains_recentTxs_reached hchain, contains_recentTxs_ofWindow]
    simp only [Set.mem_ofPred_eq, List.mem_flatMap, List.mem_map]
  rw [hids, ← List.coe_toFinset, Set.ncard_coe_finset, List.card_toFinset]
  exact HashSet.size_ofList _

/--
Let the chain be known down to the height zero, with `parent` and its ancestors `older` on it. The
walk back ends, with `path`, and wherever `limit` lets it take as many steps the context is the
same. Of blocks its `recentBlocks` holds those that are `InWindow`: the parent, and the ancestors
that the lookback covers. Of transactions its `recentTxs` holds `windowTxs`, those of these blocks.
Its `nextDifficulty` comes from how many different ones there are, and like `nextCost` from the
seconds since the parent.
-/
theorem after_takes_window {newer : List Block}
    (hchain : Block.Grounded (newer ++ parent :: older))
    (hlookup : ∀ a ∈ newer ++ parent :: older, lookup a.id = .ok (some a))
    (hnow : parent.timestamp ≤ now) :
    ∃ (path : List Block) (context : BlockContext), WalksBack g now lookup parent path ∧
      (∀ limit, path.length ≤ limit → after g now parent lookup limit = .ok context) ∧
      (∀ id, context.recentBlocks.contains id = true ↔
        ∃ b, InWindow g now parent older b ∧ b.id = id) ∧
      (∀ id, context.recentTxs.contains id = true ↔ id ∈ windowTxs g now parent older) ∧
      context.nextDifficulty = FeeMarket.nextDifficulty g parent.difficulty
        (windowTxs g now parent older).ncard (now - parent.timestamp) ∧
      context.nextCost = FeeMarket.nextCost g parent.cost (now - parent.timestamp) := by
  have hbehind := hchain.of_append
  have hwalk : WalksBack g now lookup parent (reached g now older) :=
    walksBack_reached hbehind fun a ha =>
      hlookup a (List.mem_append_right newer (List.mem_cons_of_mem parent ha))
  -- the parent is not later than the child, so that nothing is cut off
  have hseconds : satSub now parent.timestamp = now - parent.timestamp := by
    rw [← UInt64.toNat_inj, toNat_satSub, UInt64.toNat_sub_of_le _ _ hnow]
  refine ⟨reached g now older, ofWindow g now parent (parent :: reached g now older), hwalk,
    fun limit hlimit => after_eq_ok_iff.2 ⟨_, hwalk.ancestors_eq_ok hlimit, rfl⟩,
    fun id => ?_, contains_recentTxs_reached hbehind, ?_, ?_⟩
  · simp only [contains_recentBlocks_ofWindow, mem_reached_iff hbehind]
  · rw [← size_recentTxs_reached hbehind, ← hseconds]
    rfl
  · rw [← hseconds]
    rfl

end BlockContext

namespace Siblings

/-- The blocks that `upper` stands on, with itself, as a look-up. -/
def lookUp (id : Hash) : Except EngineError (Option Block) :=
  .ok ([upper, left, first].find? fun b => b.id = id)

/-- The chain of `upper` goes down to the first block. -/
theorem grounded_upper : Block.Grounded [upper, left, first] :=
  .child (by decide +kernel) (.child (by decide +kernel) (.ground (by decide +kernel)))

/-- Half a minute after `upper` the window holds the left block and not the first any more. -/
theorem window_upper :
    BlockContext.InWindow genesis 100 upper [left, first] left ∧
    ¬BlockContext.InWindow genesis 100 upper [left, first] first ∧
    ∃ (path : List Block) (context : BlockContext),
      BlockContext.WalksBack genesis 100 lookUp upper path ∧
      (∀ limit, path.length ≤ limit →
        BlockContext.after genesis 100 upper lookUp limit = .ok context) ∧
      (∀ id, context.recentBlocks.contains id = true ↔
        ∃ b, BlockContext.InWindow genesis 100 upper [left, first] b ∧ b.id = id) ∧
      (∀ id, context.recentTxs.contains id = true ↔
        id ∈ BlockContext.windowTxs genesis 100 upper [left, first]) ∧
      context.nextDifficulty = FeeMarket.nextDifficulty genesis upper.difficulty
        (BlockContext.windowTxs genesis 100 upper [left, first]).ncard (100 - upper.timestamp) ∧
      context.nextCost = FeeMarket.nextCost genesis upper.cost (100 - upper.timestamp) := by
  have hchain : Block.Grounded ([] ++ upper :: [left, first]) := grounded_upper
  refine ⟨.inr (by decide +kernel), ?_, ?_⟩
  · -- `first` is neither the parent itself nor recent enough
    rintro (heq | ⟨-, hrecent⟩)
    · exact absurd heq (by decide +kernel)
    · exact absurd hrecent (by decide +kernel)
  · exact BlockContext.after_takes_window hchain (by decide +kernel) (by decide +kernel)

end Siblings

end LeaseChain
