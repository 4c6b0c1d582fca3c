import LeaseChain.Engine.Verification
import LeaseChain.Proofs.Wire.Frames
import LeaseChain.Proofs.Work
import Mathlib.Algebra.Order.BigOperators.Group.List
import Mathlib.Algebra.Order.Ring.Int
import Mathlib.Data.List.Dedup

/-!
# The market in exact arithmetic

The rules of the market are computed on words that stop at the ends of their range. Here they stand
once more over the integers, where nothing stops. A hash has 256 bits, so that the work of a
transaction is a small number, and a frame has a limited size, so that a block has few transactions:
the sum of its surplus never reaches the end of the range, whatever its difficulty and its cost are.

## Key results

- `Transaction.difficulty_le`: no transaction proves more work than a hash has bits
- `Block.toNat_surplus`: the surplus of a framed block is the exact one
- `Block.price_le_of_not_lt`: a block that carries the required surplus pays the exact price
- `FeeMarket.toNat_nextCost`, `FeeMarket.exactDifficulty_le`: retargeting asks for no less than the
  exact rule does
-/

namespace LeaseChain

/-! ## Work -/

/-- `Transaction.difficulty` is at most 256, the number of bits of the digest. -/
theorem Transaction.difficulty_le (tx : Transaction) : tx.difficulty.toNat ≤ 256 :=
  ((Work.le_difficultyOf_iff tx.digest tx.difficulty).1 (UInt64.le_refl _)).1

/-! ## The surplus -/

namespace Block

/-- The work of transactions above a difficulty, over the integers. -/
def exactSurplus (difficulty : UInt64) (txs : List Transaction) : Int :=
  (txs.map fun tx => (tx.difficulty.toNat - difficulty.toNat : Int)).sum

/-- What a block has to pay, over the integers. -/
def price (b : Block) : Int := b.difficulty.toNat * b.cost.toNat

variable {difficulty : UInt64} {txs : List Transaction}

/-- `exactSurplus` of one transaction more adds its own work above the difficulty. -/
theorem exactSurplus_cons (difficulty : UInt64) (tx : Transaction) (txs : List Transaction) :
    exactSurplus difficulty (tx :: txs) =
      (tx.difficulty.toNat - difficulty.toNat) + exactSurplus difficulty txs := by
  simp [exactSurplus]

/-- Where each transaction meets the difficulty, `exactSurplus` is not negative. -/
theorem exactSurplus_nonneg (hwork : ∀ tx ∈ txs, difficulty ≤ tx.difficulty) :
    0 ≤ exactSurplus difficulty txs := by
  refine List.sum_nonneg fun x hx => ?_
  obtain ⟨tx, htx, rfl⟩ := List.mem_map.1 hx
  have hle := UInt64.le_iff_toNat_le.1 (hwork tx htx)
  omega

/-- `exactSurplus` is at most 256 for each transaction, whatever the difficulty is. -/
theorem exactSurplus_le (difficulty : UInt64) (txs : List Transaction) :
    exactSurplus difficulty txs ≤ 256 * txs.length := by
  -- induction on the transactions, with `Transaction.difficulty_le` for each
  induction txs with
  | nil => exact Int.le_refl _
  | cons tx txs ih =>
    have hbits := tx.difficulty_le
    rw [exactSurplus_cons, List.length_cons]
    omega

/--
`satAdd` over the work above the difficulty sums to the exact surplus, or stops at the end of the
range.
-/
theorem toNat_foldl_satAdd (hwork : ∀ tx ∈ txs, difficulty ≤ tx.difficulty) (sum : UInt64) :
    ((txs.foldl (fun sum tx => satAdd sum (tx.difficulty - difficulty)) sum).toNat : Int) =
      min (sum.toNat + exactSurplus difficulty txs) (UInt64.size - 1 : Nat) := by
  -- induction on the transactions, for every sum that is reached before the rest
  induction txs generalizing sum with
  | nil =>
    have hlt := sum.toNat_lt_size
    simp only [List.foldl_nil, exactSurplus, List.map_nil, List.sum_nil]
    omega
  | cons tx txs ih =>
    obtain ⟨hle, hrest⟩ := List.forall_mem_cons.1 hwork
    have hnonneg := exactSurplus_nonneg hrest
    have hsub := UInt64.toNat_sub_of_le tx.difficulty difficulty hle
    rw [UInt64.le_iff_toNat_le] at hle
    -- a sum that stopped at the end of the range stays there, as nothing is taken away again
    rw [List.foldl_cons, ih hrest, toNat_satAdd, hsub, exactSurplus_cons]
    omega

/-- `surplus` of a framed block is exact, far from the end of the range. -/
theorem toNat_surplus {b : Block} (hb : b.IsFramed Framing.standard)
    (hwork : ∀ tx ∈ b.txs, b.difficulty ≤ tx.difficulty) :
    ((surplus b.difficulty b.txs).toNat : Int) = exactSurplus b.difficulty b.txs ∧
      exactSurplus b.difficulty b.txs ≤ 2 ^ 29 := by
  have hfold := toNat_foldl_satAdd hwork 0
  have hbits := exactSurplus_le b.difficulty b.txs
  -- a frame has 2 MiB, and each transaction takes a byte of it at least
  have hcount : b.txs.length ≤ 2 * 1024 * 1024 := length_txs_le hb
  simp only [surplus]
  simp only [UInt64.toNat_zero, UInt64.size] at hfold
  omega

/-- `price` is what `requiredSurplus` asks for, and a block that carries that pays it. -/
theorem price_le_of_not_lt {b : Block} (hb : b.IsFramed Framing.standard)
    (hwork : ∀ tx ∈ b.txs, b.difficulty ≤ tx.difficulty)
    (hsurplus : ¬surplus b.difficulty b.txs < FeeMarket.requiredSurplus b.difficulty b.cost) :
    b.price ≤ exactSurplus b.difficulty b.txs ∧
      ((FeeMarket.requiredSurplus b.difficulty b.cost).toNat : Int) = b.price := by
  obtain ⟨hexact, hbound⟩ := toNat_surplus hb hwork
  have hprice : b.price = (b.difficulty.toNat * b.cost.toNat : Nat) := rfl
  rw [UInt64.not_lt, UInt64.le_iff_toNat_le] at hsurplus
  -- a product that had stopped at the end of the range would be more than any surplus
  simp only [FeeMarket.requiredSurplus, toNat_satMul, UInt64.size] at hsurplus ⊢
  rw [hprice]
  omega

end Block

/-! ## Retargeting -/

/-- Every parameter among `nonZero` is not zero in a genesis that validates. -/
theorem Genesis.ne_zero_of_validate {g : Genesis} (h : g.validate = .ok ())
    {parameter : String × UInt64} (hmem : parameter ∈ g.nonZero) : parameter.2 ≠ 0 := by
  intro hzero
  unfold validate at h
  split at h
  · cases h
  · next hnone =>
    have hnot := List.find?_eq_none.1 hnone parameter hmem
    exact hnot (by simp [hzero])

namespace FeeMarket

variable (g : Genesis) (parentCost parentDifficulty seconds : UInt64) (recentTxs : Nat)

/-- The cost of a block, over the integers. -/
def exactCost (g : Genesis) (parentCost seconds : Nat) : Int :=
  max (parentCost + g.targetBlockRate.toNat - seconds) g.minBlockCost.toNat

/-- The number of transactions that the window is aimed to hold. -/
def exactTarget (g : Genesis) : Nat :=
  g.targetBlockSize.toNat * g.lookbackWindow.toNat / g.targetBlockRate.toNat

/-- The difficulty of a block, over the integers. -/
def exactDifficulty (g : Genesis) (parentDifficulty recentTxs seconds : Nat) : Int :=
  if exactTarget g < recentTxs then parentDifficulty + 1
  else
    max (parentDifficulty - (seconds / g.lookbackWindow.toNat + 1 : Nat)) g.minDifficulty.toNat

/-- `nextCost` is `exactCost`, or the greatest quantity. -/
theorem toNat_nextCost : ((nextCost g parentCost seconds).toNat : Int) =
    min (exactCost g parentCost.toNat seconds.toNat) (UInt64.size - 1 : Nat) := by
  simp only [nextCost, toNat_clamp, exactCost]
  omega

/-- The cost never falls below `minBlockCost`. -/
theorem minBlockCost_le_nextCost : g.minBlockCost ≤ nextCost g parentCost seconds := by
  have hlt := g.minBlockCost.toNat_lt_size
  simp only [UInt64.le_iff_toNat_le, nextCost, toNat_clamp]
  omega

/-! ### The count of windows

The count is a sum of words. It wraps around in one place only, and it is exact everywhere else.
-/

/-- The count `startedWindows` is the exact one, taken modulo the size of a word. -/
theorem toNat_startedWindows : (startedWindows g seconds).toNat =
    (seconds.toNat / max g.lookbackWindow.toNat 1 + 1) % UInt64.size := by
  rw [startedWindows, UInt64.toNat_add, UInt64.toNat_div, UInt64.toNat_max, UInt64.toNat_one]

theorem toNat_startedWindows_le : (startedWindows g seconds).toNat ≤
    seconds.toNat / max g.lookbackWindow.toNat 1 + 1 := by
  rw [toNat_startedWindows]
  exact Nat.mod_le _ _

/-- The count `startedWindows` is the exact one, unless it has come out as zero. -/
theorem toNat_startedWindows_of_ne_zero (hcount : startedWindows g seconds ≠ 0) :
    (startedWindows g seconds).toNat = seconds.toNat / max g.lookbackWindow.toNat 1 + 1 := by
  have hlt := seconds.toNat_lt_size
  have hle := Nat.div_le_self seconds.toNat (max g.lookbackWindow.toNat 1)
  have hne : (startedWindows g seconds).toNat ≠ 0 := fun h => hcount (UInt64.toNat_inj.1 h)
  rw [toNat_startedWindows] at hne ⊢
  -- a quotient of words is a word: its successor is one too, or the end of the range
  rcases Nat.lt_or_eq_of_le (Nat.succ_le_of_lt (Nat.lt_of_le_of_lt hle hlt)) with hfits | hend
  · exact Nat.mod_eq_of_lt hfits
  · rw [Nat.succ_eq_add_one] at hend
    rw [hend, Nat.mod_self] at hne
    exact absurd rfl hne

/-- The count `startedWindows` wraps around in the last second of windows of one second. -/
theorem startedWindows_eq_zero_iff : startedWindows g seconds = 0 ↔
    g.lookbackWindow ≤ 1 ∧ seconds.toNat = UInt64.size - 1 := by
  have hlt := seconds.toNat_lt_size
  have hone : (1 : UInt64).toNat = 1 := rfl
  rw [← UInt64.toNat_inj, toNat_startedWindows, UInt64.le_iff_toNat_le, UInt64.toNat_zero, hone]
  by_cases hshort : g.lookbackWindow.toNat ≤ 1
  · rw [Nat.max_eq_right hshort, Nat.div_one]
    simp only [UInt64.size] at hlt ⊢
    omega
  · -- with longer windows there are at most half as many, and no count comes near the end
    have hhalf : seconds.toNat / max g.lookbackWindow.toNat 1 ≤ seconds.toNat / 2 :=
      Nat.div_le_div_left (by omega) (by omega)
    generalize seconds.toNat / max g.lookbackWindow.toNat 1 = windows at hhalf ⊢
    simp only [UInt64.size] at hlt ⊢
    omega

variable {g parentDifficulty}

/-- `targetTransactions` is no more than `exactTarget`. -/
theorem targetTransactions_le (hrate : g.targetBlockRate ≠ 0) :
    g.targetTransactions.toNat ≤ exactTarget g := by
  have hrate : 1 ≤ g.targetBlockRate.toNat :=
    Nat.one_le_iff_ne_zero.2 fun h => hrate (UInt64.toNat_inj.1 h)
  -- the quotient is by the rate, as a rate is not zero
  rw [Genesis.targetTransactions, UInt64.toNat_div, UInt64.toNat_max, toNat_satMul,
    UInt64.toNat_one, Nat.max_eq_left hrate]
  exact Nat.div_le_div_right (Nat.min_le_left _ _)

/-- The difficulty never falls below `minDifficulty`, if the parent's is not below it. -/
theorem minDifficulty_le_nextDifficulty (hfloor : g.minDifficulty ≤ parentDifficulty) :
    g.minDifficulty ≤ nextDifficulty g parentDifficulty recentTxs seconds := by
  unfold nextDifficulty
  -- above the target it rises, and below it the maximum holds it up
  split
  · exact UInt64.le_trans hfloor (le_satAdd_left _ _)
  · rw [UInt64.le_iff_toNat_le, UInt64.toNat_max]
    exact Nat.le_max_right _ _

/--
The difficulty `nextDifficulty` is no less than `exactDifficulty`, as long as it does not reach the
end of the range. It is more only where the product in the target has stopped there and made the
target smaller, or where the count of windows has wrapped around.
-/
theorem exactDifficulty_le (hrate : g.targetBlockRate ≠ 0) (hwindow : g.lookbackWindow ≠ 0)
    (hfloor : g.minDifficulty ≤ parentDifficulty)
    (hend : (nextDifficulty g parentDifficulty recentTxs seconds).toNat < UInt64.size - 1) :
    exactDifficulty g parentDifficulty.toNat recentTxs seconds.toNat ≤
      (nextDifficulty g parentDifficulty recentTxs seconds).toNat := by
  have htarget := targetTransactions_le hrate
  have hone : max g.lookbackWindow.toNat 1 = g.lookbackWindow.toNat := by
    have hne : g.lookbackWindow.toNat ≠ 0 := fun h => hwindow (UInt64.toNat_inj.1 h)
    omega
  have hlt := parentDifficulty.toNat_lt_size
  have hwindows := toNat_startedWindows_le g seconds
  rw [UInt64.le_iff_toNat_le] at hfloor
  rw [hone] at hwindows
  unfold nextDifficulty at hend ⊢
  unfold exactDifficulty
  generalize seconds.toNat / g.lookbackWindow.toNat = windows at hwindows ⊢
  by_cases hmany : g.targetTransactions.toNat < recentTxs
  · -- one more than the parent's, which the exact rule never exceeds; the count has no part in it
    clear hwindows
    simp only [if_pos hmany, toNat_satAdd, UInt64.toNat_one] at hend ⊢
    split <;> omega
  · -- no more than the target, and so no more than the exact target
    have hfew : ¬exactTarget g < recentTxs := by omega
    simp only [if_neg hmany, if_neg hfew, UInt64.toNat_max, toNat_satSub]
    omega

end FeeMarket

end LeaseChain
