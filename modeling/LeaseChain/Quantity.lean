/-!
# Saturating quantities

Amounts, prices, times and counters are unsigned sixty-four-bit words whose sums, differences and
products stop at the ends of the range. Each operation is the exact one on natural numbers followed
by `clamp`, which is what the `toNat_…` lemmas say. The few sums that wrap around instead are those
of words, with `+`: a height and the next one, a time and the next second, and a count of windows.
-/

namespace LeaseChain

/-- The quantity nearest to a natural number. -/
def clamp (n : Nat) : UInt64 := UInt64.ofNat (min n (UInt64.size - 1))

/-- The sum, or the largest quantity where the sum exceeds it. -/
def satAdd (a b : UInt64) : UInt64 := clamp (a.toNat + b.toNat)

/-- The difference, or zero where `b` is larger. -/
def satSub (a b : UInt64) : UInt64 := clamp (a.toNat - b.toNat)

/-- The product, or the largest quantity where the product exceeds it. -/
def satMul (a b : UInt64) : UInt64 := clamp (a.toNat * b.toNat)

/-- `clamp` leaves words as they are, and stops at the largest one. -/
@[simp] theorem toNat_clamp (n : Nat) : (clamp n).toNat = min n (UInt64.size - 1) := by
  simp only [clamp, UInt64.toNat_ofNat', UInt64.size]
  omega

/-- `satAdd` is the exact sum, up to the largest word. -/
theorem toNat_satAdd (a b : UInt64) :
    (satAdd a b).toNat = min (a.toNat + b.toNat) (UInt64.size - 1) :=
  toNat_clamp _

/-- `satAdd` is no less than its first part, whether it stops at the end of the range or not. -/
theorem le_satAdd_left (a b : UInt64) : a ≤ satAdd a b := by
  have := a.toNat_lt
  rw [UInt64.le_iff_toNat_le, toNat_satAdd, UInt64.size]
  omega

/-- A difference is that of natural numbers, which is zero where `b` is larger. -/
theorem toNat_satSub (a b : UInt64) : (satSub a b).toNat = a.toNat - b.toNat := by
  have := a.toNat_lt
  simp only [satSub, toNat_clamp, UInt64.size]
  omega

/-- `satMul` is the exact product, up to the largest word. -/
theorem toNat_satMul (a b : UInt64) :
    (satMul a b).toNat = min (a.toNat * b.toNat) (UInt64.size - 1) :=
  toNat_clamp _

end LeaseChain
