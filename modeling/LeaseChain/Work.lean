import LeaseChain.Hash
import LeaseChain.Quantity

/-!
# Proof of work

The work that a byte string proves is the number of zero bits in front of its hash, counted from the
most significant bit of the first byte.
-/

namespace LeaseChain.Work

/-- The number of zero bits in front of the first one bit. -/
def leadingZeros (bytes : Bytes) : Nat :=
  8 * (bytes.takeWhile (· == 0)).length +
    match bytes.dropWhile (· == 0) with
    | [] => 0
    | b :: _ => 7 - b.toNat.log2

/-- Whether a hash has at least the targeted number of zero bits in front. -/
def meets (bytes : Bytes) (target : UInt64) : Bool := target.toNat ≤ leadingZeros bytes

/-- The difficulty of a hash, its number of leading zero bits, as a quantity. -/
def difficultyOf (hash : Hash) : UInt64 := clamp (leadingZeros hash.bytes)

/-- The difficulty of a byte string is that of its hash. -/
def difficulty (bytes : Bytes) : UInt64 := difficultyOf (Hash.of bytes)

end LeaseChain.Work
