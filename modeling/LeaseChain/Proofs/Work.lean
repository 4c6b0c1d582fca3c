import LeaseChain.Work
import Mathlib.Algebra.Order.Ring.Nat
import Mathlib.Data.Nat.Size

/-!
# Work as a bound on a number

A byte string that is read in big-endian order denotes an integer, and the zero bits in front of the
string are those that the binary form of the integer leaves free. So how much work a hash proves is
how small a number it is: a target asks for a number below a power of two, and each further unit of
the target halves that bound.

## Key results

- `Bytes.toNatBE_cons`: the weight of a byte, by the number of those that follow it
- `Work.leadingZeros_add_size`: the zeros in front and the binary form make up the string, by
  induction along it
- `Work.le_difficultyOf_iff`: a target for the difficulty of a hash is a bound on its number
- `Work.meets_iff_below`: the same of every byte string, and what follows for the count of zeros
-/

namespace LeaseChain

namespace Bytes

/-! ## Big-endian integers -/

/-- One more byte multiplies what eight bits for each byte can hold, `2 ^ (8 * n)`, by 256. -/
private theorem two_pow_bits_succ (n : Nat) : 2 ^ (8 * (n + 1)) = 256 * 2 ^ (8 * n) := by
  rw [Nat.mul_succ, Nat.pow_add, Nat.mul_comm]

/-- `foldl` moves its accumulator up one place for every byte that follows. -/
private theorem foldl_toNatBE (acc : Nat) (bs : Bytes) :
    bs.foldl (fun acc b => 256 * acc + b.toNat) acc = acc * 2 ^ (8 * bs.length) + toNatBE bs := by
  -- induction on the bytes that follow, for any integer that was read before them
  induction bs generalizing acc with
  | nil => simp [toNatBE]
  | cons b bs ih =>
    simp only [toNatBE, List.foldl_cons, List.length_cons]
    rw [ih, ih (256 * 0 + b.toNat), two_pow_bits_succ, Nat.add_mul, Nat.add_mul,
      Nat.mul_comm 256 acc, Nat.mul_assoc]
    omega

/-- The first byte has in `toNatBE` the weight of all places behind it. -/
theorem toNatBE_cons (b : UInt8) (bs : Bytes) :
    toNatBE (b :: bs) = b.toNat * 2 ^ (8 * bs.length) + toNatBE bs := by
  have hfold := foldl_toNatBE (256 * 0 + b.toNat) bs
  rw [Nat.mul_zero, Nat.zero_add] at hfold
  simpa [toNatBE] using hfold

/-- `toNatBE` of a byte string has no more bits than the string. -/
theorem toNatBE_lt (bs : Bytes) : toNatBE bs < 2 ^ (8 * bs.length) := by
  induction bs with
  | nil => exact Nat.one_pos
  | cons b bs ih =>
    have hb : b.toNat + 1 ≤ 256 := b.toNat_lt
    have hfront := Nat.mul_le_mul_right (2 ^ (8 * bs.length)) hb
    rw [Nat.succ_mul] at hfront
    rw [toNatBE_cons, List.length_cons, two_pow_bits_succ]
    omega

/-- `toNat` is zero for the zero byte alone. -/
private theorem toNat_eq_zero_iff {b : UInt8} : b.toNat = 0 ↔ b = 0 := @UInt8.toNat_inj b 0

/-- `toNatBE` is zero exactly if all bytes are. -/
theorem toNatBE_eq_zero_iff (bs : Bytes) : toNatBE bs = 0 ↔ ∀ b ∈ bs, b = 0 := by
  induction bs with
  | nil => simp [toNatBE]
  | cons b bs ih =>
    have hweight : 2 ^ (8 * bs.length) ≠ 0 := Nat.ne_of_gt (Nat.two_pow_pos _)
    rw [toNatBE_cons, Nat.add_eq_zero_iff, Nat.mul_eq_zero, or_iff_left hweight, toNat_eq_zero_iff,
      ih, List.forall_mem_cons]

/-! ## The length of the binary form -/

/-- `Nat.size` is one more than the place of the highest bit, `Nat.log2`. -/
theorem size_eq_log2_add_one {n : Nat} (hn : n ≠ 0) : n.size = n.log2 + 1 :=
  eq_of_forall_ge_iff fun _ => Nat.size_le.trans (Nat.log2_lt hn).symm

/-- What stands in the `k` places that a number was moved up by does not make it longer. -/
theorem size_mul_two_pow_add {m r k : Nat} (hm : m ≠ 0) (hr : r < 2 ^ k) :
    (m * 2 ^ k + r).size = m.size + k := by
  apply Nat.le_antisymm
  · -- the low part is too small to make up for one more in the high part
    have hhigh := Nat.mul_le_mul_right (2 ^ k) (Nat.lt_size_self m)
    rw [Nat.succ_mul, ← Nat.pow_add] at hhigh
    rw [Nat.size_le]
    omega
  · rw [← Nat.size_shiftLeft hm, Nat.shiftLeft_eq]
    exact Nat.size_le_size (Nat.le_add_right _ r)

/-- In `Nat.size` all bytes count in full that stand behind one that is not zero. -/
theorem size_toNatBE_cons {b : UInt8} (hb : b ≠ 0) (bs : Bytes) :
    (toNatBE (b :: bs)).size = b.toNat.size + 8 * bs.length := by
  have hne := mt toNat_eq_zero_iff.1 hb
  rw [toNatBE_cons, size_mul_two_pow_add hne (toNatBE_lt bs)]

end Bytes

namespace Work

/-! ## Counting zeros -/

/-- `leadingZeros` counts a zero byte in full, and goes on behind it. -/
theorem leadingZeros_zero_cons (bs : Bytes) : leadingZeros (0 :: bs) = leadingZeros bs + 8 := by
  simp only [leadingZeros, BEq.rfl, List.takeWhile_cons_of_pos, List.dropWhile_cons_of_pos,
    List.length_cons]
  omega

/-- `leadingZeros` ends in the first byte that is not zero, at its highest bit. -/
theorem leadingZeros_cons_add_size {b : UInt8} (hb : b ≠ 0) (bs : Bytes) :
    leadingZeros (b :: bs) + b.toNat.size = 8 := by
  have hsize := Bytes.size_eq_log2_add_one (mt Bytes.toNat_eq_zero_iff.1 hb)
  have hle : b.toNat.size ≤ 8 := Nat.size_le.2 b.toNat_lt
  have hcount : leadingZeros (b :: bs) = 7 - b.toNat.log2 := by
    simp [leadingZeros, hb]
  omega

/-- `leadingZeros` and the `Nat.size` of the integer make up the whole string. -/
theorem leadingZeros_add_size (bytes : Bytes) :
    leadingZeros bytes + bytes.toNatBE.size = 8 * bytes.length := by
  -- zero bytes are counted one by one, and the first other byte ends the induction
  induction bytes with
  | nil => rfl
  | cons b bs ih =>
    rw [List.length_cons]
    by_cases hb : b = 0
    · have hsame : Bytes.toNatBE (0 :: bs) = Bytes.toNatBE bs := by simp [Bytes.toNatBE_cons]
      rw [hb, leadingZeros_zero_cons, hsame]
      omega
    · -- counting is over, and the bytes that are left only add to the binary form
      have hfirst := leadingZeros_cons_add_size hb bs
      rw [Bytes.size_toNatBE_cons hb]
      omega

/-- A number of `leadingZeros` bounds the integer, and such a bound gives as many of them. -/
theorem le_leadingZeros_iff (bytes : Bytes) (n : Nat) :
    n ≤ leadingZeros bytes ↔ n ≤ 8 * bytes.length ∧ bytes.toNatBE < 2 ^ (8 * bytes.length - n) := by
  -- the zeros and the binary form have a sum that the length fixes, so that one bounds the other
  have hbits := leadingZeros_add_size bytes
  rw [← Nat.size_le]
  omega

/-- The `difficultyOf` a hash reaches a target if the integer that it denotes is small enough. -/
theorem le_difficultyOf_iff (hash : Hash) (target : UInt64) :
    target ≤ difficultyOf hash ↔
      target.toNat ≤ 256 ∧ hash.bytes.toNatBE < 2 ^ (256 - target.toNat) := by
  have hzeros := le_leadingZeros_iff hash.bytes target.toNat
  have hlt := target.toNat_lt_size
  rw [hash.length_eq] at hzeros
  rw [← hzeros, UInt64.le_iff_toNat_le, difficultyOf, toNat_clamp]
  omega

/-! ## The threshold -/

/--
A byte string `meets` a target exactly if the target is no more than its bits and the integer
`toNatBE` is below two to the power of the bits that the target leaves. So among strings of one
length a greater integer has no more `leadingZeros`, and all bits are zeros in front exactly if all
bytes are zero.
-/
theorem meets_iff_below (bytes : Bytes) :
    (∀ target : UInt64, meets bytes target = true ↔
      target.toNat ≤ 8 * bytes.length ∧
        bytes.toNatBE < 2 ^ (8 * bytes.length - target.toNat)) ∧
    (∀ other : Bytes, other.length = bytes.length → bytes.toNatBE ≤ other.toNatBE →
      leadingZeros other ≤ leadingZeros bytes) ∧
    (leadingZeros bytes = 8 * bytes.length ↔ ∀ b ∈ bytes, b = 0) := by
  have hbits := leadingZeros_add_size bytes
  refine ⟨?_, ?_, ?_⟩
  · intro target
    rw [meets, decide_eq_true_iff, le_leadingZeros_iff]
  · intro other hlength hle
    have hother := leadingZeros_add_size other
    have hsize := Nat.size_le_size hle
    rw [hlength] at hother
    omega
  · -- zeros take up all bits if none is left for the binary form
    rw [← Bytes.toNatBE_eq_zero_iff, ← Nat.size_eq_zero]
    omega

/--
`meets` nineteen zeros, over two bytes and into the third, and has fewer for a greater integer.
-/
theorem meets_nineteen :
    meets [0x00, 0x00, 0x10] 19 = true ∧ meets [0x00, 0x00, 0x10] 20 = false ∧
      Bytes.toNatBE [0x00, 0x00, 0x10] ≤ Bytes.toNatBE [0x00, 0x80, 0x00] ∧
      leadingZeros [0x00, 0x80, 0x00] ≤ leadingZeros [0x00, 0x00, 0x10] := by
  obtain ⟨htarget, hantitone, _⟩ := meets_iff_below [0x00, 0x00, 0x10]
  have hle : Bytes.toNatBE [0x00, 0x00, 0x10] ≤ Bytes.toNatBE [0x00, 0x80, 0x00] := by decide
  refine ⟨(htarget 19).2 ⟨by decide, by decide⟩, ?_, hle, hantitone _ rfl hle⟩
  rw [Bool.eq_false_iff]
  intro hmeets
  exact absurd ((htarget 20).1 hmeets).2 (by decide)

end Work

end LeaseChain
