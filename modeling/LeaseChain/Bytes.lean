/-!
# Byte strings

A byte string is a list of bytes. This module holds its two textual and numeric readings:
hexadecimal text, and the unsigned integer a string denotes in little-endian or big-endian order.

* `ofHex?_toHex`-style facts rest on `hexValue?_hexDigit`: a digit reads back as its value.
* `ofNatLE width n` always has `width` bytes (`length_ofNatLE`), and `toNatLE` inverts it below
  `256 ^ width` (`toNatLE_ofNatLE`).
-/

namespace LeaseChain

/-- A finite sequence of bytes. -/
abbrev Bytes := List UInt8

namespace Bytes

/-! ## Hexadecimal text -/

/-- The lower-case hexadecimal digit of a value below sixteen. -/
def hexDigit (n : Nat) : Char :=
  if n < 10 then Char.ofNat (48 + n) else Char.ofNat (87 + n)

/-- The value of a hexadecimal digit of either case. -/
def hexValue? (c : Char) : Option Nat :=
  if '0' ≤ c ∧ c ≤ '9' then some (c.toNat - 48)
  else if 'a' ≤ c ∧ c ≤ 'f' then some (c.toNat - 87)
  else if 'A' ≤ c ∧ c ≤ 'F' then some (c.toNat - 55)
  else none

/-- The lower-case hexadecimal text of a byte string, two digits per byte, high half first. -/
def toHex (bs : Bytes) : String :=
  bs.foldl (fun text b => (text.push (hexDigit (b.toNat / 16))).push (hexDigit (b.toNat % 16))) ""

/-- Reads pairs of hexadecimal digits. -/
def ofHexChars? : List Char → Option Bytes
  | [] => some []
  | [_] => none
  | high :: low :: rest => do
    let h ← hexValue? high
    let l ← hexValue? low
    let bs ← ofHexChars? rest
    return UInt8.ofNat (16 * h + l) :: bs

/-- The byte string that a text of hexadecimal digits of either case spells, if it spells one. -/
def ofHex? (text : String) : Option Bytes := ofHexChars? text.toList

/-- `hexValue?` reads a digit back as its value. -/
theorem hexValue?_hexDigit {n : Nat} (h : n < 16) : hexValue? (hexDigit n) = some n := by
  have : ∀ m : Fin 16, hexValue? (hexDigit m.val) = some m.val := by decide
  exact this ⟨n, h⟩

/-! ## Integers -/

/-- The little-endian form of `n` in exactly `width` bytes; higher digits are dropped. -/
def ofNatLE : Nat → Nat → Bytes
  | 0, _ => []
  | width + 1, n => UInt8.ofNat n :: ofNatLE width (n / 256)

/-- The unsigned integer that a little-endian byte string denotes. -/
def toNatLE : Bytes → Nat
  | [] => 0
  | b :: bs => b.toNat + 256 * toNatLE bs

/-- The big-endian form of `n` in exactly `width` bytes. -/
def ofNatBE (width n : Nat) : Bytes := (ofNatLE width n).reverse

/-- The unsigned integer that a big-endian byte string denotes. -/
def toNatBE (bs : Bytes) : Nat := bs.foldl (fun acc b => 256 * acc + b.toNat) 0

/-- `ofNatLE` has as many bytes as were asked for. -/
@[simp] theorem length_ofNatLE (width n : Nat) : (ofNatLE width n).length = width := by
  induction width generalizing n with
  | zero => rfl
  | succ width ih => simp [ofNatLE, ih]

/-- An integer that fits into `width` bytes is the one that its form denotes. -/
theorem toNatLE_ofNatLE {width n : Nat} (h : n < Nat.pow 256 width) :
    toNatLE (ofNatLE width n) = n := by
  induction width generalizing n with
  | zero => simp at h; simp [ofNatLE, toNatLE, h]
  | succ width ih =>
    have hn : n / 256 < Nat.pow 256 width :=
      -- what is left of the integer fits into the bytes that are left
      Nat.div_lt_of_lt_mul (by rw [Nat.pow_eq, Nat.pow_succ] at h; rw [Nat.pow_eq]; omega)
    simp only [ofNatLE, toNatLE, ih hn, UInt8.toNat_ofNat']
    omega

/--
`ofNatLE` gives a byte string back from what it denotes, so that no two of one length denote the
same.
-/
theorem ofNatLE_toNatLE (bs : Bytes) : ofNatLE bs.length (toNatLE bs) = bs := by
  induction bs with
  | nil => rfl
  | cons b bs ih =>
    have hb := b.toNat_lt
    have hd : (b.toNat + 256 * toNatLE bs) / 256 = toNatLE bs := by omega
    simp only [List.length_cons, ofNatLE, toNatLE, hd, ih]
    congr 1
    apply UInt8.toNat_inj.mp
    rw [UInt8.toNat_ofNat']
    omega

/-- The bytes of a text in UTF-8. -/
def ofText (text : String) : Bytes := text.toByteArray.data.toList

end Bytes

end LeaseChain
