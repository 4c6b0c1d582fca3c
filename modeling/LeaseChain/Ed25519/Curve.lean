import LeaseChain.Bytes

/-!
# The Edwards curve of Ed25519

The group of RFC 8032: points of `-x² + y² = 1 + d·x²·y²` over the integers modulo `p = 2²⁵⁵ - 19`,
in extended coordinates `(X : Y : Z : T)` with `x = X/Z`, `y = Y/Z` and `x·y = T/Z`, together with
the thirty-two byte form of a point. Field elements are natural numbers below `p`.
-/

namespace LeaseChain.Ed25519

/-- The order of the field. -/
def p : Nat := (1 <<< 255) - 19

/-- The order of the subgroup that the base point generates. -/
def order : Nat := (1 <<< 252) + 27742317777372353535851937790883648493

/-- The curve's constant, `-121665 / 121666`. -/
def d : Nat := 37095705934669439343138083508754565189542113879843219016388785533085940283555

/-- A square root of minus one. -/
def rootOfMinusOne : Nat :=
  19681161376707505956807079304988542015446066515923890162744021073123829784752

namespace Residue

@[inline] def add (a b : Nat) : Nat := (a + b) % p

@[inline] def sub (a b : Nat) : Nat := (a + (p - b)) % p

@[inline] def mul (a b : Nat) : Nat := a * b % p

@[inline] def neg (a : Nat) : Nat := (p - a) % p

/-- The power `x ^ e` for an exponent below `2 ^ 256`, by squaring along its binary digits. -/
def pow (x e : Nat) : Nat :=
  Nat.fold 256 (fun i _ acc =>
    let square := mul acc acc
    if e.testBit (255 - i) then mul square x else square) 1

/-- The inverse of a non-zero element, and zero for zero. -/
def inv (a : Nat) : Nat := pow a (p - 2)

end Residue

/-- A point in extended coordinates. -/
structure Point where
  x : Nat
  y : Nat
  z : Nat
  t : Nat

namespace Point

open Residue

/-- The neutral element. -/
def zero : Point := ⟨0, 1, 1, 0⟩

/-- The base point, whose `y` is four fifths. -/
def base : Point :=
  let x := 15112221349535400772501151409588531511454012693041857206046113283949847762202
  let y := 46316835694926478169428394003475163141307993866256225615783033603165251855960
  ⟨x, y, 1, mul x y⟩

/-- The unified addition law. -/
def add (m n : Point) : Point :=
  let a := mul (sub m.y m.x) (sub n.y n.x)
  let b := mul (m.y + m.x) (n.y + n.x)
  let c := mul (mul m.t (2 * d)) n.t
  let e := mul (2 * m.z) n.z
  let xFactor := sub b a
  let zFactor := sub e c
  let yFactor := e + c
  let tFactor := b + a
  ⟨mul xFactor zFactor, mul yFactor tFactor, mul zFactor yFactor, mul xFactor tFactor⟩

/-- The sum of a point with itself. -/
def double (m : Point) : Point :=
  let a := mul m.x m.x
  let b := mul m.y m.y
  let c := mul (2 * m.z) m.z
  let h := Residue.add a b
  let s := m.x + m.y
  let e := sub h (mul s s)
  let g := sub a b
  let f := c + g
  ⟨mul e f, mul g h, mul f g, mul e h⟩

/-- The inverse of a point. -/
def neg (m : Point) : Point := ⟨Residue.neg m.x, m.y, m.z, Residue.neg m.t⟩

/-- The multiple of a point by a scalar below `2 ^ 256`, by doubling along its binary digits. -/
def smul (scalar : Nat) (m : Point) : Point :=
  Nat.fold 256 (fun i _ acc =>
    let twice := acc.double
    if scalar.testBit (255 - i) then twice.add m else twice) zero

/-- The thirty-two byte form: `y`, with the parity of `x` in the top bit. -/
def compress (m : Point) : Bytes :=
  let zInv := inv m.z
  let x := mul m.x zInv
  let y := mul m.y zInv
  Bytes.ofNatLE 32 (y + (x % 2) <<< 255)

/-- The even square root of `u / v`, if that quotient is a square. -/
def rootOfQuotient? (u v : Nat) : Option Nat :=
  let v3 := mul (mul v v) v
  let v7 := mul (mul v3 v3) v
  let candidate := mul (mul u v3) (pow (mul u v7) ((p - 5) / 8))
  let check := mul v (mul candidate candidate)
  let even (r : Nat) : Nat := if r % 2 = 0 then r else p - r
  if check = u then some (even candidate)
  else if check = Residue.neg u then some (even (mul candidate rootOfMinusOne))
  else none

/--
The point whose compressed form is given. The low 255 bits are read modulo `p`, so a `y` has one or
two forms; the top bit may be set also when `x` is zero.
-/
def decompress? (bytes : Bytes) : Option Point := do
  let value := Bytes.toNatLE bytes
  let y := value % (1 <<< 255) % p
  let square := mul y y
  let x ← rootOfQuotient? (sub square 1) (Residue.add (mul d square) 1)
  let x := if value.testBit 255 then Residue.neg x else x
  return ⟨x, y, 1, mul x y⟩

end Point

end LeaseChain.Ed25519
