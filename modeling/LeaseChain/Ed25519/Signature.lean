import LeaseChain.Ed25519.Curve
import LeaseChain.Hash.Sha512

/-!
# Ed25519 signatures

Key derivation, signing and verification of RFC 8032 on byte strings. Verification is the
cofactorless equation on compressed points: the scalar half must be below the group order, and
`S·B - k·A`, compressed, must be the signature's first half byte for byte.
-/

namespace LeaseChain.Ed25519

/-- The secret scalar of a seed's digest: the low half, with the bits of RFC 8032 fixed. -/
def secretScalar (digest : Bytes) : Nat :=
  let low := Bytes.toNatLE (digest.take 32) % (1 <<< 254)
  low - low % 8 + (1 <<< 254)

/-- The compressed public key of a seed. -/
def publicKey (seed : Bytes) : Bytes :=
  (Point.smul (secretScalar (Sha512.digest seed)) Point.base).compress

/-- The number that hashing the given bytes yields, modulo the group order. -/
def hashScalar (bytes : Bytes) : Nat := Bytes.toNatLE (Sha512.digest bytes) % order

/-- The sixty-four byte signature of a message under a seed. -/
def sign (seed message : Bytes) : Bytes :=
  let digest := Sha512.digest seed
  let a := secretScalar digest
  let key := (Point.smul a Point.base).compress
  let r := hashScalar (digest.drop 32 ++ message)
  let commitment := (Point.smul r Point.base).compress
  let k := hashScalar (commitment ++ key ++ message)
  commitment ++ Bytes.ofNatLE 32 ((r + k * a) % order)

@[simp] theorem length_sign (seed message : Bytes) : (sign seed message).length = 64 := by
  simp [sign, Point.compress]

/-- Whether the bytes of a signature are one of the message under the key. -/
def verify (key message signature : Bytes) : Bool :=
  match Point.decompress? key with
  | none => false
  | some a =>
    let commitment := signature.take 32
    let s := Bytes.toNatLE (signature.drop 32)
    let k := hashScalar (commitment ++ key ++ message)
    s < order &&
      ((Point.smul s Point.base).add (Point.smul k a.neg)).compress == commitment

end LeaseChain.Ed25519
