import LeaseChain.Ed25519.Signature
import LeaseChain.Hash

/-!
# Keys and signatures

Senders, owners and holders of balances are public keys: thirty-two bytes that compress a point of
the curve. Two keys are the same exactly when their bytes are, and they are ordered by their bytes.
A signature is any sixty-four bytes; whether it fits is decided by `Signature.verify`.
-/

namespace LeaseChain

/-- What can be wrong with a hash, a key or a signature. -/
inductive CryptoError where
  /-- Bytes that should be a hash have another length. -/
  | malformedHash
  /-- The signature is not one of the message under the key. -/
  | signatureMismatch
  /-- The bytes compress no point of the curve. -/
  | invalidPublicKey
deriving DecidableEq

namespace CryptoError

/-- The text shown for the error. -/
def message : CryptoError → String
  | malformedHash => "Hash conversion error"
  | signatureMismatch => "Signature verification failed"
  | invalidPublicKey => "Invalid public key"

end CryptoError

/-- Thirty-two bytes that compress a point of the curve. -/
structure PublicKey where
  bytes : Bytes
  length_eq : bytes.length = 32
  isPoint : (Ed25519.Point.decompress? bytes).isSome = true

namespace PublicKey

/-- `PublicKey` is determined by its `bytes`. -/
@[ext] theorem ext {a b : PublicKey} (h : a.bytes = b.bytes) : a = b := by
  cases a; cases b; cases h; rfl

instance : DecidableEq PublicKey := fun a b =>
  decidable_of_iff (a.bytes = b.bytes) ⟨ext, fun h => h ▸ rfl⟩

/-- A byte string as a public key, if it is one. -/
def ofBytes? (bytes : Bytes) : Option PublicKey :=
  if hl : bytes.length = 32 then
    if hp : (Ed25519.Point.decompress? bytes).isSome = true then some ⟨bytes, hl, hp⟩ else none
  else none

/-- `ofBytes?` gives a key back from its bytes. -/
theorem ofBytes?_bytes (key : PublicKey) : ofBytes? key.bytes = some key := by
  rw [ofBytes?, dif_pos key.length_eq, dif_pos key.isPoint]

theorem ofBytes?_eq_some_iff {bytes : Bytes} {key : PublicKey} :
    ofBytes? bytes = some key ↔ bytes = key.bytes := by
  refine ⟨fun hof => ?_, fun heq => heq ▸ ofBytes?_bytes key⟩
  rw [ofBytes?, Option.dite_none_right_eq_some] at hof
  obtain ⟨_, hof⟩ := hof
  rw [Option.dite_none_right_eq_some] at hof
  obtain ⟨_, hof⟩ := hof
  exact congrArg PublicKey.bytes (Option.some.inj hof)

/-- A byte string as a public key, or the error of a string that is none. -/
def ofBytes (bytes : Bytes) : Except CryptoError PublicKey :=
  match ofBytes? bytes with
  | some key => .ok key
  | none => .error .invalidPublicKey

/-- The public key that sixty-four hexadecimal digits of either case spell. -/
def ofHex (text : String) : Except CryptoError PublicKey :=
  match Hash.ofHex? text with
  | some h => ofBytes h.bytes
  | none => .error .invalidPublicKey

/-- The lower-case hexadecimal text. -/
def toHex (key : PublicKey) : String := Bytes.toHex key.bytes

instance : Ord PublicKey := ⟨fun a b => compare a.bytes b.bytes⟩

instance : Std.TransOrd PublicKey where
  eq_swap {a b} := Std.OrientedCmp.eq_swap (α := Bytes) (a := a.bytes) (b := b.bytes)
  isLE_trans {a b c} := Std.TransCmp.isLE_trans (α := Bytes)
    (a := a.bytes) (b := b.bytes) (c := c.bytes)

instance : Std.LawfulEqOrd PublicKey where
  compare_self {a} := Std.ReflCmp.compare_self (α := Bytes) (a := a.bytes)
  eq_of_compare {_ _} h := PublicKey.ext (Std.LawfulEqCmp.eq_of_compare (α := Bytes) h)

end PublicKey

/-- Sixty-four bytes that may sign a message. -/
structure Signature where
  bytes : Bytes
  length_eq : bytes.length = 64
deriving DecidableEq

namespace Signature

/-- A byte string as a signature, if it has the length of one. -/
def ofBytes? (bytes : Bytes) : Option Signature :=
  if h : bytes.length = 64 then some ⟨bytes, h⟩ else none

/-- Whether the signature is one of the message under the key. -/
def verify (signature : Signature) (key : PublicKey) (message : Bytes) :
    Except CryptoError Unit :=
  if Ed25519.verify key.bytes message signature.bytes then .ok () else .error .signatureMismatch

/-- The lower-case hexadecimal text. -/
def toHex (signature : Signature) : String := Bytes.toHex signature.bytes

end Signature

/-- A signing key, which is the seed that its secret scalar is derived from. -/
structure SigningKey where
  seed : Bytes

namespace SigningKey

/-- The public key that belongs to a signing key. -/
def publicKey (key : SigningKey) : Except CryptoError PublicKey :=
  PublicKey.ofBytes (Ed25519.publicKey key.seed)

/-- The signature of a message. -/
def sign (key : SigningKey) (message : Bytes) : Signature :=
  ⟨Ed25519.sign key.seed message, Ed25519.length_sign key.seed message⟩

end SigningKey

end LeaseChain
