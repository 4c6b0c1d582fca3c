import LeaseChain.Genesis.Basic
import LeaseChain.Wire
import LeaseChain.Work

/-!
# Transactions

An operation is one of the six things a sender can ask of the ledger. With the sender's key, the
recent block it was mined against, a price and a free number it forms an `Unsigned` transaction,
whose byte form is what work is proved on and what the signature covers. A `Transaction` adds the
signature; it holds its digest and its identifier, with the proof that they are its own.
-/

namespace LeaseChain

/-- What a transaction asks of the ledger. -/
inductive Operation where
  /-- Take ownership of a namespace that is absent or expired. -/
  | claim (name : String)
  /-- Write a value under an owned namespace. -/
  | set (name : String) (key value : Bytes)
  /-- Remove a value from an owned namespace. -/
  | delete (name : String) (key : Bytes)
  /-- Hand an owned namespace to another key. -/
  | move (name : String) (newOwner : PublicKey)
  /-- Pay units of balance to another key. -/
  | transfer (recipient : PublicKey) (units : UInt64)
  /-- Extend the life of a namespace, whoever owns it. -/
  | lifeline (name : String) (units : UInt64)
deriving DecidableEq

namespace Operation

/-- The namespace that the operation touches, if any. -/
def name? : Operation → Option String
  | claim name | set name _ _ | delete name _ | move name _ | lifeline name _ => some name
  | transfer _ _ => none

/-- The word that names the kind of operation. -/
def kind : Operation → String
  | claim _ => "claim"
  | set _ _ _ => "set"
  | delete _ _ => "delete"
  | move _ _ => "move"
  | transfer _ _ => "transfer"
  | lifeline _ _ => "lifeline"

/-- The fee units on top of those that every transaction pays. -/
def extraUnits (g : Genesis) : Operation → UInt64
  | claim _ => g.claimFeeUnits
  | set _ _ value => g.valueUnits value.length
  | lifeline _ units => units
  | delete _ _ | move _ _ | transfer _ _ => 0

/-- The position of the operation's kind among the six. -/
def tag : Operation → UInt32
  | claim _ => 0
  | set _ _ _ => 1
  | delete _ _ => 2
  | move _ _ => 3
  | transfer _ _ => 4
  | lifeline _ _ => 5

/-- The byte form of what the operation is about. -/
def writeFields : Operation → Bytes
  | claim name => Wire.write name
  | set name key value => Wire.write name ++ Wire.write key ++ Wire.write value
  | delete name key => Wire.write name ++ Wire.write key
  | move name newOwner => Wire.write name ++ Wire.write newOwner
  | transfer recipient units => Wire.write recipient ++ Wire.write units
  | lifeline name units => Wire.write name ++ Wire.write units

/-- Takes what an operation with the given tag is about. -/
def readFields (tag : UInt32) : Reader Operation :=
  if tag = 0 then return claim (← Wire.read)
  else if tag = 1 then return set (← Wire.read) (← Wire.read) (← Wire.read)
  else if tag = 2 then return delete (← Wire.read) (← Wire.read)
  else if tag = 3 then return move (← Wire.read) (← Wire.read)
  else if tag = 4 then return transfer (← Wire.read) (← Wire.read)
  else return lifeline (← Wire.read) (← Wire.read)

end Operation

/-- What every transaction carries beside its operation. -/
structure TxBase where
  sender : PublicKey
  /-- The recent block that the transaction was mined against. -/
  blockId : Hash
  /-- The price paid for each fee unit. -/
  price : UInt64
  /-- A free number, searched through while mining. -/
  graffiti : UInt64
deriving DecidableEq

instance : Wire TxBase where
  write base := Wire.write base.sender ++ Wire.write base.blockId ++ Wire.write base.price ++
    Wire.write base.graffiti
  read := return ⟨← Wire.read, ← Wire.read, ← Wire.read, ← Wire.read⟩

/-- A transaction before it is signed. -/
structure Unsigned where
  base : TxBase
  operation : Operation
deriving DecidableEq

namespace Unsigned

instance : Wire Unsigned where
  write tx := Wire.write tx.operation.tag ++ Wire.write tx.base ++ tx.operation.writeFields
  read := do
    let tag : UInt32 ← Wire.read
    if 6 ≤ tag then throw (.unknownTag tag 6)
    return ⟨← Wire.read, ← Operation.readFields tag⟩

/-- The fee units that the transaction is charged for. -/
def feeUnits (tx : Unsigned) (g : Genesis) : UInt64 :=
  satAdd g.baseTxUnits (tx.operation.extraUnits g)

/-- The fee, at the price that the sender offers. -/
def fee (tx : Unsigned) (g : Genesis) : UInt64 := satMul tx.base.price (tx.feeUnits g)

/-- The hash that the signature covers. -/
def digest (tx : Unsigned) : Hash := Hash.of (Wire.write tx)

/-- The work that the transaction proves. -/
def difficulty (tx : Unsigned) : UInt64 := Work.difficultyOf tx.digest

/-- The transaction with another free number. -/
def withGraffiti (tx : Unsigned) (graffiti : UInt64) : Unsigned :=
  { tx with base := { tx.base with graffiti } }

end Unsigned

/-- A signed transaction. -/
structure Transaction where
  unsigned : Unsigned
  signature : Signature
  /-- The hash that the signature covers. -/
  digest : Hash
  /-- The hash of the whole transaction, signature included. -/
  id : Hash
  digest_eq : digest = unsigned.digest
  id_eq : id = Hash.of (Wire.write unsigned ++ Wire.write signature)
deriving DecidableEq

namespace Transaction

/-- The transaction of an unsigned part and a signature. -/
def of (unsigned : Unsigned) (signature : Signature) : Transaction :=
  ⟨unsigned, signature, unsigned.digest, Hash.of (Wire.write unsigned ++ Wire.write signature),
    rfl, rfl⟩

/-- Signs a transaction, whether or not the key is its sender's. -/
def sign (unsigned : Unsigned) (key : SigningKey) : Transaction :=
  of unsigned (key.sign unsigned.digest.bytes)

instance : Wire Transaction where
  write tx := Wire.write tx.unsigned ++ Wire.write tx.signature
  read := return of (← Wire.read) (← Wire.read)

/-- The key on whose behalf the transaction acts. -/
def sender (tx : Transaction) : PublicKey := tx.unsigned.base.sender

/-- The recent block that the transaction was mined against. -/
def blockId (tx : Transaction) : Hash := tx.unsigned.base.blockId

/-- What the transaction asks of the ledger. -/
def operation (tx : Transaction) : Operation := tx.unsigned.operation

/-- The work that the transaction proves. -/
def difficulty (tx : Transaction) : UInt64 := Work.difficultyOf tx.digest

/-- Whether the signature is the sender's over the digest. -/
def verifySignature (tx : Transaction) : Except CryptoError Unit :=
  tx.signature.verify tx.sender tx.digest.bytes

@[simp] theorem unsigned_of (u : Unsigned) (s : Signature) : (of u s).unsigned = u := rfl

@[simp] theorem signature_of (u : Unsigned) (s : Signature) : (of u s).signature = s := rfl

/-- `Transaction` is determined by its `unsigned` part and its `signature`. -/
@[ext] theorem ext {a b : Transaction} (hu : a.unsigned = b.unsigned)
    (hs : a.signature = b.signature) : a = b := by
  obtain ⟨ua, sa, da, ia, hda, hia⟩ := a
  obtain ⟨ub, sb, db, ib, hdb, hib⟩ := b
  cases hu; cases hs
  subst hda hia hdb hib
  rfl

end Transaction

end LeaseChain
