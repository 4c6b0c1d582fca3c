import LeaseChain.Ledger.Record
import LeaseChain.Transaction.Basic

/-!
# Executing transactions

`Unsigned.execute` is the rule of the ledger: a function of the transaction, the state it is
executed on, the time of its block and the genesis parameters. It answers the writes that the
transaction makes, or why it makes none. No write of a transaction is read by the same transaction,
so all its reads are of the state before it.
-/

namespace LeaseChain

/-- Why a transaction is not executed. -/
inductive ExecutionError where
  | namespaceEmpty
  | namespaceTooBig (size : Nat)
  /-- The namespace's name holds a slash. -/
  | invalidNamespace (name : String)
  /-- The transaction refers to no block. -/
  | invalidBlockId
  | invalidPrice (price minimum : UInt64)
  | namespaceMissing (name : String)
  | namespaceExpired (name : String)
  /-- The namespace that is claimed has a live lease. -/
  | stillOwned (name : String)
  /-- The sender does not own the namespace. -/
  | unauthorized (name : String)
  | keyEmpty
  | keyMissing
  | keyTooBig (size : Nat)
  | valueEmpty
  | valueTooBig (size : Nat)
  /-- The operation would change nothing. -/
  | noEffect
  | insufficientBalance (required available : UInt64)
  | invalidUnits
  /-- The name spells another public key than the sender's. -/
  | reservedName
  | storage (cause : StorageError)
deriving DecidableEq

namespace ExecutionError

/-- The text shown for the error. -/
def message : ExecutionError → String
  | namespaceEmpty => "Namespace is empty"
  | namespaceTooBig size => s!"Namespace is {size} bytes, over the limit"
  | invalidNamespace name => s!"Namespace contains a path delimiter: {name}"
  | invalidBlockId => "Transaction does not reference a block"
  | invalidPrice price minimum => s!"Price {price} below minimum {minimum}"
  | namespaceMissing name => s!"Namespace not found: {name}"
  | namespaceExpired name => s!"Namespace expired: {name}"
  | stillOwned name => s!"Namespace still owned: {name}"
  | unauthorized name => s!"Sender does not own namespace {name}"
  | keyEmpty => "Key is empty"
  | keyMissing => "Key not found"
  | keyTooBig size => s!"Key is {size} bytes, over the limit"
  | valueEmpty => "Value is empty"
  | valueTooBig size => s!"Value is {size} bytes, over the limit"
  | noEffect => "Operation has no effect"
  | insufficientBalance required available =>
    s!"Insufficient balance: need {required}, have {available}"
  | invalidUnits => "Units must be non-zero"
  | reservedName => "Namespace is reserved for a different public key"
  | storage cause => s!"Storage error: {cause.message}"

end ExecutionError

/-- What a transaction is executed under, beside the state. -/
structure ExecutionContext where
  genesis : Genesis
  /-- The time of the block. -/
  time : UInt64
  /-- The transaction's identifier. -/
  txId : Hash

namespace Ledger

/-- A read of the state, as a step of an execution. -/
def reading {α : Type} (read : Except StorageError α) : Except ExecutionError α :=
  read.mapError .storage

/-- Whether a name can be that of a namespace. -/
def validateName (g : Genesis) (name : String) : Except ExecutionError Unit :=
  let size := name.utf8ByteSize
  if size = 0 then .error .namespaceEmpty
  else if g.maxNamespaceSize.toNat < size then .error (.namespaceTooBig size)
  else if StoreKey.delimiter ∈ Bytes.ofText name then .error (.invalidNamespace name)
  else .ok ()

/--
The checks of a transaction's form that need no state; a transaction that fails one will never be
valid.
-/
def validateForm (g : Genesis) (tx : Unsigned) : Except ExecutionError Unit :=
  if tx.base.blockId = Hash.zero then .error .invalidBlockId
  else if tx.base.price < g.minPrice then .error (.invalidPrice tx.base.price g.minPrice)
  else match tx.operation.name? with
    | some name => validateName g name
    | none => .ok ()

/-- Whether bytes can be the key of a value. -/
def validateKey (g : Genesis) (key : Bytes) : Except ExecutionError Unit :=
  if key.isEmpty then .error .keyEmpty
  else if g.maxKeySize.toNat < key.length then .error (.keyTooBig key.length)
  else .ok ()

/-- Whether bytes can be a value. -/
def validateValue (g : Genesis) (value : Bytes) : Except ExecutionError Unit :=
  if value.isEmpty then .error .valueEmpty
  else if g.maxValueSize.toNat < value.length then .error (.valueTooBig value.length)
  else .ok ()

/-- The lease of a namespace that has one which has not run out. -/
def liveLease (view : View) (name : String) (now : UInt64) : Except ExecutionError Lease := do
  match ← reading (view.lease? name) with
  | none => throw (.namespaceMissing name)
  | some lease => if lease.isExpired now then throw (.namespaceExpired name) else return lease

/-- The live lease of a namespace that the sender owns. -/
def ownedLease (view : View) (name : String) (sender : PublicKey) (now : UInt64) :
    Except ExecutionError Lease := do
  let lease ← liveLease view name now
  if lease.owner = sender then return lease else throw (.unauthorized name)

/-- What is left of the payer's balance after an amount is taken from it. -/
def debit (view : View) (payer : PublicKey) (amount : UInt64) : Except ExecutionError UInt64 := do
  let available ← reading (view.balance payer)
  if available < amount then throw (.insufficientBalance amount available)
  else return available - amount

/-- The units of the value that a key has now, zero where there is none. -/
def heldUnits (g : Genesis) (view : View) (name : String) (key : Bytes) :
    Except ExecutionError UInt64 := do
  match ← reading (view.value? name key) with
  | some previous => return g.valueUnits previous.value.length
  | none => return 0

/-- Takes a namespace that is absent or expired; what an expired one holds is deleted. -/
def claim (ctx : ExecutionContext) (view : View) (sender : PublicKey) (fee : UInt64)
    (name : String) : Except ExecutionError Changes := do
  if (Hash.ofHex? name).any (·.bytes != sender.bytes) then throw .reservedName
  let cleared ← match ← reading (view.lease? name) with
    | some lease =>
      if lease.isExpired ctx.time then pure (Changes.deleteValues ∅ view name)
      else throw (.stillOwned name)
    | none => pure ∅
  let rest ← debit view sender fee
  let lease : Lease := {
    owner := sender
    createdAt := ctx.time
    lastUpdated := ctx.time
    expiry := satAdd ctx.time ctx.genesis.claimReward
    units := 1 }
  return (cleared.putBalance sender rest).putLease name lease

/-- Writes a value under an owned namespace, whose rent follows its units. -/
def set (ctx : ExecutionContext) (view : View) (sender : PublicKey) (fee : UInt64)
    (name : String) (key value : Bytes) : Except ExecutionError Changes := do
  validateKey ctx.genesis key
  validateValue ctx.genesis value
  let lease ← ownedLease view name sender ctx.time
  let rest ← debit view sender fee
  let held ← heldUnits ctx.genesis view name key
  let units := satAdd (satSub lease.units held) (ctx.genesis.valueUnits value.length)
  let stored : StoredValue := {
    txId := ctx.txId
    updated := ctx.time
    size := UInt64.ofNat value.length
    value }
  return ((Changes.putBalance ∅ sender rest).putValue name key stored).putLease name
    (lease.rebalance units ctx.time)

/-- Removes a value from an owned namespace, whose rent follows its units. -/
def delete (ctx : ExecutionContext) (view : View) (sender : PublicKey) (fee : UInt64)
    (name : String) (key : Bytes) : Except ExecutionError Changes := do
  validateKey ctx.genesis key
  let lease ← ownedLease view name sender ctx.time
  match ← reading (view.value? name key) with
  | none => throw .keyMissing
  | some previous =>
    let rest ← debit view sender fee
    let units := satSub lease.units (ctx.genesis.valueUnits previous.value.length)
    return ((Changes.putBalance ∅ sender rest).deleteValue name key).putLease name
      (lease.rebalance units ctx.time)

/-- Hands an owned namespace to another key. -/
def move (ctx : ExecutionContext) (view : View) (sender : PublicKey) (fee : UInt64)
    (name : String) (newOwner : PublicKey) : Except ExecutionError Changes := do
  if newOwner = sender then throw .noEffect
  let lease ← ownedLease view name sender ctx.time
  let rest ← debit view sender fee
  return (Changes.putBalance ∅ sender rest).putLease name { lease with owner := newOwner }

/-- Pays units of the sender's balance to another key. -/
def transfer (view : View) (sender : PublicKey) (fee : UInt64) (recipient : PublicKey)
    (units : UInt64) : Except ExecutionError Changes := do
  if recipient = sender then throw .noEffect
  if units = 0 then throw .invalidUnits
  let rest ← debit view sender (satAdd units fee)
  let held ← reading (view.balance recipient)
  return (Changes.putBalance ∅ sender rest).putBalance recipient (satAdd held units)

/-- Extends a live lease; the more the namespace holds, the less time a unit buys. -/
def lifeline (ctx : ExecutionContext) (view : View) (sender : PublicKey) (fee : UInt64)
    (name : String) (units : UInt64) : Except ExecutionError Changes := do
  if units = 0 then throw .invalidUnits
  let lease ← liveLease view name ctx.time
  let rest ← debit view sender fee
  let extension := satMul units ctx.genesis.lifelineUnitReward / max lease.units 1
  return (Changes.putBalance ∅ sender rest).putLease name
    { lease with expiry := satAdd lease.expiry extension }

end Ledger

/-- The writes of a transaction on the state that a view shows. -/
def Unsigned.execute (tx : Unsigned) (ctx : ExecutionContext) (view : View) :
    Except ExecutionError Changes := do
  Ledger.validateForm ctx.genesis tx
  let sender := tx.base.sender
  let fee := tx.fee ctx.genesis
  match tx.operation with
  | .claim name => Ledger.claim ctx view sender fee name
  | .set name key value => Ledger.set ctx view sender fee name key value
  | .delete name key => Ledger.delete ctx view sender fee name key
  | .move name newOwner => Ledger.move ctx view sender fee name newOwner
  | .transfer recipient units => Ledger.transfer view sender fee recipient units
  | .lifeline name units => Ledger.lifeline ctx view sender fee name units

end LeaseChain
