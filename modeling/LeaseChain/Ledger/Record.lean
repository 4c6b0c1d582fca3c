import LeaseChain.Genesis.Basic
import LeaseChain.Store
import LeaseChain.Store.Key
import LeaseChain.Store.View

/-!
# Ledger records

What the ledger keeps under the keys of the store: leases, values, balances and the index of
transactions. Reading is through a `View`, and a record that is absent is told from one that cannot
be read; writing stages the record's byte form.
-/

namespace LeaseChain

/-- The ownership and the rent of a namespace. -/
structure Lease where
  owner : PublicKey
  createdAt : UInt64
  lastUpdated : UInt64
  /-- The last second of the lease. -/
  expiry : UInt64
  /-- How fast paid time is used up: it grows with the data that the namespace holds. -/
  units : UInt64
deriving DecidableEq

instance : Wire Lease where
  write l := Wire.write l.owner ++ Wire.write l.createdAt ++ Wire.write l.lastUpdated ++
    Wire.write l.expiry ++ Wire.write l.units
  read := return ⟨← Wire.read, ← Wire.read, ← Wire.read, ← Wire.read, ← Wire.read⟩

namespace Lease

/-- Whether the lease has run out. -/
def isExpired (lease : Lease) (now : UInt64) : Bool := lease.expiry < now

/-- Spreads the time that was left at the last update over the new units, from now on. -/
def rebalance (lease : Lease) (units now : UInt64) : Lease :=
  let paid := (lease.expiry.toNat - lease.lastUpdated.toNat) * max lease.units.toNat 1
  { lease with
    units := max units 1
    lastUpdated := now
    expiry := satAdd now (clamp (paid / max units.toNat 1)) }

end Lease

/-- A value under a namespace. -/
structure StoredValue where
  /-- The transaction that wrote the value last. -/
  txId : Hash
  updated : UInt64
  size : UInt64
  value : Bytes
deriving DecidableEq

instance : Wire StoredValue where
  write v := Wire.write v.txId ++ Wire.write v.updated ++ Wire.write v.size ++ Wire.write v.value
  read := return ⟨← Wire.read, ← Wire.read, ← Wire.read, ← Wire.read⟩

/-- The record that stored bytes begin with. -/
def readRecord {α : Type} [Wire α] (bytes : Bytes) : Except StorageError α :=
  (Wire.readFront bytes).mapError .record

namespace View

/-- The record of a key, if the key has a value. -/
def record? {α : Type} [Wire α] (view : View) (key : Bytes) :
    Except StorageError (Option α) :=
  match view.get? key with
  | some bytes => some <$> readRecord bytes
  | none => .ok none

/-- The lease of a namespace, live or expired. -/
def lease? (view : View) (name : String) : Except StorageError (Option Lease) :=
  view.record? (StoreKey.lease name)

/-- The lease of a namespace, if it has not run out. -/
def liveLease? (view : View) (name : String) (now : UInt64) :
    Except StorageError (Option Lease) := do
  return (← view.lease? name).filter fun lease => !lease.isExpired now

/-- The value of a key under a namespace. -/
def value? (view : View) (name : String) (key : Bytes) :
    Except StorageError (Option StoredValue) :=
  view.record? (StoreKey.value name key)

/-- All values under a namespace with their keys, in the order of the keys. -/
def values (view : View) (name : String) : Except StorageError (List (Bytes × StoredValue)) :=
  let start := StoreKey.valuesOf name
  (view.scan start).toList.mapM fun (key, bytes) => do
    return (key.drop start.length, ← readRecord bytes)

/-- The balance of a key, zero where there is none. -/
def balance (view : View) (holder : PublicKey) : Except StorageError UInt64 := do
  return (← view.record? (StoreKey.balance holder)).getD 0

/-- Whether a transaction is in the index. -/
def hasTransaction (view : View) (id : Hash) : Bool := view.has (StoreKey.transaction id)

end View

namespace Changes

/-- Stages the lease of a namespace. -/
def putLease (changes : Changes) (name : String) (lease : Lease) : Changes :=
  changes.put (StoreKey.lease name) (Wire.write lease)

/-- Stages a value under a namespace. -/
def putValue (changes : Changes) (name : String) (key : Bytes) (value : StoredValue) : Changes :=
  changes.put (StoreKey.value name key) (Wire.write value)

/-- Stages the deletion of a value under a namespace. -/
def deleteValue (changes : Changes) (name : String) (key : Bytes) : Changes :=
  changes.delete (StoreKey.value name key)

/-- Stages a balance. -/
def putBalance (changes : Changes) (holder : PublicKey) (balance : UInt64) : Changes :=
  changes.put (StoreKey.balance holder) (Wire.write balance)

/-- Stages the index entry of a transaction: the block that includes it. -/
def putTransaction (changes : Changes) (id blockId : Hash) : Changes :=
  changes.put (StoreKey.transaction id) blockId.bytes

/-- Stages the deletion of all values that a view has under a namespace. -/
def deleteValues (changes : Changes) (view : View) (name : String) : Changes :=
  (view.scan (StoreKey.valuesOf name)).foldl (fun changes key _ => changes.delete key) changes

end Changes

end LeaseChain
