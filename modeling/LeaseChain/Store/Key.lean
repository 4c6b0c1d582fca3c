import LeaseChain.Key
import LeaseChain.Store.Table

/-!
# The keys of the store

All data of a chain lies in one table. A key starts with the tag of its kind and a slash, so that
each kind is a range of its own. A value's key holds its namespace and, after another slash, its own
key; namespaces hold no slash, so the values of a namespace are a range of their own too.
-/

namespace LeaseChain.StoreKey

/-- The byte between the segments of a key, which no namespace holds. -/
def delimiter : UInt8 := 0x2f

/-- The key of a lease. -/
def lease (name : String) : Bytes := 0x00 :: delimiter :: Bytes.ofText name

/-- What the keys of all values of a namespace start with. -/
def valuesOf (name : String) : Bytes := 0x01 :: delimiter :: (Bytes.ofText name ++ [delimiter])

/-- The key of a value. -/
def value (name : String) (key : Bytes) : Bytes := valuesOf name ++ key

/-- The key of a transaction's index entry. -/
def transaction (id : Hash) : Bytes := 0x02 :: delimiter :: id.bytes

/-- The key of a block. -/
def block (id : Hash) : Bytes := 0x03 :: delimiter :: id.bytes

/-- The key of a balance. -/
def balance (holder : PublicKey) : Bytes := 0x04 :: delimiter :: holder.bytes

/-- The key of a fact about the chain as a whole. -/
def fact (name : String) : Bytes := 0x05 :: delimiter :: Bytes.ofText name

/-- The key of the pointer to the last accepted block. -/
def lastAccepted : Bytes := fact "last_accepted"

/-- The key whose presence tells that the store holds a chain. -/
def initialized : Bytes := fact "initialized"

/-- The key of the genesis document. -/
def genesis : Bytes := fact "genesis"

end LeaseChain.StoreKey
