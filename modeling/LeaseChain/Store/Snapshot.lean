import LeaseChain.Store

/-!
# Snapshots

A snapshot is the byte form of all entries of a store, in the order of their keys.
-/

namespace LeaseChain.Store

/-- The byte form of an entry: its key, then its value. -/
instance : Wire (Bytes × Bytes) where
  write entry := Wire.write entry.1 ++ Wire.write entry.2
  read := return (← Wire.read, ← Wire.read)

/-- The byte form of all entries. -/
def toSnapshot (store : Store) : Bytes := Wire.write store.entries.toList

/-- The store with the entries of a snapshot, on a medium that refuses nothing. -/
def ofSnapshot (bytes : Bytes) : Except StorageError Store := do
  let entries : List (Bytes × Bytes) ← (Wire.readAll bytes).mapError .record
  return ⟨Std.ExtTreeMap.ofList entries, 0⟩

end LeaseChain.Store
