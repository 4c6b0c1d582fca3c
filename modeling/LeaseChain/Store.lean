import LeaseChain.Store.Table
import LeaseChain.Wire.Frame

/-!
# The durable store

A `Store` is the table on a medium. A commit carries changes out all at once, or, where the medium
refuses, not at all.
-/

namespace LeaseChain

/-- Why the store does not answer. -/
inductive StorageError where
  /-- Something that has to be stored is not there, or the medium refused a commit. -/
  | notFound
  /-- A stored record is not the form of one. -/
  | record (cause : WireError)
  /-- A stored frame is none of a block. -/
  | frame (cause : FrameError)
deriving DecidableEq

namespace StorageError

/-- The text shown for the error. -/
def message : StorageError → String
  | notFound => "Data not found"
  | record cause => s!"Serialization error: {cause.message}"
  | frame cause => s!"Codec error: {cause.message}"

end StorageError

/-- The table on a medium. -/
structure Store where
  entries : Table Bytes
  /-- The number of commits, from now on, that the medium will refuse. -/
  refusals : Nat

namespace Store

/-- A store without entries on a medium that refuses nothing. -/
def empty : Store := ⟨∅, 0⟩

/-- Carries changes out all at once, unless the medium refuses. -/
def commit (store : Store) (changes : Changes) : Except StorageError Unit × Store :=
  match store.refusals with
  | n + 1 => (.error .notFound, { store with refusals := n })
  | 0 => (.ok (), { store with entries := store.entries.apply changes })

end Store

end LeaseChain
