import Std.Data.ExtTreeMap
import LeaseChain.Hash.Sha256

/-!
# Hashes

A `Hash` is a string of exactly thirty-two bytes: the identifier of a block or a transaction, or the
digest a signature covers. Hashes are ordered by their bytes, and the order is lawful, so a hash can
be the key of a sorted map.
-/

namespace LeaseChain

/-- Thirty-two bytes. -/
structure Hash where
  bytes : Bytes
  length_eq : bytes.length = 32
deriving DecidableEq

namespace Hash

/-- The SHA-256 hash of a byte string. -/
def of (bytes : Bytes) : Hash := ⟨Sha256.digest bytes, Sha256.length_digest bytes⟩

/-- Thirty-two times the same byte. -/
def replicate (b : UInt8) : Hash := ⟨List.replicate 32 b, by simp⟩

/-- The hash of zero bytes, which refers to no block. -/
def zero : Hash := replicate 0

/-- A byte string as a hash, if it has the length of one. -/
def ofBytes? (bytes : Bytes) : Option Hash :=
  if h : bytes.length = 32 then some ⟨bytes, h⟩ else none

/-- The lower-case hexadecimal text. -/
def toHex (h : Hash) : String := Bytes.toHex h.bytes

/-- The hash that sixty-four hexadecimal digits of either case spell. -/
def ofHex? (text : String) : Option Hash :=
  if text.utf8ByteSize = 64 then (Bytes.ofHex? text).bind ofBytes? else none

@[ext] theorem ext {a b : Hash} (h : a.bytes = b.bytes) : a = b := by
  cases a; cases b; cases h; rfl

/-- `ofBytes?` gives a hash back from its bytes. -/
theorem ofBytes?_bytes (h : Hash) : ofBytes? h.bytes = some h := by
  rw [ofBytes?, dif_pos h.length_eq]

/-- `ofBytes?` finds the hash that has the bytes, if there is one. -/
theorem ofBytes?_eq_some_iff {bytes : Bytes} {h : Hash} :
    ofBytes? bytes = some h ↔ bytes = h.bytes := by
  refine ⟨fun hof => ?_, fun heq => heq ▸ ofBytes?_bytes h⟩
  rw [ofBytes?, Option.dite_none_right_eq_some] at hof
  obtain ⟨_, hof⟩ := hof
  exact congrArg Hash.bytes (Option.some.inj hof)

instance : Inhabited Hash := ⟨zero⟩

instance : Ord Hash := ⟨fun a b => compare a.bytes b.bytes⟩

/-- `compare` orders hashes as their bytes. -/
theorem compare_eq (a b : Hash) : compare a b = compare a.bytes b.bytes := rfl

/-- The order of hashes is transitive, as that of byte strings is. -/
instance : Std.TransOrd Hash where
  eq_swap {a b} := Std.OrientedCmp.eq_swap (α := Bytes) (a := a.bytes) (b := b.bytes)
  isLE_trans {a b c} := Std.TransCmp.isLE_trans (α := Bytes)
    (a := a.bytes) (b := b.bytes) (c := c.bytes)

/-- Only equal hashes are equal in the order. -/
instance : Std.LawfulEqOrd Hash where
  compare_self {a} := Std.ReflCmp.compare_self (α := Bytes) (a := a.bytes)
  eq_of_compare {_ _} h := Hash.ext (Std.LawfulEqCmp.eq_of_compare (α := Bytes) h)

end Hash

end LeaseChain
