import LeaseChain.Ledger.Record
import LeaseChain.Proofs.Store.Key
import LeaseChain.Proofs.Wire.Lawful

/-!
# Ledger records are read back

What the ledger stages under a key is the form of a record, and a record is read back from its form.
Leases and balances have forms of a fixed length. The form of a value may be longer than the count
in front of it tells; what has to be short is the value itself.

What a view shows after changes were staged on it follows from two questions: which keys the changes
write, and which record they write there.

## Key results

- `readRecord_lease`, `readRecord_storedValue`, `readRecord_balance`: a record is read back
- `Changes.getElem?_putLease` and its like: the keys that a record is staged under
- `View.record?_push_of_put`: what is read under a key after changes
-/

namespace LeaseChain

open Wire

/-! ## Forms -/

@[simp] theorem length_write_word (n : UInt64) : (write n).length = 8 := Bytes.length_ofNatLE 8 _

@[simp] theorem length_write_hash (h : Hash) : (write h).length = 32 := h.length_eq

@[simp] theorem length_write_publicKey (key : PublicKey) : (write key).length = 32 := key.length_eq

@[simp] theorem length_write_byte (b : UInt8) : (write b).length = 1 := rfl

/-- `write` of a lease: its fields in their order, each of a fixed length. -/
theorem Lease.write_eq (l : Lease) : write l = write l.owner ++ write l.createdAt ++
    write l.lastUpdated ++ write l.expiry ++ write l.units := rfl

/-- `write` of a value: its fields in their order, and the bytes themselves at the end. -/
theorem StoredValue.write_eq (v : StoredValue) : write v =
    write v.txId ++ write v.updated ++ write v.size ++ write v.value := rfl

/-- A word in front of the rest of a record is read back, and the rest by `f`. -/
private theorem bind_read_word {β : Type} (n : UInt64) (f : UInt64 → Reader β) (rest : Bytes) :
    (Wire.read >>= f) (write n ++ rest) = f n rest :=
  bind_read_append n f rest (by rw [length_write_word]; decide)

/-- A lease is read back from `write l`, whatever follows it. -/
theorem read_lease_append (l : Lease) (rest : Bytes) :
    (read : Reader Lease) (write l ++ rest) = .ok (l, rest) := by
  simp only [l.write_eq, List.append_assoc]
  -- the reader of a lease field by field, so that each field can be taken off the front in turn
  show (Wire.read >>= fun owner => Wire.read >>= fun createdAt => Wire.read >>= fun lastUpdated =>
    Wire.read >>= fun expiry => Wire.read >>= fun units =>
    pure (⟨owner, createdAt, lastUpdated, expiry, units⟩ : Lease)) _ = _
  rw [bind_read_append l.owner _ _ (by rw [length_write_publicKey]; decide), bind_read_word,
    bind_read_word, bind_read_word, bind_read_word]
  rfl

/-- A value is read back from `write v` where its length fits the count in front of it. -/
theorem read_storedValue_append {v : StoredValue} (h : v.value.length < UInt64.size)
    (rest : Bytes) : (read : Reader StoredValue) (write v ++ rest) = .ok (v, rest) := by
  simp only [v.write_eq, List.append_assoc]
  -- the fields before the value have a fixed length; the value itself is a list of bytes
  show (Wire.read >>= fun txId => Wire.read >>= fun updated => Wire.read >>= fun size =>
    Wire.read >>= fun value => pure (⟨txId, updated, size, value⟩ : StoredValue)) _ = _
  rw [bind_read_append v.txId _ _ (by rw [length_write_hash]; decide), bind_read_word,
    bind_read_word, Reader.bind_apply,
    read_list_append rest h fun b _ => by rw [length_write_byte]; decide]
  rfl

/-- `readRecord` gives the record that the bytes begin with. -/
theorem readRecord_eq_ok {α : Type} [Wire α] {bytes rest : Bytes} {a : α}
    (h : (read : Reader α) bytes = .ok (a, rest)) : readRecord bytes = .ok a := by
  simp only [readRecord, readFront, Reader.run, h, Except.ok_bind, Bool.or_true, if_true,
    Except.pure_eq_ok, Except.mapError_ok]

/-- `readRecord` reads a lease back. -/
@[simp] theorem readRecord_lease (l : Lease) : readRecord (write l) = .ok l :=
  readRecord_eq_ok (by simpa using read_lease_append l [])

/-- `readRecord` reads a value back where its length fits the count in front of it. -/
theorem readRecord_storedValue {v : StoredValue} (h : v.value.length < UInt64.size) :
    readRecord (write v) = .ok v :=
  readRecord_eq_ok (by simpa using read_storedValue_append h [])

/-- `readRecord` reads a balance back. -/
@[simp] theorem readRecord_balance (n : UInt64) : readRecord (write n) = .ok n :=
  readRecord_eq_ok
    (by simpa using LawfulWire.read_write n [] (by rw [length_write_word]; decide))

/-! ## Staged records -/

namespace Changes

variable (changes : Changes) (j : Bytes)

/-- `putLease` writes under the key of the lease only. -/
theorem getElem?_putLease (name : String) (lease : Lease) : (changes.putLease name lease)[j]? =
    if StoreKey.lease name = j then some (some (write lease)) else changes[j]? :=
  getElem?_put changes _ _ j

/-- `putValue` writes under the key of the value only. -/
theorem getElem?_putValue (name : String) (key : Bytes) (value : StoredValue) :
    (changes.putValue name key value)[j]? =
      if StoreKey.value name key = j then some (some (write value)) else changes[j]? :=
  getElem?_put changes _ _ j

/-- `deleteValue` deletes the key of the value only. -/
theorem getElem?_deleteValue (name : String) (key : Bytes) : (changes.deleteValue name key)[j]? =
    if StoreKey.value name key = j then some none else changes[j]? :=
  getElem?_delete changes _ j

/-- `putBalance` writes under the key of the balance only. -/
theorem getElem?_putBalance (holder : PublicKey) (balance : UInt64) :
    (changes.putBalance holder balance)[j]? =
      if StoreKey.balance holder = j then some (some (write balance)) else changes[j]? :=
  getElem?_put changes _ _ j

/-- `deleteValues` deletes what the view shows under the namespace, and nothing else. -/
theorem getElem?_deleteValues (view : View) (name : String) :
    (changes.deleteValues view name)[j]? =
      if (StoreKey.valuesOf name).isPrefixOf j = true ∧ (view.get? j).isSome = true then some none
      else changes[j]? := by
  -- a fold that deletes each key of the scan deletes exactly those that the scan shows
  rw [deleteValues, Table.getElem?_foldl (fun _ => some none)
    (fun changes key _ j => getElem?_delete changes key j), View.getElem?_scan]
  by_cases hstart : (StoreKey.valuesOf name).isPrefixOf j = true
  · rw [if_pos hstart]
    cases hget : view.get? j <;> simp [hstart]
  · simp [hstart]

end Changes

/-! ## Records of a view -/

namespace View

variable {α : Type} [Wire α] {view : View} {changes : Changes} {key : Bytes}

/-- `record?` depends on what stands under the key alone. -/
theorem record?_congr {w : View} (h : view.get? key = w.get? key) :
    (view.record? key : Except StorageError (Option α)) = w.record? key := by
  rw [record?, record?, h]

/-- `record?` reads a record from what the nearest changes `put` under its key. -/
theorem record?_push_of_put {bytes : Bytes} {a : α} (h : changes[key]? = some (some bytes))
    (hread : readRecord bytes = .ok a) : (view.push changes).record? key = .ok (some a) := by
  simp only [record?, get?_push, h, Option.getD_some, hread]
  rfl

/-- `balance` depends on what stands under the holder's `StoreKey.balance` alone. -/
theorem balance_congr {w : View} {holder : PublicKey}
    (h : view.get? (StoreKey.balance holder) = w.get? (StoreKey.balance holder)) :
    view.balance holder = w.balance holder := by
  rw [balance, balance, record?_congr h]

/-- Changes that do not write under `StoreKey.balance` leave the balance as it was. -/
theorem balance_push_of_none {holder : PublicKey} (h : changes[StoreKey.balance holder]? = none) :
    (view.push changes).balance holder = view.balance holder :=
  balance_congr (by rw [get?_push, h, Option.getD_none])

/-- The `balance` that changes write is what they write. -/
theorem balance_push_of_put {holder : PublicKey} {amount : UInt64}
    (h : changes[StoreKey.balance holder]? = some (some (write amount))) :
    (view.push changes).balance holder = .ok amount := by
  rw [balance, record?_push_of_put h (readRecord_balance amount)]
  rfl

/-- The `lease?` that changes write is what they write. -/
theorem lease?_push_of_put {name : String} {lease : Lease}
    (h : changes[StoreKey.lease name]? = some (some (write lease))) :
    (view.push changes).lease? name = .ok (some lease) :=
  record?_push_of_put h (readRecord_lease lease)

end View

end LeaseChain
