import LeaseChain.Ledger.Execution
import LeaseChain.Proofs.Ledger.Record
import LeaseChain.Proofs.Store.View

/-!
# What executing a transaction comes to

`Outcome` lists what a transaction that is executed found in the state and what it writes, one case
for each operation and two for a claim. A transaction is executed exactly when its form passes and
one of the cases holds, so what every execution does is shown along these cases, and no other proof
unfolds an operation.

## Key results

- `Unsigned.execute_eq_ok_iff`: the outcomes are those of the executions
- `Outcome.getElem?_eq_none`: balances and the keys of the own namespace are all that is written
- `Outcome.balance_cases`: what becomes of the balances
- `Outcome.lease?_push`, `Outcome.scan_push`: what becomes of the own namespace
-/

namespace LeaseChain

/-- The lease that a claim writes. -/
def Lease.claimed (ctx : ExecutionContext) (owner : PublicKey) : Lease where
  owner
  createdAt := ctx.time
  lastUpdated := ctx.time
  expiry := satAdd ctx.time ctx.genesis.claimReward
  units := 1

/-- A lease with the time that funded units buy. -/
def Lease.extend (lease : Lease) (g : Genesis) (units : UInt64) : Lease :=
  let extension := satMul units g.lifelineUnitReward / max lease.units 1
  { lease with expiry := satAdd lease.expiry extension }

/-- The record of a value that is set. -/
def StoredValue.written (ctx : ExecutionContext) (value : Bytes) : StoredValue where
  txId := ctx.txId
  updated := ctx.time
  size := UInt64.ofNat value.length
  value

/-- The units of a value, zero where there is none. -/
def Genesis.unitsOf? (g : Genesis) : Option StoredValue → UInt64
  | some stored => g.valueUnits stored.value.length
  | none => 0

namespace Ledger

/-! ## Checks -/

/-- The name spells another public key than the sender's. -/
def IsReserved (name : String) (sender : PublicKey) : Prop :=
  (Hash.ofHex? name).any (·.bytes != sender.bytes) = true

instance (name : String) (sender : PublicKey) : Decidable (IsReserved name sender) := by
  unfold IsReserved; infer_instance

/-- A namespace has the lease, which has not run out. -/
structure Live (view : View) (name : String) (now : UInt64) (lease : Lease) : Prop where
  found : view.lease? name = .ok (some lease)
  unexpired : lease.isExpired now = false

/-- A namespace has the lease, which has not run out and is the key's. -/
structure Owned (view : View) (name : String) (sender : PublicKey) (now : UInt64) (lease : Lease) :
    Prop extends Live view name now lease where
  owner : lease.owner = sender

/-- The balance of a key covers an amount, of which it leaves the given rest. -/
def Pays (view : View) (payer : PublicKey) (amount rest : UInt64) : Prop :=
  ∃ available, view.balance payer = .ok available ∧ rest.toNat + amount.toNat = available.toNat

/-- A name passes `validateName` if it is not empty, not too long and without a slash. -/
theorem validateName_eq_ok_iff {g : Genesis} {name : String} :
    validateName g name = .ok () ↔ name.utf8ByteSize ≠ 0 ∧
      name.utf8ByteSize ≤ g.maxNamespaceSize.toNat ∧ StoreKey.IsSegment name := by
  simp only [validateName, StoreKey.IsSegment]
  grind

/-- `validateForm` checks the reference, the price, and the name if there is one. -/
theorem validateForm_eq_ok_iff {g : Genesis} {tx : Unsigned} :
    validateForm g tx = .ok () ↔ tx.base.blockId ≠ Hash.zero ∧ g.minPrice ≤ tx.base.price ∧
      ∀ name, tx.operation.name? = some name → validateName g name = .ok () := by
  simp only [validateForm]
  cases tx.operation.name? <;> simp [← UInt64.not_lt] <;> grind

/-- A value passes `validateValue` if it is not empty and not too long. -/
theorem validateValue_eq_ok_iff {g : Genesis} {value : Bytes} :
    validateValue g value = .ok () ↔ value ≠ [] ∧ value.length ≤ g.maxValueSize.toNat := by
  simp only [validateValue, List.isEmpty_iff]
  grind

/-- `validateValue` passes only values whose length is a word. -/
theorem length_lt_of_validateValue {g : Genesis} {value : Bytes}
    (h : validateValue g value = .ok ()) : value.length < UInt64.size :=
  Nat.lt_of_le_of_lt (validateValue_eq_ok_iff.1 h).2 g.maxValueSize.toNat_lt

/-- `reading` a record inside an execution gives what the read gives. -/
@[simp] theorem reading_eq_ok_iff {α : Type} {read : Except StorageError α} {a : α} :
    reading read = .ok a ↔ read = .ok a :=
  Except.mapError_eq_ok_iff

/-- `liveLease` gives a lease that was found and has not run out. -/
theorem liveLease_eq_ok_iff {view : View} {name : String} {now : UInt64} {lease : Lease} :
    liveLease view name now = .ok lease ↔ Live view name now lease := by
  simp only [liveLease, Except.bind_eq_ok_iff, reading_eq_ok_iff]
  constructor
  · rintro ⟨_ | found, hfound, h⟩
    · cases h
    · dsimp only at h
      split at h
      · cases h
      · next hlive =>
        obtain rfl := Except.ok.inj h
        exact ⟨hfound, Bool.eq_false_iff.2 hlive⟩
  · rintro ⟨hfound, hlive⟩
    exact ⟨some lease, hfound, by simp [hlive]⟩

/-- `ownedLease` gives a live lease of the sender. -/
theorem ownedLease_eq_ok_iff {view : View} {name : String} {sender : PublicKey} {now : UInt64}
    {lease : Lease} :
    ownedLease view name sender now = .ok lease ↔ Owned view name sender now lease := by
  simp only [ownedLease, Except.bind_eq_ok_iff, liveLease_eq_ok_iff]
  constructor
  · rintro ⟨found, hlive, h⟩
    split at h
    · next howner =>
      obtain rfl := Except.ok.inj h
      exact ⟨hlive, howner⟩
    · cases h
  · rintro ⟨hlive, howner⟩
    exact ⟨lease, hlive, by rw [if_pos howner]; rfl⟩

/-- `debit` gives the rest of a balance that covers the amount. -/
theorem debit_eq_ok_iff {view : View} {payer : PublicKey} {amount rest : UInt64} :
    debit view payer amount = .ok rest ↔ Pays view payer amount rest := by
  simp only [debit, Pays, Except.bind_eq_ok_iff, reading_eq_ok_iff]
  refine exists_congr fun available => and_congr_right fun _ => ?_
  -- where the balance covers the amount, the difference of the words is that of the numbers
  split
  · next hless =>
    rw [UInt64.lt_iff_toNat_lt] at hless
    simp only [Except.throw_eq_error, reduceCtorEq, false_iff]
    omega
  · next hcovers =>
    rw [UInt64.not_lt] at hcovers
    have hsub := UInt64.toNat_sub_of_le available amount hcovers
    rw [UInt64.le_iff_toNat_le] at hcovers
    simp only [Except.pure_eq_ok, Except.ok.injEq, ← UInt64.toNat_inj]
    omega

/-- `heldUnits` gives the units of the value under the key, zero where there is none. -/
theorem heldUnits_eq_ok_iff {g : Genesis} {view : View} {name : String} {key : Bytes}
    {units : UInt64} : heldUnits g view name key = .ok units ↔
      ∃ previous, view.value? name key = .ok previous ∧ g.unitsOf? previous = units := by
  simp only [heldUnits, Except.bind_eq_ok_iff, reading_eq_ok_iff]
  refine exists_congr fun previous => and_congr_right fun _ => ?_
  cases previous <;> simp [Genesis.unitsOf?]

end Ledger

open Ledger

/-! ## Outcomes -/

/--
What a transaction of a sender, with a fee, found in the state that a view shows, and what it
writes.
-/
inductive Outcome (ctx : ExecutionContext) (view : View) (sender : PublicKey) (fee : UInt64) :
    Operation → Changes → Prop where
  /-- The claim of a namespace without a lease. -/
  | claimAbsent {name : String} {rest : UInt64} (free : ¬IsReserved name sender)
      (absent : view.lease? name = .ok none) (pays : Pays view sender fee rest) :
      Outcome ctx view sender fee (.claim name)
        ((Changes.putBalance ∅ sender rest).putLease name (.claimed ctx sender))
  /-- The claim of a namespace whose lease has run out; its values are deleted. -/
  | claimExpired {name : String} {lease : Lease} {rest : UInt64} (free : ¬IsReserved name sender)
      (found : view.lease? name = .ok (some lease)) (expired : lease.isExpired ctx.time = true)
      (pays : Pays view sender fee rest) :
      Outcome ctx view sender fee (.claim name)
        (((Changes.deleteValues ∅ view name).putBalance sender rest).putLease name
          (.claimed ctx sender))
  /-- A value takes the place of what was there, and the rent follows. -/
  | set {name : String} {key value : Bytes} {lease : Lease} {rest : UInt64}
      {previous : Option StoredValue} (keyForm : validateKey ctx.genesis key = .ok ())
      (valueForm : validateValue ctx.genesis value = .ok ())
      (owned : Owned view name sender ctx.time lease) (pays : Pays view sender fee rest)
      (held : view.value? name key = .ok previous) :
      Outcome ctx view sender fee (.set name key value)
        (((Changes.putBalance ∅ sender rest).putValue name key (.written ctx value)).putLease name
          (lease.rebalance (satAdd (satSub lease.units (ctx.genesis.unitsOf? previous))
            (ctx.genesis.valueUnits value.length)) ctx.time))
  /-- A value that was there is removed, and the rent follows. -/
  | delete {name : String} {key : Bytes} {lease : Lease} {rest : UInt64} {previous : StoredValue}
      (keyForm : validateKey ctx.genesis key = .ok ())
      (owned : Owned view name sender ctx.time lease) (pays : Pays view sender fee rest)
      (held : view.value? name key = .ok (some previous)) :
      Outcome ctx view sender fee (.delete name key)
        (((Changes.putBalance ∅ sender rest).deleteValue name key).putLease name
          (lease.rebalance (satSub lease.units (ctx.genesis.valueUnits previous.value.length))
            ctx.time))
  | move {name : String} {newOwner : PublicKey} {lease : Lease} {rest : UInt64}
      (other : newOwner ≠ sender) (owned : Owned view name sender ctx.time lease)
      (pays : Pays view sender fee rest) :
      Outcome ctx view sender fee (.move name newOwner)
        ((Changes.putBalance ∅ sender rest).putLease name { lease with owner := newOwner })
  /-- The amount and the fee leave one balance, and the amount reaches another. -/
  | transfer {recipient : PublicKey} {units rest held : UInt64} (other : recipient ≠ sender)
      (some_units : units ≠ 0) (pays : Pays view sender (satAdd units fee) rest)
      (found : view.balance recipient = .ok held) :
      Outcome ctx view sender fee (.transfer recipient units)
        ((Changes.putBalance ∅ sender rest).putBalance recipient (satAdd held units))
  /-- Anyone extends a lease that has not run out. -/
  | lifeline {name : String} {units : UInt64} {lease : Lease} {rest : UInt64}
      (some_units : units ≠ 0) (live : Live view name ctx.time lease)
      (pays : Pays view sender fee rest) :
      Outcome ctx view sender fee (.lifeline name units)
        ((Changes.putBalance ∅ sender rest).putLease name (lease.extend ctx.genesis units))

variable {ctx : ExecutionContext} {view : View} {sender : PublicKey} {fee : UInt64}
  {changes : Changes}

namespace Ledger

/-- The step `claim` comes to one of the two outcomes of a claim, and to nothing else. -/
theorem claim_eq_ok_iff {name : String} :
    claim ctx view sender fee name = .ok changes ↔
      Outcome ctx view sender fee (.claim name) changes := by
  simp only [claim, Except.guard_eq_ok_iff, pure_bind, Except.bind_eq_ok_iff, reading_eq_ok_iff]
  constructor
  · rintro ⟨hfree, lease?, hlease, h⟩
    -- a name without a lease is free, and one with a lease is free again once that has run out
    cases lease? with
    | none =>
      obtain ⟨rest, hrest, h⟩ := Except.bind_eq_ok_iff.1 h
      obtain rfl := Except.ok.inj h
      exact .claimAbsent hfree hlease (debit_eq_ok_iff.1 hrest)
    | some lease =>
      dsimp only at h
      split at h
      · next hexpired =>
        obtain ⟨rest, hrest, h⟩ := Except.bind_eq_ok_iff.1 h
        obtain rfl := Except.ok.inj h
        exact .claimExpired hfree hlease hexpired (debit_eq_ok_iff.1 hrest)
      · cases h
  · intro h
    cases h with
    | claimAbsent hfree habsent hpays =>
      exact ⟨hfree, none, habsent,
        Except.bind_eq_ok_iff.2 ⟨_, debit_eq_ok_iff.2 hpays, rfl⟩⟩
    | claimExpired hfree hfound hexpired hpays =>
      refine ⟨hfree, some _, hfound, ?_⟩
      dsimp only
      rw [if_pos hexpired]
      exact Except.bind_eq_ok_iff.2 ⟨_, debit_eq_ok_iff.2 hpays, rfl⟩

/-- The step `set` comes to its outcome, and to nothing else. -/
theorem set_eq_ok_iff {name : String} {key value : Bytes} :
    set ctx view sender fee name key value = .ok changes ↔
      Outcome ctx view sender fee (.set name key value) changes := by
  simp only [set, Except.bind_eq_ok_iff, ownedLease_eq_ok_iff, debit_eq_ok_iff,
    heldUnits_eq_ok_iff]
  constructor
  · rintro ⟨_, hkey, _, hvalue, lease, howned, rest, hpays, _, ⟨previous, hheld, rfl⟩, h⟩
    obtain rfl := Except.ok.inj h
    exact .set hkey hvalue howned hpays hheld
  · intro h
    cases h with
    | set hkey hvalue howned hpays hheld =>
      exact ⟨(), hkey, (), hvalue, _, howned, _, hpays, _, ⟨_, hheld, rfl⟩, rfl⟩

/-- The step `delete` comes to its outcome, and to nothing else. -/
theorem delete_eq_ok_iff {name : String} {key : Bytes} :
    delete ctx view sender fee name key = .ok changes ↔
      Outcome ctx view sender fee (.delete name key) changes := by
  simp only [delete, Except.bind_eq_ok_iff, ownedLease_eq_ok_iff, reading_eq_ok_iff]
  constructor
  · rintro ⟨_, hkey, lease, howned, previous?, hheld, h⟩
    cases previous? with
    | none => cases h
    | some previous =>
      obtain ⟨rest, hrest, h⟩ := Except.bind_eq_ok_iff.1 h
      obtain rfl := Except.ok.inj h
      exact .delete hkey howned (debit_eq_ok_iff.1 hrest) hheld
  · intro h
    cases h with
    | delete hkey howned hpays hheld =>
      exact ⟨(), hkey, _, howned, some _, hheld,
        Except.bind_eq_ok_iff.2 ⟨_, debit_eq_ok_iff.2 hpays, rfl⟩⟩

/-- The step `move` comes to its outcome, and to nothing else. -/
theorem move_eq_ok_iff {name : String} {newOwner : PublicKey} :
    move ctx view sender fee name newOwner = .ok changes ↔
      Outcome ctx view sender fee (.move name newOwner) changes := by
  simp only [move, Except.guard_eq_ok_iff, Except.bind_eq_ok_iff, ownedLease_eq_ok_iff,
    debit_eq_ok_iff]
  constructor
  · rintro ⟨hother, lease, howned, rest, hpays, h⟩
    obtain rfl := Except.ok.inj h
    exact .move hother howned hpays
  · intro h
    cases h with
    | move hother howned hpays => exact ⟨hother, _, howned, _, hpays, rfl⟩

/-- The step `transfer` comes to its outcome, and to nothing else. -/
theorem transfer_eq_ok_iff {recipient : PublicKey} {units : UInt64} :
    transfer view sender fee recipient units = .ok changes ↔
      Outcome ctx view sender fee (.transfer recipient units) changes := by
  simp only [transfer, Except.guard_eq_ok_iff, Except.bind_eq_ok_iff, debit_eq_ok_iff,
    reading_eq_ok_iff]
  constructor
  · rintro ⟨hother, hunits, rest, hpays, held, hheld, h⟩
    obtain rfl := Except.ok.inj h
    exact .transfer hother hunits hpays hheld
  · intro h
    cases h with
    | transfer hother hunits hpays hheld => exact ⟨hother, hunits, _, hpays, _, hheld, rfl⟩

/-- The step `lifeline` comes to its outcome, and to nothing else. -/
theorem lifeline_eq_ok_iff {name : String} {units : UInt64} :
    lifeline ctx view sender fee name units = .ok changes ↔
      Outcome ctx view sender fee (.lifeline name units) changes := by
  simp only [lifeline, Except.guard_eq_ok_iff, Except.bind_eq_ok_iff, liveLease_eq_ok_iff,
    debit_eq_ok_iff]
  constructor
  · rintro ⟨hunits, lease, hlive, rest, hpays, h⟩
    obtain rfl := Except.ok.inj h
    exact .lifeline hunits hlive hpays
  · intro h
    cases h with
    | lifeline hunits hlive hpays => exact ⟨hunits, _, hlive, _, hpays, rfl⟩

end Ledger

/--
`execute` succeeds exactly when `validateForm` passes and the operation comes to an `Outcome`.
-/
theorem Unsigned.execute_eq_ok_iff {tx : Unsigned} :
    tx.execute ctx view = .ok changes ↔ validateForm ctx.genesis tx = .ok () ∧
      Outcome ctx view tx.base.sender (tx.fee ctx.genesis) tx.operation changes := by
  rw [execute, Except.bind_unit_eq_ok_iff]
  refine and_congr_right fun _ => ?_
  -- one operation, one of the steps above
  cases tx.operation with
  | claim => exact claim_eq_ok_iff
  | set => exact set_eq_ok_iff
  | delete => exact delete_eq_ok_iff
  | move => exact move_eq_ok_iff
  | transfer => exact transfer_eq_ok_iff
  | lifeline => exact lifeline_eq_ok_iff

/-! ## What an outcome writes -/

namespace Outcome

variable {op : Operation}

section Writes

variable (h : Outcome ctx view sender fee op changes)

include h

/--
`Outcome` writes the balances of the sender and of a transfer's recipient, and the lease and the
values of the operation's own namespace, and nothing else.
-/
theorem getElem?_eq_none {key : Bytes} (hsender : StoreKey.balance sender ≠ key)
    (hrecipient : ∀ recipient units, op = .transfer recipient units →
      StoreKey.balance recipient ≠ key)
    (hname : ∀ name, op.name? = some name → ¬StoreKey.BelongsTo name key) :
    changes[key]? = none := by
  have hlease {name : String} (hop : op.name? = some name) : StoreKey.lease name ≠ key :=
    fun heq => hname name hop (.inl heq.symm)
  have hvalue {name : String} (hop : op.name? = some name) (k : Bytes) :
      StoreKey.value name k ≠ key :=
    fun heq => hname name hop (.inr (heq ▸ StoreKey.isPrefixOf_value name k))
  -- each case writes the balance and keys of its own namespace, which the hypotheses set apart
  cases h with
  | claimAbsent | move | lifeline =>
    simp [Changes.getElem?_putLease, Changes.getElem?_putBalance, hlease rfl, hsender]
  | @claimExpired name =>
    have hstart : ¬(StoreKey.valuesOf name).isPrefixOf key = true :=
      fun hstart => hname name rfl (.inr hstart)
    simp [Changes.getElem?_putLease, Changes.getElem?_putBalance, Changes.getElem?_deleteValues,
      hlease rfl, hsender, hstart]
  | set =>
    simp [Changes.getElem?_putLease, Changes.getElem?_putValue, Changes.getElem?_putBalance,
      hlease rfl, hvalue rfl, hsender]
  | delete =>
    simp [Changes.getElem?_putLease, Changes.getElem?_deleteValue, Changes.getElem?_putBalance,
      hlease rfl, hvalue rfl, hsender]
  | transfer => simp [Changes.getElem?_putBalance, hsender, hrecipient _ _ rfl]

/--
`Pays` of an operation takes the fee from the sender, and with a transfer the amount too, which the
recipient's balance has added to it. All other balances stay.
-/
theorem balance_cases :
    ((∀ recipient units, op ≠ .transfer recipient units) ∧ ∃ rest, Pays view sender fee rest ∧
      ∀ holder, (view.push changes).balance holder =
        if holder = sender then .ok rest else view.balance holder) ∨
    ∃ recipient units rest held, op = .transfer recipient units ∧ recipient ≠ sender ∧
      Pays view sender (satAdd units fee) rest ∧ view.balance recipient = .ok held ∧
      ∀ holder, (view.push changes).balance holder =
        if holder = recipient then .ok (satAdd held units)
        else if holder = sender then .ok rest else view.balance holder := by
  -- the sender's balance is the only one that an operation on a namespace writes
  have hcharged {rest : UInt64} (hwrites : ∀ holder, changes[StoreKey.balance holder]? =
      if sender = holder then some (some (Wire.write rest)) else none) (holder : PublicKey) :
      (view.push changes).balance holder =
        if holder = sender then .ok rest else view.balance holder := by
    split
    · next hsender => exact View.balance_push_of_put (by rw [hwrites, if_pos hsender.symm])
    · next hother => exact View.balance_push_of_none (by rw [hwrites, if_neg (Ne.symm hother)])
  cases h with
  | claimAbsent _ _ hpays | claimExpired _ _ _ hpays | set _ _ _ hpays | delete _ _ hpays
  | move _ _ hpays | lifeline _ _ hpays =>
    refine .inl ⟨fun _ _ => nofun, _, hpays, hcharged fun holder => ?_⟩
    simp [Changes.getElem?_putLease, Changes.getElem?_putValue, Changes.getElem?_deleteValue,
      Changes.getElem?_putBalance, Changes.getElem?_deleteValues]
  | @transfer recipient units rest held hother hunits hpays hheld =>
    refine .inr ⟨recipient, units, rest, held, rfl, hother, hpays, hheld, fun holder => ?_⟩
    -- the recipient is not the sender, so that the two writes are to different balances
    split
    · next hrecipient =>
      exact View.balance_push_of_put
        (by rw [hrecipient, Changes.getElem?_putBalance, if_pos rfl])
    split
    · next hne hsender =>
      refine View.balance_push_of_put ?_
      simp [Changes.getElem?_putBalance, hsender, hother]
    · next hne hne' =>
      refine View.balance_push_of_none ?_
      simp [Changes.getElem?_putBalance, Ne.symm hne, Ne.symm hne']

/-- `Outcome` writes the lease of the operation's own namespace, and no other. -/
theorem getElem?_lease (name : String) :
    op.name? ≠ some name ∧ changes[StoreKey.lease name]? = none ∨
    op.name? = some name ∧
      ∃ lease : Lease, changes[StoreKey.lease name]? = some (some (Wire.write lease)) := by
  -- every operation but a transfer names a namespace, and stages its lease last
  by_cases hop : op.name? = some name
  · refine .inr ⟨hop, ?_⟩
    cases h <;> cases hop <;> exact ⟨_, by rw [Changes.getElem?_putLease, if_pos rfl]⟩
  · refine .inl ⟨hop, ?_⟩
    cases h <;>
      simp only [Operation.name?, Option.some.injEq, reduceCtorEq, not_false_eq_true] at hop <;>
      simp [Changes.getElem?_putLease, Changes.getElem?_putValue, Changes.getElem?_deleteValue,
        Changes.getElem?_putBalance, Changes.getElem?_deleteValues, hop]

/--
`Outcome` puts under the key of a value only `StoredValue.written` of a value that passed
`validateValue`.
-/
theorem getElem?_value (name : String) (key : Bytes) :
    changes[StoreKey.value name key]? = none ∨ changes[StoreKey.value name key]? = some none ∨
    ∃ value, validateValue ctx.genesis value = .ok () ∧
      changes[StoreKey.value name key]? =
        some (some (Wire.write (StoredValue.written ctx value))) := by
  -- only `set` puts a value, and its form was checked; the others delete values or leave them
  cases h with
  | claimAbsent | move | lifeline | transfer =>
    simp [Changes.getElem?_putLease, Changes.getElem?_putBalance]
  | @claimExpired own =>
    simp only [Changes.getElem?_putLease, Changes.getElem?_putBalance,
      Changes.getElem?_deleteValues, StoreKey.lease_ne_value, StoreKey.balance_ne_value, if_false,
      Std.ExtTreeMap.getElem?_empty]
    split <;> simp
  | set _ hvalue =>
    simp only [Changes.getElem?_putLease, Changes.getElem?_putBalance, Changes.getElem?_putValue,
      StoreKey.lease_ne_value, StoreKey.balance_ne_value, if_false,
      Std.ExtTreeMap.getElem?_empty]
    split
    · exact .inr (.inr ⟨_, hvalue, rfl⟩)
    · exact .inl rfl
  | delete =>
    simp only [Changes.getElem?_putLease, Changes.getElem?_putBalance, Changes.getElem?_deleteValue,
      StoreKey.lease_ne_value, StoreKey.balance_ne_value, if_false,
      Std.ExtTreeMap.getElem?_empty]
    split <;> simp

end Writes

/-- `lease?` of the operation's own namespace, after each kind of operation. -/
theorem lease?_push : Outcome ctx view sender fee op changes → match op with
    | .claim name => (view.push changes).lease? name = .ok (some (.claimed ctx sender))
    | .set name key value => ∃ lease previous, Owned view name sender ctx.time lease ∧
        view.value? name key = .ok previous ∧
        (view.push changes).lease? name = .ok (some (lease.rebalance
          (satAdd (satSub lease.units (ctx.genesis.unitsOf? previous))
            (ctx.genesis.valueUnits value.length)) ctx.time))
    | .delete name key => ∃ lease previous, Owned view name sender ctx.time lease ∧
        view.value? name key = .ok (some previous) ∧
        (view.push changes).lease? name = .ok (some (lease.rebalance
          (satSub lease.units (ctx.genesis.valueUnits previous.value.length)) ctx.time))
    | .move name newOwner => ∃ lease, Owned view name sender ctx.time lease ∧
        (view.push changes).lease? name = .ok (some { lease with owner := newOwner })
    | .transfer _ _ => True
    | .lifeline name units => ∃ lease, Live view name ctx.time lease ∧
        (view.push changes).lease? name = .ok (some (lease.extend ctx.genesis units)) := by
  -- the lease is what each operation on a namespace stages last
  have hlast (staged : Changes) (name : String) (lease : Lease) :
      (view.push (staged.putLease name lease)).lease? name = .ok (some lease) :=
    View.lease?_push_of_put (by rw [Changes.getElem?_putLease, if_pos rfl])
  intro h
  cases h with
  | claimAbsent | claimExpired => exact hlast _ _ _
  | set _ _ howned _ hheld => exact ⟨_, _, howned, hheld, hlast _ _ _⟩
  | delete _ howned _ hheld => exact ⟨_, _, howned, hheld, hlast _ _ _⟩
  | move _ howned _ => exact ⟨_, howned, hlast _ _ _⟩
  | transfer => trivial
  | lifeline _ hlive _ => exact ⟨_, hlive, hlast _ _ _⟩

/-- `scan` of the operation's own namespace, after each kind of operation. -/
theorem scan_push : Outcome ctx view sender fee op changes → match op with
    | .claim name => view.lease? name = .ok none ∧ (view.push changes).scan
          (StoreKey.valuesOf name) = view.scan (StoreKey.valuesOf name) ∨
        (view.push changes).scan (StoreKey.valuesOf name) = ∅
    | .set name key value => validateValue ctx.genesis value = .ok () ∧
        (view.push changes).scan (StoreKey.valuesOf name) =
          (view.scan (StoreKey.valuesOf name)).insert (StoreKey.value name key)
            (Wire.write (StoredValue.written ctx value))
    | .delete name key => (view.push changes).scan (StoreKey.valuesOf name) =
        (view.scan (StoreKey.valuesOf name)).erase (StoreKey.value name key)
    | .move name _ | .lifeline name _ =>
        (view.push changes).scan (StoreKey.valuesOf name) = view.scan (StoreKey.valuesOf name)
    | .transfer _ _ => True := by
  -- neither leases nor balances are found among values
  have hapart (name : String) (j : Bytes) (hj : (StoreKey.valuesOf name).isPrefixOf j = true) :
      (∀ holder, StoreKey.balance holder ≠ j) ∧ ∀ other, StoreKey.lease other ≠ j := by
    obtain ⟨rest, rfl⟩ := StoreKey.isPrefixOf_valuesOf_iff.1 hj
    exact ⟨fun holder => StoreKey.balance_ne_value holder name rest,
      fun other => StoreKey.lease_ne_value other name rest⟩
  intro h
  -- what is staged under the prefix decides: nothing, one value, one deletion, or all of them
  cases h with
  | @claimAbsent name rest _ habsent _ =>
    refine .inl ⟨habsent, View.scan_push_of_unwritten fun j hj => ?_⟩
    simp [Changes.getElem?_putLease, Changes.getElem?_putBalance, hapart name j hj]
  | @claimExpired name =>
    -- all values that the view shows under the name are deleted
    refine .inr (Std.ExtTreeMap.ext_getElem? fun j => ?_)
    rw [View.getElem?_scan, View.get?_push, Std.ExtTreeMap.getElem?_empty]
    split
    · next hj =>
      have hdeleted := hapart name j hj
      cases hget : view.get? j <;>
        simp [Changes.getElem?_putLease, Changes.getElem?_putBalance, Changes.getElem?_deleteValues,
          hdeleted, hj, hget]
    · rfl
  | @set name key value _ _ _ _ hvalue =>
    refine ⟨hvalue, View.scan_push_of_put (StoreKey.isPrefixOf_value name key) ?_
      fun j hj hne => ?_⟩
    · simp [Changes.getElem?_putLease, Changes.getElem?_putValue]
    · simp [Changes.getElem?_putLease, Changes.getElem?_putValue, Changes.getElem?_putBalance,
        hapart name j hj, hne]
  | @delete name key =>
    refine View.scan_push_of_delete (StoreKey.isPrefixOf_value name key) ?_ fun j hj hne => ?_
    · simp [Changes.getElem?_putLease, Changes.getElem?_deleteValue]
    · simp [Changes.getElem?_putLease, Changes.getElem?_deleteValue, Changes.getElem?_putBalance,
        hapart name j hj, hne]
  | @move name | @lifeline name =>
    refine View.scan_push_of_unwritten fun j hj => ?_
    simp [Changes.getElem?_putLease, Changes.getElem?_putBalance, hapart name j hj]
  | transfer => trivial

end Outcome

end LeaseChain
