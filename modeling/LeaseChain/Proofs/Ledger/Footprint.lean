import LeaseChain.Proofs.Ledger.Outcome
import LeaseChain.Proofs.Store.View

/-!
# What execution reads and writes

Executing a transaction reads and writes the balances of its sender and of a transfer's recipient,
the lease and the values of the namespace it names, and nothing else of the state. So it gives the
same on two views that agree on these keys, whatever else they hold. All of them are the ledger's:
the index of transactions, the blocks and the facts about the chain are left alone.

## Key results

- `Unsigned.Reaches`: the keys that a transaction can read or write
- `Unsigned.execute_congr_of_reaches`, `Unsigned.execute_congr`: what is read
- `Unsigned.getElem?_of_execute`, `Unsigned.onLedger_of_execute`: what is written
-/

namespace LeaseChain

open StoreKey (IsLedger)

/-- The keys that a transaction can read or write. -/
inductive Unsigned.Reaches (tx : Unsigned) : Bytes → Prop where
  | sender : Reaches tx (StoreKey.balance tx.base.sender)
  | recipient {recipient : PublicKey} {units : UInt64}
      (h : tx.operation = .transfer recipient units) : Reaches tx (StoreKey.balance recipient)
  | name {name : String} {key : Bytes} (h : tx.operation.name? = some name)
      (hkey : StoreKey.BelongsTo name key) : Reaches tx key

/-- `Reaches` holds of keys of the ledger only. -/
theorem Unsigned.Reaches.isLedger {tx : Unsigned} {key : Bytes} (h : tx.Reaches key) :
    IsLedger key := by
  cases h with
  | sender | recipient => exact StoreKey.isLedger_balance _
  | name _ hkey => exact StoreKey.isLedger_of_belongsTo hkey

/-! ## Reads -/

section Reads

variable {v w : View} {tx : Unsigned}

/-- `execute` gives the same on views that agree on the keys it `Reaches`. -/
theorem Unsigned.execute_congr_of_reaches (h : View.AgreeOn tx.Reaches v w)
    (ctx : ExecutionContext) : tx.execute ctx v = tx.execute ctx w := by
  -- the operations read the state through leases, values and balances
  have hlease {name : String} (hname : tx.operation.name? = some name) :
      v.lease? name = w.lease? name :=
    View.record?_congr (h _ (.name hname (StoreKey.belongsTo_lease name)))
  have hvalue {name : String} (hname : tx.operation.name? = some name) (key : Bytes) :
      v.value? name key = w.value? name key :=
    View.record?_congr (h _ (.name hname (.inr (StoreKey.isPrefixOf_value name key))))
  have hdeleted {name : String} (hname : tx.operation.name? = some name) (changes : Changes) :
      changes.deleteValues v name = changes.deleteValues w name := by
    rw [Changes.deleteValues, Changes.deleteValues,
      h.scan_eq fun key hkey => .name hname (.inr hkey)]
  have hlive {name : String} (hname : tx.operation.name? = some name) :
      Ledger.liveLease v name ctx.time = Ledger.liveLease w name ctx.time := by
    rw [Ledger.liveLease, Ledger.liveLease, hlease hname]
  have howned {name : String} (hname : tx.operation.name? = some name) :
      Ledger.ownedLease v name tx.base.sender ctx.time =
        Ledger.ownedLease w name tx.base.sender ctx.time := by
    rw [Ledger.ownedLease, Ledger.ownedLease, hlive hname]
  have hdebit (amount : UInt64) : Ledger.debit v tx.base.sender amount =
      Ledger.debit w tx.base.sender amount := by
    rw [Ledger.debit, Ledger.debit, View.balance_congr (h _ .sender)]
  have hheld {name : String} (hname : tx.operation.name? = some name) (key : Bytes) :
      Ledger.heldUnits ctx.genesis v name key = Ledger.heldUnits ctx.genesis w name key := by
    rw [Ledger.heldUnits, Ledger.heldUnits, hvalue hname]
  simp only [execute]
  -- each operation reads no more of the state than these
  cases hop : tx.operation with
  | transfer recipient units =>
    simp only [Ledger.transfer, hdebit, View.balance_congr (h _ (.recipient hop))]
  | claim name =>
    have hname : tx.operation.name? = some name := by rw [hop]; rfl
    simp only [Ledger.claim, hlease hname, hdeleted hname, hdebit]
  | set name key value =>
    have hname : tx.operation.name? = some name := by rw [hop]; rfl
    simp only [Ledger.set, howned hname, hdebit, hheld hname]
  | delete name key =>
    have hname : tx.operation.name? = some name := by rw [hop]; rfl
    simp only [Ledger.delete, howned hname, hdebit, hvalue hname]
  | move name newOwner =>
    have hname : tx.operation.name? = some name := by rw [hop]; rfl
    simp only [Ledger.move, howned hname, hdebit]
  | lifeline name units =>
    have hname : tx.operation.name? = some name := by rw [hop]; rfl
    simp only [Ledger.lifeline, hlive hname, hdebit]

/-- `execute` gives the same on views that agree on `IsLedger` keys. -/
theorem Unsigned.execute_congr (h : View.AgreeOn IsLedger v w) (tx : Unsigned)
    (ctx : ExecutionContext) : tx.execute ctx v = tx.execute ctx w :=
  execute_congr_of_reaches (fun key hkey => h key hkey.isLedger) ctx

end Reads

/-! ## Writes -/

namespace Changes

/-- Changes to keys of the ledger only. -/
def OnLedger (changes : Changes) : Prop := ∀ key, ¬IsLedger key → changes[key]? = none

/-- `OnLedger` holds of no changes at all. -/
theorem onLedger_empty : OnLedger ∅ := fun _ _ => Std.ExtTreeMap.getElem?_empty

variable {changes : Changes}

/-- `put` under a key of the ledger keeps changes `OnLedger`. -/
theorem OnLedger.put (h : changes.OnLedger) {key : Bytes} (hk : IsLedger key) (value : Bytes) :
    (changes.put key value).OnLedger := by
  intro j hj
  rw [getElem?_put, if_neg (StoreKey.ne_of_isLedger hk hj), h j hj]

/-- `putBalance` keeps changes `OnLedger`. -/
theorem OnLedger.putBalance (h : changes.OnLedger) (holder : PublicKey) (balance : UInt64) :
    (changes.putBalance holder balance).OnLedger :=
  h.put (StoreKey.isLedger_balance holder) _

end Changes

namespace Unsigned

variable {tx : Unsigned} {ctx : ExecutionContext} {view : View} {changes : Changes}
  (h : tx.execute ctx view = .ok changes)

include h

/-- `execute` writes only keys that the transaction `Reaches`. -/
theorem getElem?_of_execute {key : Bytes} (hkey : ¬tx.Reaches key) : changes[key]? = none := by
  have houtcome := (execute_eq_ok_iff.1 h).2
  refine houtcome.getElem?_eq_none ?_ ?_ fun name hname hown => hkey (.name hname hown)
  · rintro rfl
    exact hkey .sender
  · rintro recipient units hop rfl
    exact hkey (.recipient hop)

/-- `execute` writes only leases, values and balances. -/
theorem onLedger_of_execute : changes.OnLedger :=
  fun _ hkey => getElem?_of_execute h fun hreaches => hkey hreaches.isLedger

end Unsigned

end LeaseChain
