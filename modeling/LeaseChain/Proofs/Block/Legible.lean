import LeaseChain.Proofs.Block.Effect
import LeaseChain.Proofs.Ledger.Outcome
import LeaseChain.Proofs.Wire.Frames

/-!
# What is stored can be read

The kinds of records share one table, and the tag of a key tells which kind stands under it. Bytes
that fit their key are read as a record of that kind. Everything that a transaction or a block
stages fits, so that what is shown through any layers of changes goes on to fit, and a read of a
record that fits never fails.

## Key results

- `StoreKey.Fits`, `View.Legible`, `Changes.Legible`: bytes are a record of their key's kind
- `View.Legible.push`: changes that fit are shown as they fit
- `Unsigned.legible_of_execute`, `Block.legible_of_effect`: what is staged fits
- `View.Legible.failsOnly_execute`: executing never blames what is stored
-/

namespace LeaseChain

open Except (FailsOnly)
open Wire (write)

/-- Bytes are a record of the kind that the tag of their key tells. -/
def StoreKey.Fits (key value : Bytes) : Prop :=
  match key with
  | 0x00 :: _ => ∃ lease : Lease, readRecord value = .ok lease
  | 0x01 :: _ => ∃ stored : StoredValue, readRecord value = .ok stored
  | 0x02 :: _ => ∃ blockId, Hash.ofBytes? value = some blockId
  | 0x03 :: _ => ∃ block, Block.ofBytes Engine.framing value = .ok block ∧
      key = StoreKey.block block.id
  | 0x04 :: _ => ∃ amount : UInt64, readRecord value = .ok amount
  | _ => True

/-- Everything that changes put fits its key. -/
def Changes.Legible (changes : Changes) : Prop :=
  ∀ key value, changes[key]? = some (some value) → StoreKey.Fits key value

/-- Everything that a view shows fits its key. -/
def View.Legible (view : View) : Prop :=
  ∀ key value, view.get? key = some value → StoreKey.Fits key value

/-! ## Staging -/

namespace Changes.Legible

variable {changes later : Changes}

/-- No changes are `Legible`. -/
theorem empty : Legible ∅ := fun key value h => by simp at h

/-- Putting a value that fits its key leaves changes `Legible`. -/
theorem put (hc : changes.Legible) {key value : Bytes} (hfits : StoreKey.Fits key value) :
    (changes.put key value).Legible := by
  intro j bytes hj
  rw [getElem?_put] at hj
  split at hj
  · next heq =>
    obtain rfl := Option.some.inj (Option.some.inj hj)
    exact heq ▸ hfits
  · exact hc j bytes hj

/-- Deleting a key leaves changes `Legible`, as nothing is shown there. -/
theorem delete (hc : changes.Legible) (key : Bytes) : (changes.delete key).Legible := by
  intro j bytes hj
  rw [getElem?_delete] at hj
  split at hj
  · cases hj
  · exact hc j bytes hj

/-- A lease is read back from what `putLease` writes. -/
theorem putLease (hc : changes.Legible) (name : String) (lease : Lease) :
    (changes.putLease name lease).Legible :=
  hc.put ⟨lease, readRecord_lease lease⟩

/--
A value is read back from what `putValue` writes, if its length fits the count in front of it.
-/
theorem putValue (hc : changes.Legible) (name : String) (key : Bytes) {stored : StoredValue}
    (h : stored.value.length < UInt64.size) : (changes.putValue name key stored).Legible :=
  hc.put ⟨stored, readRecord_storedValue h⟩

/-- An amount is read back from what `putBalance` writes. -/
theorem putBalance (hc : changes.Legible) (holder : PublicKey) (amount : UInt64) :
    (changes.putBalance holder amount).Legible :=
  hc.put ⟨amount, readRecord_balance amount⟩

/-- The identifier of a block is read back from what `putTransaction` writes. -/
theorem putTransaction (hc : changes.Legible) (id blockId : Hash) :
    (changes.putTransaction id blockId).Legible :=
  hc.put ⟨blockId, Hash.ofBytes?_bytes blockId⟩

/-- A framed block is read back from what is `put` under its `StoreKey.block`. -/
theorem putBlock (hc : changes.Legible) {block : Block} (hframed : block.IsFramed Engine.framing) :
    (changes.put (StoreKey.block block.id) block.bytes).Legible :=
  hc.put ⟨block, hframed, rfl⟩

/-- Nothing is asked of what is under a `StoreKey.fact`. -/
theorem putFact (hc : changes.Legible) (name : String) (value : Bytes) :
    (changes.put (StoreKey.fact name) value).Legible :=
  hc.put trivial

/-- Deleting the values of a namespace leaves changes `Legible`. -/
theorem deleteValues (hc : changes.Legible) (view : View) (name : String) :
    (changes.deleteValues view name).Legible := by
  intro j bytes hj
  rw [getElem?_deleteValues] at hj
  split at hj
  · cases hj
  · exact hc j bytes hj

/-- Changes that are carried out after one another are `Legible` together. -/
theorem merge (hc : changes.Legible) (hl : later.Legible) : (changes.merge later).Legible := by
  intro j bytes hj
  rw [getElem?_merge, Option.or_eq_some_iff] at hj
  rcases hj with hj | ⟨-, hj⟩
  · exact hl j bytes hj
  · exact hc j bytes hj

end Changes.Legible

/-- What an `Outcome` writes is `Legible`, whatever the transaction read. -/
theorem Outcome.legible {ctx : ExecutionContext} {view : View} {sender : PublicKey} {fee : UInt64}
    {op : Operation} {changes : Changes} (h : Outcome ctx view sender fee op changes) :
    changes.Legible := by
  have hcharged (rest : UInt64) : (Changes.putBalance ∅ sender rest).Legible :=
    Changes.Legible.empty.putBalance sender rest
  -- one case per way to succeed, each of which says what is staged on top of what
  cases h with
  | claimAbsent | move | lifeline => exact (hcharged _).putLease _ _
  | claimExpired =>
    -- the values of the expired lease are deleted first, and a deletion shows nothing
    exact ((Changes.Legible.empty.deleteValues _ _).putBalance _ _).putLease _ _
  | set _ hvalue =>
    -- the value passed its checks, so that its length fits the count in front of it
    have hlength := Ledger.length_lt_of_validateValue hvalue
    exact ((hcharged _).putValue _ _ hlength).putLease _ _
  | delete => exact ((hcharged _).delete _).putLease _ _
  | transfer => exact (hcharged _).putBalance _ _

/-- What `Unsigned.execute` stages fits, whatever it read. -/
theorem Unsigned.legible_of_execute {tx : Unsigned} {ctx : ExecutionContext} {view : View}
    {changes : Changes} (h : tx.execute ctx view = .ok changes) : changes.Legible :=
  (execute_eq_ok_iff.1 h).2.legible

namespace Block

/-- Staging the transactions of a block one after the other keeps what is staged `Legible`. -/
theorem legible_of_effectTxs {g : Genesis} {block : Block} {txs : List Transaction}
    {overlay after : Overlay} (hstaged : overlay.staged.Legible)
    (h : block.effectTxs g txs overlay = .ok after) : after.staged.Legible := by
  -- induction on the transactions that are left, with what is staged so far as the invariant
  induction txs generalizing overlay with
  | nil => exact Except.ok.inj h ▸ hstaged
  | cons tx txs ih =>
    obtain ⟨changes, hchanges, h⟩ := Except.bind_eq_ok_iff.1 h
    have hlegible := Unsigned.legible_of_execute (Except.mapError_eq_ok_iff.1 hchanges)
    -- the index entry of the transaction is staged with what it changed
    exact ih (hstaged.merge (hlegible.putTransaction tx.id block.id)) h

/-- What the `effect` of a framed block writes is `Legible`, whatever its transactions read. -/
theorem legible_of_effect {g : Genesis} {block : Block} {view : View} {changes : Changes}
    (hframed : block.IsFramed Engine.framing) (h : block.effect g view = .ok changes) :
    changes.Legible := by
  obtain ⟨overlay, hoverlay, h⟩ := Except.bind_eq_ok_iff.1 h
  obtain rfl := Except.ok.inj h
  have hstaged := legible_of_effectTxs (show (Overlay.on view).staged.Legible from .empty) hoverlay
  exact (hstaged.putBlock hframed).putFact _ _

end Block

/-! ## Reading -/

namespace View.Legible

variable {view : View} (hv : view.Legible)

include hv

/-- `Legible` changes on a `Legible` view give one: where they say nothing its own value stands. -/
theorem push {changes : Changes} (hc : changes.Legible) : (view.push changes).Legible := by
  intro key value hget
  rw [get?_push] at hget
  -- the new layer decides where it says something, and else the view below does
  cases hkey : changes[key]? with
  | none => exact hv key value (by rwa [hkey] at hget)
  | some change => exact hc key value (by rw [hkey, ← hget, hkey]; rfl)

/-- `record?` has an answer under a key whose bytes fit a record. -/
theorem exists_record? {α : Type} [Wire α] {key : Bytes}
    (hkey : ∀ value, StoreKey.Fits key value → ∃ a : α, readRecord value = .ok a) :
    ∃ found : Option α, view.record? key = .ok found := by
  cases hget : view.get? key with
  | none => exact ⟨none, by rw [record?, hget]⟩
  | some value =>
    obtain ⟨a, ha⟩ := hkey value (hv key value hget)
    exact ⟨some a, by rw [record?, hget]; simp only [ha]; rfl⟩

/-- `lease?` does not fail on a `Legible` view. -/
theorem exists_lease? (name : String) : ∃ found, view.lease? name = .ok found :=
  hv.exists_record? fun _ hfits => hfits

/-- `value?` does not fail on a `Legible` view. -/
theorem exists_value? (name : String) (key : Bytes) : ∃ found, view.value? name key = .ok found :=
  hv.exists_record? fun _ hfits => hfits

/-- `balance` does not fail on a `Legible` view; one that is absent is zero. -/
theorem exists_balance (holder : PublicKey) : ∃ amount, view.balance holder = .ok amount := by
  obtain ⟨found, hfound⟩ : ∃ found : Option UInt64,
      view.record? (StoreKey.balance holder) = .ok found := hv.exists_record? fun _ hfits => hfits
  exact ⟨found.getD 0, by rw [balance, hfound]; rfl⟩

/-- `values` does not fail on a `Legible` view: what a scan finds is read entry by entry. -/
theorem exists_values (name : String) : ∃ found, view.values name = .ok found := by
  refine Except.exists_mapM_eq_ok fun ⟨key, bytes⟩ hmem => ?_
  -- an entry that the scan finds is one that the view shows under the name of a value
  rw [Std.ExtTreeMap.mem_toList_iff_getElem?_eq_some, getElem?_scan] at hmem
  split at hmem
  · next hstart =>
    obtain ⟨rest, rfl⟩ := StoreKey.isPrefixOf_valuesOf_iff.1 hstart
    obtain ⟨stored, hstored⟩ := hv _ bytes hmem
    exact ⟨_, by simp only [hstored]; rfl⟩
  · cases hmem

end View.Legible

/-- A view is `Legible` when its table and its layers are. -/
theorem View.legible_of_layers {layers : List Changes} {base : Table Bytes}
    (hbase : (View.durable base).Legible) (hlayers : ∀ layer ∈ layers, layer.Legible) :
    Legible ⟨layers, base⟩ := by
  -- by the layers from the nearest on: each is pushed on a view that shows what fits
  induction layers with
  | nil => exact hbase
  | cons layer layers ih =>
    obtain ⟨hlayer, hrest⟩ := List.forall_mem_cons.1 hlayers
    exact (ih hrest).push hlayer

/-- A table stays `Legible` when `Legible` changes are carried out on it. -/
theorem View.Legible.apply {table : Table Bytes} {changes : Changes}
    (ht : (View.durable table).Legible) (hc : changes.Legible) :
    (View.durable (table.apply changes)).Legible := by
  intro key value hget
  rw [View.get?_durable, Table.getElem?_apply, ← View.get?_durable, ← View.get?_push] at hget
  exact ht.push hc key value hget

/-! ## Executing -/

/-- The error blames the transaction and not what is stored. -/
def ExecutionError.IsPlain : ExecutionError → Prop
  | storage _ => False
  | _ => True

namespace Ledger

open ExecutionError (IsPlain)

/-- The checks of a name blame the transaction: `validateName` fails plainly only. -/
theorem failsOnly_validateName (g : Genesis) (name : String) :
    FailsOnly IsPlain (validateName g name) :=
  .ite (.error trivial) (.ite (.error trivial) (.ite (.error trivial) (.ok ())))

/-- `validateForm` fails plainly only. -/
theorem failsOnly_validateForm (g : Genesis) (tx : Unsigned) :
    FailsOnly IsPlain (validateForm g tx) := by
  refine .ite (.error trivial) (.ite (.error trivial) ?_)
  cases tx.operation.name? with
  | none => exact .ok ()
  | some name => exact failsOnly_validateName g name

/-- `validateKey` fails plainly only. -/
theorem failsOnly_validateKey (g : Genesis) (key : Bytes) :
    FailsOnly IsPlain (validateKey g key) :=
  .ite (.error trivial) (.ite (.error trivial) (.ok ()))

/-- `validateValue` fails plainly only. -/
theorem failsOnly_validateValue (g : Genesis) (value : Bytes) :
    FailsOnly IsPlain (validateValue g value) :=
  .ite (.error trivial) (.ite (.error trivial) (.ok ()))

/-- `reading` a read that succeeds does not fail. -/
theorem failsOnly_reading {α : Type} {read : Except StorageError α} (h : ∃ a, read = .ok a) :
    FailsOnly IsPlain (reading read) := by
  obtain ⟨a, rfl⟩ := h
  exact .ok a

end Ledger

namespace View.Legible

open Ledger
open ExecutionError (IsPlain)

variable {view : View} (hv : view.Legible)

include hv

/-- `liveLease` blames what is stored only if the lease cannot be read. -/
theorem failsOnly_liveLease (name : String) (now : UInt64) :
    FailsOnly IsPlain (liveLease view name now) := by
  refine (failsOnly_reading (hv.exists_lease? name)).bind fun found _ => ?_
  cases found with
  | none => exact .error trivial
  | some lease => exact .ite (.error trivial) (.ok lease)

/-- `ownedLease` fails plainly only. -/
theorem failsOnly_ownedLease (name : String) (sender : PublicKey) (now : UInt64) :
    FailsOnly IsPlain (ownedLease view name sender now) :=
  (hv.failsOnly_liveLease name now).bind fun lease _ => .ite (.ok lease) (.error trivial)

/-- `debit` fails plainly only. -/
theorem failsOnly_debit (payer : PublicKey) (amount : UInt64) :
    FailsOnly IsPlain (debit view payer amount) :=
  (failsOnly_reading (hv.exists_balance payer)).bind fun _ _ => .ite (.error trivial) (.ok _)

/-- `heldUnits` fails plainly only. -/
theorem failsOnly_heldUnits (g : Genesis) (name : String) (key : Bytes) :
    FailsOnly IsPlain (heldUnits g view name key) := by
  refine (failsOnly_reading (hv.exists_value? name key)).bind fun found _ => ?_
  cases found with
  | none => exact .ok 0
  | some previous => exact .ok _

variable (ctx : ExecutionContext) (sender : PublicKey) (fee : UInt64)

/-- The step `claim` fails plainly only, whether the name is free, held or expired. -/
theorem failsOnly_claim (name : String) : FailsOnly IsPlain (claim ctx view sender fee name) := by
  unfold claim
  refine .guard trivial ?_
  refine (failsOnly_reading (hv.exists_lease? name)).bind fun found _ => ?_
  -- a claim that is paid for stages the same in both cases, on top of what was cleared
  have hpaid (cleared : Changes) : FailsOnly IsPlain (debit view sender fee >>= fun rest =>
      pure ((cleared.putBalance sender rest).putLease name (.claimed ctx sender))) :=
    (hv.failsOnly_debit sender fee).bind fun _ _ => .ok _
  cases found with
  | none => exact hpaid ∅
  -- a lease that is there is taken only if it has expired
  | some lease =>
    dsimp only
    split
    · exact hpaid _
    · exact .error trivial

/-- The step `set` fails plainly only. -/
theorem failsOnly_set (name : String) (key value : Bytes) :
    FailsOnly IsPlain (set ctx view sender fee name key value) :=
  (failsOnly_validateKey _ key).bind fun _ _ => (failsOnly_validateValue _ value).bind fun _ _ =>
    (hv.failsOnly_ownedLease name sender _).bind fun _ _ =>
      (hv.failsOnly_debit sender fee).bind fun _ _ =>
        (hv.failsOnly_heldUnits _ name key).bind fun _ _ => .ok _

/-- The step `delete` fails plainly only. -/
theorem failsOnly_delete (name : String) (key : Bytes) :
    FailsOnly IsPlain (delete ctx view sender fee name key) := by
  -- the checks come in the order of the step, and only the value itself may be missing
  refine (failsOnly_validateKey _ key).bind fun _ _ =>
    (hv.failsOnly_ownedLease name sender _).bind fun _ _ =>
      (failsOnly_reading (hv.exists_value? name key)).bind fun found _ => ?_
  cases found with
  | none => exact .error trivial
  | some previous => exact (hv.failsOnly_debit sender fee).bind fun _ _ => .ok _

/-- The step `move` fails plainly only. -/
theorem failsOnly_move (name : String) (newOwner : PublicKey) :
    FailsOnly IsPlain (move ctx view sender fee name newOwner) := by
  unfold move
  refine .guard trivial ?_
  exact (hv.failsOnly_ownedLease name sender _).bind fun _ _ =>
    (hv.failsOnly_debit sender fee).bind fun _ _ => .ok _

/-- The step `transfer` fails plainly only. -/
theorem failsOnly_transfer (recipient : PublicKey) (units : UInt64) :
    FailsOnly IsPlain (transfer view sender fee recipient units) := by
  unfold transfer
  refine .guard trivial ?_
  refine .guard trivial ?_
  exact (hv.failsOnly_debit sender _).bind fun _ _ =>
    (failsOnly_reading (hv.exists_balance recipient)).bind fun _ _ => .ok _

/-- The step `lifeline` fails plainly only. -/
theorem failsOnly_lifeline (name : String) (units : UInt64) :
    FailsOnly IsPlain (lifeline ctx view sender fee name units) := by
  unfold lifeline
  refine .guard trivial ?_
  exact (hv.failsOnly_liveLease name _).bind fun _ _ =>
    (hv.failsOnly_debit sender fee).bind fun _ _ => .ok _

/-- On a `Legible` view, a transaction that does not `execute` has itself to blame. -/
theorem failsOnly_execute (tx : Unsigned) : FailsOnly IsPlain (tx.execute ctx view) := by
  refine (failsOnly_validateForm _ tx).bind fun _ _ => ?_
  dsimp only
  -- each operation has its own checks, all of them against the same legible view
  cases tx.operation with
  | claim name => exact hv.failsOnly_claim _ _ _ name
  | set name key value => exact hv.failsOnly_set _ _ _ name key value
  | delete name key => exact hv.failsOnly_delete _ _ _ name key
  | move name newOwner => exact hv.failsOnly_move _ _ _ name newOwner
  | transfer recipient units => exact hv.failsOnly_transfer _ _ recipient units
  | lifeline name units => exact hv.failsOnly_lifeline _ _ _ name units

end View.Legible

end LeaseChain
