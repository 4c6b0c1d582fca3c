import LeaseChain.Proofs.Text.Utf8
import LeaseChain.Store.Key

/-!
# The kinds of keys are apart

The first byte of a key tells its kind. Leases, values and balances are the ledger's: they are all
that executing a transaction reads and writes. The index of transactions, the blocks and the facts
about the chain as a whole are the engine's.

## Key results

- `StoreKey.IsLedger`: the keys of the ledger
- `StoreKey.block_inj`, `StoreKey.transaction_inj`: a key holds its identifier
- `StoreKey.BelongsTo`: the keys of one namespace
- `StoreKey.eq_of_belongsTo`: namespaces without a slash in their names have no key in common
-/

namespace LeaseChain.StoreKey

/-- The key of a lease, a value or a balance. -/
def IsLedger (key : Bytes) : Prop :=
  key.head? = some 0x00 ∨ key.head? = some 0x01 ∨ key.head? = some 0x04

instance (key : Bytes) : Decidable (IsLedger key) := by unfold IsLedger; infer_instance

/-- The key `lease` of a lease is the ledger's, by its tag. -/
theorem isLedger_lease (name : String) : IsLedger (lease name) := .inl rfl

/-- The key `value` of a stored value is the ledger's. -/
theorem isLedger_value (name : String) (key : Bytes) : IsLedger (value name key) := .inr (.inl rfl)

/-- The key `balance` of a balance is the ledger's. -/
theorem isLedger_balance (holder : PublicKey) : IsLedger (balance holder) := .inr (.inr rfl)

/-- `valuesOf` a name starts keys of the ledger only. -/
theorem isLedger_of_valuesOf {name : String} {key : Bytes}
    (h : (valuesOf name).isPrefixOf key = true) : IsLedger key := by
  obtain ⟨rest, rfl⟩ := List.isPrefixOf_iff_prefix.1 h
  exact .inr (.inl rfl)

/-- The index of transactions is the engine's: no key `transaction` is the ledger's. -/
theorem not_isLedger_transaction (id : Hash) : ¬IsLedger (transaction id) := by
  simp [IsLedger, transaction]

/-- No key `block` of a stored block is the ledger's. -/
theorem not_isLedger_block (id : Hash) : ¬IsLedger (block id) := by simp [IsLedger, block]

/-- No key `fact` of a fact about the chain is the ledger's. -/
theorem not_isLedger_fact (name : String) : ¬IsLedger (fact name) := by simp [IsLedger, fact]

/-- `IsLedger` tells a key that has it from one that does not. -/
theorem ne_of_isLedger {key other : Bytes} (h : IsLedger key) (h' : ¬IsLedger other) :
    key ≠ other := fun heq => h' (heq ▸ h)

/-- A key `block` holds the identifier of its block, and so determines it. -/
@[simp] theorem block_inj {a b : Hash} : block a = block b ↔ a = b := by
  simp [block, Hash.ext_iff]

/-- A key `transaction` determines its identifier. -/
@[simp] theorem transaction_inj {a b : Hash} : transaction a = transaction b ↔ a = b := by
  simp [transaction, Hash.ext_iff]

/-- A key `fact` determines the name of the fact, as texts are told by their bytes. -/
@[simp] theorem fact_inj {a b : String} : fact a = fact b ↔ a = b := by
  simp only [fact, List.cons.injEq, true_and]
  exact ⟨Bytes.ofText_injective, congrArg _⟩

/-- The keys `block` and `transaction` are apart, by their tags; so are the pairs below. -/
@[simp] theorem block_ne_transaction (a b : Hash) : block a ≠ transaction b := by
  simp [block, transaction]

@[simp] theorem transaction_ne_block (a b : Hash) : transaction a ≠ block b := by
  simp [block, transaction]

@[simp] theorem block_ne_fact (a : Hash) (name : String) : block a ≠ fact name := by
  simp [block, fact]

@[simp] theorem fact_ne_block (name : String) (a : Hash) : fact name ≠ block a := by
  simp [block, fact]

@[simp] theorem transaction_ne_fact (a : Hash) (name : String) : transaction a ≠ fact name := by
  simp [transaction, fact]

@[simp] theorem fact_ne_transaction (name : String) (a : Hash) : fact name ≠ transaction a := by
  simp [transaction, fact]

/-! ## Kinds of ledger keys -/

/-- A key `lease` determines the name of its namespace. -/
@[simp] theorem lease_inj {a b : String} : lease a = lease b ↔ a = b := by
  simp only [lease, List.cons.injEq, true_and]
  exact ⟨Bytes.ofText_injective, congrArg _⟩

/-- A key `balance` determines its holder. -/
@[simp] theorem balance_inj {a b : PublicKey} : balance a = balance b ↔ a = b := by
  simp [balance, PublicKey.ext_iff]

/-- Within one namespace, a key `value` determines the key that the value was stored under. -/
@[simp] theorem value_inj {name : String} {a b : Bytes} : value name a = value name b ↔ a = b := by
  simp [value]

/-- The keys `lease` and `balance` are apart, by their tags; so are the pairs below. -/
@[simp] theorem lease_ne_balance (name : String) (holder : PublicKey) :
    lease name ≠ balance holder := by
  simp [lease, balance]

@[simp] theorem balance_ne_lease (holder : PublicKey) (name : String) :
    balance holder ≠ lease name := by
  simp [lease, balance]

@[simp] theorem lease_ne_value (name other : String) (key : Bytes) :
    lease name ≠ value other key := by
  simp [lease, value, valuesOf]

@[simp] theorem value_ne_lease (name : String) (key : Bytes) (other : String) :
    value name key ≠ lease other := by
  simp [lease, value, valuesOf]

@[simp] theorem balance_ne_value (holder : PublicKey) (name : String) (key : Bytes) :
    balance holder ≠ value name key := by
  simp [balance, value, valuesOf]

@[simp] theorem value_ne_balance (name : String) (key : Bytes) (holder : PublicKey) :
    value name key ≠ balance holder := by
  simp [balance, value, valuesOf]

/-! ## Namespaces -/

/-- A name that holds no slash, so that it can stand between two. -/
def IsSegment (name : String) : Prop := delimiter ∉ Bytes.ofText name

instance (name : String) : Decidable (IsSegment name) := by unfold IsSegment; infer_instance

/-- The key of the lease, or of a value, of a namespace. -/
def BelongsTo (name : String) (key : Bytes) : Prop :=
  key = lease name ∨ (valuesOf name).isPrefixOf key = true

/-- The key of a lease `BelongsTo` its namespace. -/
theorem belongsTo_lease (name : String) : BelongsTo name (lease name) := .inl rfl

/-- A key that `BelongsTo` a namespace is the ledger's. -/
theorem isLedger_of_belongsTo {name : String} {key : Bytes} (h : BelongsTo name key) :
    IsLedger key := by
  rcases h with rfl | h
  · exact isLedger_lease name
  · exact isLedger_of_valuesOf h

/-- `valuesOf` a name starts the keys of its values, and no others. -/
theorem isPrefixOf_valuesOf_iff {name : String} {key : Bytes} :
    (valuesOf name).isPrefixOf key = true ↔ ∃ rest, key = value name rest := by
  rw [List.isPrefixOf_iff_prefix]
  exact ⟨fun ⟨rest, h⟩ => ⟨rest, h.symm⟩, fun ⟨rest, h⟩ => ⟨rest, h.symm⟩⟩

/-- The key `value` of a value starts like the values of its namespace. -/
theorem isPrefixOf_value (name : String) (key : Bytes) :
    (valuesOf name).isPrefixOf (value name key) = true :=
  isPrefixOf_valuesOf_iff.2 ⟨key, rfl⟩

/-- `valuesOf` never starts the key of a lease, that of its own name included. -/
@[simp] theorem not_isPrefixOf_lease (name other : String) :
    (valuesOf name).isPrefixOf (lease other) = false := by
  rw [Bool.eq_false_iff, Ne, isPrefixOf_valuesOf_iff]
  rintro ⟨rest, h⟩
  exact lease_ne_value other name rest h

/-- `valuesOf` never starts the key of a balance. -/
@[simp] theorem not_isPrefixOf_balance (name : String) (holder : PublicKey) :
    (valuesOf name).isPrefixOf (balance holder) = false := by
  rw [Bool.eq_false_iff, Ne, isPrefixOf_valuesOf_iff]
  rintro ⟨rest, h⟩
  exact balance_ne_value holder name rest h

/-- `BelongsTo` never holds of a balance. -/
theorem not_belongsTo_balance (name : String) (holder : PublicKey) :
    ¬BelongsTo name (balance holder) := by
  simp [BelongsTo]

/-- `value` keys tell their namespace: it stands before the first slash after the tag. -/
theorem eq_of_value_eq {a b : String} (ha : IsSegment a) (hb : IsSegment b) {key key' : Bytes}
    (h : value a key = value b key') : a = b ∧ key = key' := by
  simp only [value, valuesOf, List.cons_append, List.append_assoc, List.nil_append,
    List.cons.injEq, true_and] at h
  -- a name is cut off at the first slash, and without a slash in it nothing is cut off too early
  have hfront {name : String} (hname : IsSegment name) (rest : Bytes) :
      (Bytes.ofText name ++ delimiter :: rest).takeWhile (· != delimiter) = Bytes.ofText name := by
    rw [List.takeWhile_append_of_pos, List.takeWhile_cons_of_neg, List.append_nil]
    · simp
    · intro byte hbyte
      rw [bne_iff_ne]
      rintro rfl
      exact hname hbyte
  have hnames : Bytes.ofText a = Bytes.ofText b := by
    rw [← hfront ha key, h, hfront hb key']
  -- equal names are taken off both sides, and the slash behind them
  rw [hnames] at h
  exact ⟨Bytes.ofText_injective hnames, (List.cons.inj (List.append_cancel_left h)).2⟩

/-- No key `BelongsTo` two namespaces without a slash in their names. -/
theorem eq_of_belongsTo {a b : String} (ha : IsSegment a) (hb : IsSegment b) {key : Bytes}
    (hkey : BelongsTo a key) (hkey' : BelongsTo b key) : a = b := by
  -- a lease's key is told from every value's by its tag, so that only like keys are left to compare
  rcases hkey with rfl | hkey
  · rcases hkey' with h | h
    · exact lease_inj.1 h
    · rw [not_isPrefixOf_lease] at h
      cases h
  · obtain ⟨rest, rfl⟩ := isPrefixOf_valuesOf_iff.1 hkey
    rcases hkey' with h | h
    · exact absurd h (value_ne_lease a rest b)
    · obtain ⟨rest', h⟩ := isPrefixOf_valuesOf_iff.1 h
      exact (eq_of_value_eq ha hb h).1

end LeaseChain.StoreKey
