import LeaseChain.Engine.Query
import LeaseChain.Proofs.Engine.PlainAnswers
import LeaseChain.Proofs.Engine.Supply
import LeaseChain.Proofs.Hex

/-!
# First balances

A chain starts with the balances that its parameters allocate. An allocation names its key by a
text, of which a key has many, and nothing keeps a list from naming one key several times. Each
allocation sets the balance of its key, so that of several to one key the last one counts and the
others are lost: the balance is their sum exactly where those others are of nothing.

## Key results

- `Genesis.lookup_credits`: what the last credit to a key is
- `Genesis.start_balances`: the balances after the first start
-/

namespace LeaseChain

namespace Genesis

/-- The balances that are allocated to a key, in order, under any of its spellings. -/
def allocatedTo (g : Genesis) (key : PublicKey) : List UInt64 :=
  (g.allocations.filter fun a => a.publicKey.toLower = key.toHex).map (·.balance)

/-- `Allocation.credit` is a credit to the key that its text spells. -/
theorem credit_eq_ok_iff {a : Allocation} {key : PublicKey} {amount : UInt64} :
    a.credit = .ok (key, amount) ↔ a.publicKey.toLower = key.toHex ∧ a.balance = amount := by
  rw [← PublicKey.ofHex_eq_ok_iff, Allocation.credit]
  cases PublicKey.ofHex a.publicKey <;> simp

/-- `credits` to a key are what is `allocatedTo` it. -/
theorem amounts_credits {g : Genesis} {credits : List (PublicKey × UInt64)}
    (hcredits : g.credits = .ok credits) (key : PublicKey) :
    (credits.filter fun credit => credit.1 = key).map (·.2) = g.allocatedTo key := by
  rw [Genesis.credits, Except.mapM_eq_ok_iff] at hcredits
  rw [allocatedTo]
  generalize g.allocations = allocations at hcredits ⊢
  -- induction on the allocations, each of which is read as one credit
  induction allocations generalizing credits with
  | nil => rw [List.map_eq_nil_iff.1 hcredits.symm]; rfl
  | cons a allocations ih =>
    obtain ⟨⟨named, amount⟩, credits, rfl, hcredit, hrest⟩ := List.map_eq_cons_iff.1 hcredits.symm
    obtain ⟨hnames, rfl⟩ := credit_eq_ok_iff.1 hcredit.symm
    -- two keys are the same where one text spells both
    have hsame : named = key ↔ a.publicKey.toLower = key.toHex := by
      rw [← PublicKey.ofHex_eq_ok_iff, PublicKey.ofHex_eq_ok_iff.2 hnames, Except.ok.injEq]
    by_cases hkey : named = key
    · simp [hkey, hsame.1 hkey, ih hrest.symm]
    · simp [hkey, mt hsame.2 hkey, ih hrest.symm]

/-- `lookup` in the reversed credits finds the last one to a key. -/
theorem lookup_reverse (credits : List (PublicKey × UInt64)) (key : PublicKey) :
    credits.reverse.lookup key =
      ((credits.filter fun credit => credit.1 = key).map (·.2)).getLast? := by
  induction credits using List.reverseRecOn with
  | nil => rfl
  | append_singleton credits credit ih =>
    obtain ⟨named, amount⟩ := credit
    rw [lookup_reverse_concat, List.filter_append, List.map_append, ih]
    by_cases hkey : named = key
    · simp [hkey]
    · simp [hkey]

/-- `getLast?` of some amounts is their sum exactly where the others are zero. -/
theorem last_eq_sum_iff (amounts : List UInt64) :
    (amounts.getLast?.getD 0).toNat = (amounts.map (·.toNat)).sum ↔
      ∀ lost ∈ amounts.dropLast, lost = 0 := by
  -- the last amount is in both, so that the others have to sum up to nothing
  cases amounts using List.reverseRecOn with
  | nil => simp
  | append_singleton others last =>
    have hzero : (∀ lost ∈ others, lost = 0) ↔ (others.map (·.toNat)).sum = 0 := by
      rw [List.sum_eq_zero_iff_forall_eq_nat, List.forall_mem_map]
      exact forall₂_congr fun lost _ => UInt64.toNat_inj.symm
    rw [List.getLast?_concat, List.dropLast_concat, hzero, List.map_append, List.sum_append]
    simp

/-- `Engine.start` succeeds on an empty store with parameters that pass `validate`. -/
theorem exists_start {g : Genesis} {credits : List (PublicKey × UInt64)}
    (hvalid : g.validate = .ok ()) (hcredits : g.credits = .ok credits) (settings : Settings) :
    ∃ (e : Engine) (store : Store), Engine.start g settings ⟨∅, 0⟩ = (.ok e, store) := by
  obtain ⟨first, hfirst⟩ := Engine.exists_first g
  have hempty : ¬(∅ : Table Bytes).contains StoreKey.initialized = true := by simp
  rw [Engine.start, if_neg hempty, Engine.genesisState, hvalid, hfirst, hcredits]
  exact ⟨_, _, rfl⟩

/-- `validate` passes only parameters whose `credits` can be read. -/
theorem exists_credits {g : Genesis} (hvalid : g.validate = .ok ()) :
    ∃ credits, g.credits = .ok credits := by
  unfold validate at hvalid
  split at hvalid
  · cases hvalid
  · exact Except.discard_eq_ok_iff.1 hvalid

/--
Parameters that pass `validate` start a chain on an empty store, with a balance for every key: the
last of `allocatedTo` the key, under any of its spellings, and zero where there is none. It is their
sum exactly where those before the last are of nothing.
-/
theorem start_balances {g : Genesis} (hvalid : g.validate = .ok ()) (settings : Settings) :
    ∃ (e : Engine) (store : Store), Engine.start g settings ⟨∅, 0⟩ = (.ok e, store) ∧
      ∀ key, ∃ amount, e.balance key = .ok amount ∧
        amount = (g.allocatedTo key).getLast?.getD 0 ∧
        (amount.toNat = ((g.allocatedTo key).map (·.toNat)).sum ↔
          ∀ lost ∈ (g.allocatedTo key).dropLast, lost = 0) := by
  obtain ⟨credits, hcredits⟩ := exists_credits hvalid
  obtain ⟨e, store, hstart⟩ := exists_start hvalid hcredits settings
  obtain ⟨block, changes, hstate, rfl, hentries⟩ := Engine.start_empty hstart
  -- the balances of the genesis state are the last credits, and those are the last allocations
  refine ⟨_, store, hstart, fun key => ⟨_, ?_, rfl, last_eq_sum_iff _⟩⟩
  have hbalance := Engine.balance_genesisState hstate hcredits key
  rw [lookup_reverse, amounts_credits hcredits, ← hentries] at hbalance
  exact congrArg Engine.reading hbalance

end Genesis

namespace Endowment

/-- The key of the point of order two. -/
def key : PublicKey := ⟨0xec :: (List.replicate 30 0xff ++ [0x7f]), rfl, by decide +kernel⟩

/-- The key is listed twice, in both letter cases. -/
def genesis : Genesis := { allocations := [⟨key.toHex, 5⟩, ⟨key.toHex.toUpper, 7⟩] }

/-- `toLower` brings both spellings to the key's text. -/
theorem toLower_spellings :
    key.toHex.toLower = key.toHex ∧ key.toHex.toUpper.toLower = key.toHex := by
  decide +kernel

/-- `validate` finds no fault in `genesis`, as both allocations can be read. -/
theorem validate_genesis : genesis.validate = .ok () := by
  have hlower : Allocation.credit ⟨key.toHex, 5⟩ = .ok (key, 5) :=
    Genesis.credit_eq_ok_iff.2 ⟨toLower_spellings.1, rfl⟩
  have hupper : Allocation.credit ⟨key.toHex.toUpper, 7⟩ = .ok (key, 7) :=
    Genesis.credit_eq_ok_iff.2 ⟨toLower_spellings.2, rfl⟩
  have hcredits : genesis.credits = .ok [(key, 5), (key, 7)] := by
    rw [Genesis.credits, Except.mapM_eq_ok_iff]
    exact congrArg₂ (fun first second => [first, second]) hlower hupper
  rw [Genesis.validate, hcredits]
  rfl

/-- `balance` has seven of the twelve units that are `allocatedTo` the key. -/
theorem balance_of_both : genesis.validate = .ok () ∧ genesis.allocatedTo key = [5, 7] ∧
    ∃ (e : Engine) (store : Store), Engine.start genesis {} ⟨∅, 0⟩ = (.ok e, store) ∧
      e.balance key = .ok 7 := by
  have hlisted : genesis.allocatedTo key = [5, 7] := by
    simp [Genesis.allocatedTo, genesis, toLower_spellings]
  obtain ⟨e, store, hstart, hbalances⟩ := Genesis.start_balances validate_genesis {}
  obtain ⟨amount, hbalance, hamount, -⟩ := hbalances key
  have hlast : amount = 7 := by
    rw [hamount, hlisted]
    rfl
  exact ⟨validate_genesis, hlisted, e, store, hstart, hlast ▸ hbalance⟩

end Endowment

end LeaseChain
