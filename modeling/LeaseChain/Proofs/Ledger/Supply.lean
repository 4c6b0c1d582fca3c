import LeaseChain.Proofs.Ledger.Outcome
import LeaseChain.Proofs.Wire.Lawful
import Mathlib.Algebra.BigOperators.Group.Finset.Basic
import Mathlib.Algebra.GroupWithZero.Nat
import Mathlib.Data.Fintype.EquivFin

/-!
# The supply

The supply is the sum of all balances. There are finitely many keys, since a key is thirty-two
bytes, so the sum is over all of them. Executing a transaction burns its fee and moves the rest
about. Where a sum of balances could leave the range of a word, saturation may burn more, and never
mints.

## Key results

- `View.supply`: the sum of all balances
- `View.supply_congr`: what is no balance does not count
- `Outcome.supply_push`: what an execution does to the supply
-/

namespace LeaseChain

open Ledger

instance : Finite PublicKey := by
  -- a key is the integer that its bytes denote
  let number (key : PublicKey) : Fin (Nat.pow 256 32) :=
    ⟨Bytes.toNatLE key.bytes, key.length_eq ▸ Bytes.toNatLE_lt key.bytes⟩
  refine Finite.of_injective number fun a b h => PublicKey.ext ?_
  rw [← Bytes.ofNatLE_toNatLE_of_length a.length_eq, ← Bytes.ofNatLE_toNatLE_of_length b.length_eq,
    Fin.mk.inj h]

noncomputable instance : Fintype PublicKey := Fintype.ofFinite PublicKey

namespace View

/-- The balance of a key as a number, zero where it cannot be read. -/
def holding (view : View) (holder : PublicKey) : Nat :=
  match view.balance holder with
  | .ok amount => amount.toNat
  | .error _ => 0

/-- The sum of all balances. -/
noncomputable def supply (view : View) : Nat := ∑ holder, view.holding holder

variable {view : View}

theorem holding_of_balance {holder : PublicKey} {amount : UInt64}
    (h : view.balance holder = .ok amount) : view.holding holder = amount.toNat := by
  rw [holding, h]

/-- `supply` is the same for views with the same balances. -/
theorem supply_congr {w : View}
    (h : ∀ holder, view.get? (StoreKey.balance holder) = w.get? (StoreKey.balance holder)) :
    view.supply = w.supply :=
  Finset.sum_congr rfl fun holder _ => by rw [holding, holding, balance_congr (h holder)]

/-- `∑` over functions that differ at one key has the rest in common. -/
theorem exists_sum_one {f g : PublicKey → Nat} (a : PublicKey) (h : ∀ c, c ≠ a → g c = f c) :
    ∃ rest, ∑ c, f c = f a + rest ∧ ∑ c, g c = g a + rest := by
  classical
  refine ⟨∑ c ∈ Finset.univ.erase a, f c, (Finset.add_sum_erase _ f (Finset.mem_univ a)).symm, ?_⟩
  rw [← Finset.add_sum_erase _ g (Finset.mem_univ a)]
  exact congrArg _ (Finset.sum_congr rfl fun c hc => h c (Finset.ne_of_mem_erase hc))

/-- `∑` over functions that differ at two keys has the rest in common. -/
theorem exists_sum_two {f g : PublicKey → Nat} {a b : PublicKey} (hne : b ≠ a)
    (h : ∀ c, c ≠ a → c ≠ b → g c = f c) :
    ∃ rest, ∑ c, f c = f a + f b + rest ∧ ∑ c, g c = g a + g b + rest := by
  classical
  have hsplit (f : PublicKey → Nat) :
      ∑ c, f c = f a + f b + ∑ c ∈ (Finset.univ.erase a).erase b, f c := by
    rw [← Finset.add_sum_erase _ f (Finset.mem_univ a),
      ← Finset.add_sum_erase _ f (Finset.mem_erase.2 ⟨hne, Finset.mem_univ b⟩), Nat.add_assoc]
  refine ⟨_, hsplit f, (hsplit g).trans (congrArg _ (Finset.sum_congr rfl fun c hc => ?_))⟩
  obtain ⟨hcb, hc⟩ := Finset.mem_erase.1 hc
  exact h c (Finset.ne_of_mem_erase hc) hcb

end View

/-- `Outcome` never adds to the `supply`, and takes just the fee from one that fits a word. -/
theorem Outcome.supply_push {ctx : ExecutionContext} {view : View} {sender : PublicKey}
    {fee : UInt64} {op : Operation} {changes : Changes}
    (h : Outcome ctx view sender fee op changes) :
    (view.push changes).supply ≤ view.supply ∧
      (view.supply < UInt64.size - 1 → (view.push changes).supply + fee.toNat = view.supply) := by
  rcases h.balance_cases with ⟨-, rest, ⟨available, havailable, hrest⟩, hafter⟩ |
    ⟨recipient, units, rest, held, -, hother, ⟨available, havailable, hrest⟩, hheld, hafter⟩
  · -- the sender alone has less, by the fee
    obtain ⟨others, hbefore', hafter'⟩ := View.exists_sum_one (f := view.holding)
      (g := (view.push changes).holding) sender fun c hc => by
        rw [View.holding, View.holding, hafter, if_neg hc]
    rw [View.holding_of_balance havailable] at hbefore'
    rw [View.holding_of_balance ((hafter sender).trans (if_pos rfl))] at hafter'
    rw [View.supply, View.supply]
    omega
  · -- the sender has less, and the recipient more
    obtain ⟨others, hbefore', hafter'⟩ := View.exists_sum_two (f := view.holding)
      (g := (view.push changes).holding) hother fun c hc hc' => by
        rw [View.holding, View.holding, hafter, if_neg hc', if_neg hc]
    rw [View.holding_of_balance havailable, View.holding_of_balance hheld] at hbefore'
    rw [View.holding_of_balance ((hafter recipient).trans (if_pos rfl)),
      View.holding_of_balance ((hafter sender).trans
        ((if_neg hother.symm).trans (if_pos rfl))), toNat_satAdd] at hafter'
    rw [toNat_satAdd] at hrest
    rw [View.supply, View.supply]
    omega

end LeaseChain
