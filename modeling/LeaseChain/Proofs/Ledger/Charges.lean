import LeaseChain.Proofs.Ledger.Isolation
import Mathlib.Algebra.Order.Ring.Nat

/-!
# What a transaction is charged

Fee units, the fee, what a transfer takes and what its recipient then has are words, each of which
stops at the greatest one. Over the integers the charge of a transaction is its price times its fee
units, and what a transfer pays on top; what the sender loses is that charge or the greatest word,
whichever is less. A charge beyond the greatest word is not refused but cut down to it, and only a
balance of the greatest word covers it.

## Key results

- `Unsigned.toNat_fee`: the fee is the exact one, or the greatest word
- `Outcome.pays_charge`: so is all that the sender pays
- `Unsigned.execute_charges`: when the sender is debited and the recipient credited in full
-/

namespace LeaseChain

open Ledger

namespace Operation

/-- The fee units on top of those that every transaction pays, over the integers. -/
def exactExtraUnits (g : Genesis) : Operation → Nat
  | claim _ => g.claimFeeUnits.toNat
  | set _ _ value => value.length / max g.valueUnitSize.toNat 1 + 1
  | lifeline _ units => units.toNat
  | delete _ _ | move _ _ | transfer _ _ => 0

/-- What the sender pays to somebody else. -/
def payment : Operation → Nat
  | transfer _ units => units.toNat
  | claim _ | set _ _ _ | delete _ _ | move _ _ | lifeline _ _ => 0

theorem toNat_extraUnits (g : Genesis) (op : Operation) :
    (op.extraUnits g).toNat = min (op.exactExtraUnits g) (UInt64.size - 1) := by
  have hword (w : UInt64) : w.toNat = min w.toNat (UInt64.size - 1) := by
    have hlt := w.toNat_lt_size
    omega
  cases op with
  | claim => exact hword g.claimFeeUnits
  | set _ _ value => exact toNat_clamp _
  | lifeline _ units => exact hword units
  | delete | move | transfer => rfl

end Operation

namespace Unsigned

/-- The fee over the integers. -/
def exactFee (tx : Unsigned) (g : Genesis) : Nat :=
  tx.base.price.toNat * (g.baseTxUnits.toNat + tx.operation.exactExtraUnits g)

/-- All that the sender has to pay, over the integers: the fee, and what a transfer pays. -/
def exactCharge (tx : Unsigned) (g : Genesis) : Nat := tx.exactFee g + tx.operation.payment

theorem toNat_feeUnits (tx : Unsigned) (g : Genesis) : (tx.feeUnits g).toNat =
    min (g.baseTxUnits.toNat + tx.operation.exactExtraUnits g) (UInt64.size - 1) := by
  rw [feeUnits, toNat_satAdd, Operation.toNat_extraUnits]
  omega

/-- `fee` is `exactFee`, or the greatest word. -/
theorem toNat_fee (tx : Unsigned) (g : Genesis) :
    (tx.fee g).toNat = min (tx.exactFee g) (UInt64.size - 1) := by
  rw [fee, toNat_satMul, toNat_feeUnits, exactFee]
  generalize g.baseTxUnits.toNat + tx.operation.exactExtraUnits g = units
  by_cases hunits : units ≤ UInt64.size - 1
  · rw [Nat.min_eq_left hunits]
  · -- more units than a word counts come to more than a word, unless they cost nothing
    have hcut : min units (UInt64.size - 1) = UInt64.size - 1 := Nat.min_eq_right (by omega)
    rw [hcut]
    rcases Nat.eq_zero_or_pos tx.base.price.toNat with hfree | hprice
    · rw [hfree, Nat.zero_mul, Nat.zero_mul]
    · have hword := Nat.le_mul_of_pos_left (UInt64.size - 1) hprice
      have hexact := Nat.le_mul_of_pos_left units hprice
      omega

end Unsigned

/-- `Outcome` has the sender pay the charge, or the greatest word. -/
theorem Outcome.pays_charge {tx : Unsigned} {ctx : ExecutionContext} {view : View}
    {changes : Changes}
    (h : Outcome ctx view tx.base.sender (tx.fee ctx.genesis) tx.operation changes) :
    ∃ before after, view.balance tx.base.sender = .ok before ∧
      (view.push changes).balance tx.base.sender = .ok after ∧
      after.toNat + min (tx.exactCharge ctx.genesis) (UInt64.size - 1) = before.toNat := by
  have hfee := tx.toNat_fee ctx.genesis
  rcases h.balance_cases with ⟨hop, rest, ⟨available, havailable, hrest⟩, hafter⟩ |
    ⟨recipient, units, rest, held, hop, hother, ⟨available, havailable, hrest⟩, -, hafter⟩
  · -- only the fee is paid
    refine ⟨available, rest, havailable, by rw [hafter, if_pos rfl], ?_⟩
    have hpayment : tx.operation.payment = 0 := by
      cases hcase : tx.operation with
      | transfer recipient units => exact absurd hcase (hop recipient units)
      | claim | set | delete | move | lifeline => rfl
    rw [Unsigned.exactCharge, hpayment, Nat.add_zero, ← hfee, hrest]
  · -- the units and the fee are paid together
    refine ⟨available, rest, havailable,
      by rw [hafter, if_neg hother.symm, if_pos rfl], ?_⟩
    rw [toNat_satAdd, hfee] at hrest
    rw [Unsigned.exactCharge, hop, Operation.payment]
    omega

/--
What `execute` takes and gives, over the integers. The sender loses `exactCharge` or the greatest
word, whichever is less: had enough for the charge and lost just that if and only if the charge is a
word, which it is unless the sender had the greatest word and lost all of it. The recipient of a
`transfer` has `units` more, or the greatest word: they are credited in full if and only if that is
a word.
-/
theorem Unsigned.execute_charges {tx : Unsigned} {ctx : ExecutionContext} {view : View}
    {changes : Changes} (h : tx.execute ctx view = .ok changes) :
    (∃ before after, view.balance tx.base.sender = .ok before ∧
      (view.push changes).balance tx.base.sender = .ok after ∧
      after.toNat + min (tx.exactCharge ctx.genesis) (UInt64.size - 1) = before.toNat ∧
      (tx.exactCharge ctx.genesis ≤ before.toNat ∧
          after.toNat + tx.exactCharge ctx.genesis = before.toNat ↔
        tx.exactCharge ctx.genesis < UInt64.size) ∧
      (UInt64.size ≤ tx.exactCharge ctx.genesis →
        before.toNat = UInt64.size - 1 ∧ after = 0)) ∧
    ∀ recipient units, tx.operation = .transfer recipient units →
      ∃ held received, view.balance recipient = .ok held ∧
        (view.push changes).balance recipient = .ok received ∧
        received.toNat = min (held.toNat + units.toNat) (UInt64.size - 1) ∧
        (received.toNat = held.toNat + units.toNat ↔ held.toNat + units.toNat < UInt64.size) := by
  have houtcome := (execute_eq_ok_iff.1 h).2
  refine ⟨?_, fun recipient units hop => ?_⟩
  · obtain ⟨before, after, hbefore, hafter, hpaid⟩ := houtcome.pays_charge
    have hlt := before.toNat_lt_size
    -- a saturated charge passes only against the largest balance there is, and takes all of it
    refine ⟨before, after, hbefore, hafter, hpaid, by omega, fun hbeyond => ?_⟩
    have hrest : after.toNat = 0 := by omega
    exact ⟨by omega, UInt64.toNat_inj.1 hrest⟩
  · -- among the operations only a transfer credits anyone
    rcases houtcome.balance_cases with ⟨hnot, -⟩ | ⟨_, _, rest, held, hop', -, -, hheld, hafter⟩
    · exact absurd hop (hnot recipient units)
    · obtain ⟨rfl, rfl⟩ := Operation.transfer.inj (hop.symm.trans hop')
      have hreceived := toNat_satAdd held units
      refine ⟨held, _, hheld, by rw [hafter, if_pos rfl], hreceived, ?_⟩
      rw [hreceived, UInt64.size]
      omega

/-! ## A fee that is not paid

The owner has the greatest balance, and sends all of it away.
-/

namespace Neighbours

def hoard : UInt64 := 0xffffffffffffffff

def bank : View := (View.durable ∅).push ((∅ : Changes).putBalance owner hoard)

def payment : Unsigned := ⟨⟨owner, Hash.replicate 1, 1, 0⟩, .transfer guest hoard⟩

def payday : ExecutionContext := ⟨{}, 50, Hash.replicate 3⟩

/-- `payment` gives the guest all that the owner had, and nobody pays the fee of one. -/
theorem unpaid_payment : ∃ changes, payment.execute payday bank = .ok changes ∧
    payment.exactFee payday.genesis = 1 ∧ payment.exactCharge payday.genesis = UInt64.size ∧
    bank.balance owner = .ok hoard ∧ (bank.push changes).balance owner = .ok 0 ∧
    (bank.push changes).balance guest = .ok hoard := by
  -- the run only shows that the transfer passes; what it did is read off the general theorem
  obtain ⟨changes, h⟩ : ∃ changes, payment.execute payday bank = .ok changes := by
    have hok : (payment.execute payday bank).toOption.isSome = true := by decide +kernel
    cases hexecute : payment.execute payday bank with
    | ok changes => exact ⟨changes, rfl⟩
    | error cause =>
      rw [hexecute] at hok
      cases hok
  obtain ⟨⟨before, after, hbefore, hafter, -, -, hbeyond⟩, hcredit⟩ := Unsigned.execute_charges h
  have hcharge : payment.exactCharge payday.genesis = UInt64.size := by decide
  obtain ⟨hall, rfl⟩ := hbeyond (by rw [hcharge])
  obtain rfl : before = hoard := UInt64.toNat_inj.1 hall
  obtain ⟨held, received, hheld, hreceived, hsum, -⟩ := hcredit guest hoard rfl
  have hnothing : bank.balance guest = .ok 0 := by decide +kernel
  obtain rfl := Except.ok.inj (hheld.symm.trans hnothing)
  obtain rfl : received = hoard := UInt64.toNat_inj.1 (hsum.trans (by decide))
  exact ⟨changes, h, by decide, hcharge, hbefore, hafter, hreceived⟩

end Neighbours

end LeaseChain
