import LeaseChain.Transaction.Basic

/-!
# Mining

Mining looks for the first free number, from the present one on, with which an unsigned transaction
proves enough work. The search ends at the greatest free number at the latest.
-/

namespace LeaseChain

/-- Why a search found no free number. -/
inductive MiningError where
  /-- The search was called off after the given number of attempts. -/
  | cancelled (attempts : Nat)
  /-- No free number up to the greatest is enough. -/
  | exhausted
deriving DecidableEq

namespace MiningError

/-- The text shown for the error. -/
def message : MiningError → String
  | cancelled attempts => s!"Mining cancelled after {attempts} attempts"
  | exhausted => "Graffiti space exhausted"

end MiningError

/-- The end of a search: the number of attempts or the reason for none, and the transaction as the
search left it. -/
structure Mined where
  outcome : Except MiningError Nat
  tx : Unsigned

namespace Unsigned

/-- Whether the transaction meets the target with the given free number. -/
def meetsWith (tx : Unsigned) (target graffiti : UInt64) : Bool :=
  target ≤ (tx.withGraffiti graffiti).difficulty

/--
Tries the free numbers from `graffiti` on, of which `left + 1` remain; `attempts` were made before.
`cancelled n` tells whether the search is called off after `n` attempts.
-/
def mineFrom (tx : Unsigned) (target : UInt64) (cancelled : Nat → Bool) :
    Nat → UInt64 → Nat → Mined
  | 0, graffiti, attempts =>
    if cancelled attempts then ⟨.error (.cancelled attempts), tx.withGraffiti graffiti⟩
    else if tx.meetsWith target graffiti then ⟨.ok (attempts + 1), tx.withGraffiti graffiti⟩
    else ⟨.error .exhausted, tx.withGraffiti graffiti⟩
  | left + 1, graffiti, attempts =>
    if cancelled attempts then ⟨.error (.cancelled attempts), tx.withGraffiti graffiti⟩
    else if tx.meetsWith target graffiti then ⟨.ok (attempts + 1), tx.withGraffiti graffiti⟩
    else mineFrom tx target cancelled left (graffiti + 1) (attempts + 1)

/-- Searches for a free number with which the transaction's difficulty reaches the target. -/
def mine (tx : Unsigned) (target : UInt64) (cancelled : Nat → Bool) : Mined :=
  tx.mineFrom target cancelled (UInt64.size - 1 - tx.base.graffiti.toNat) tx.base.graffiti 0

end Unsigned

end LeaseChain
