import LeaseChain.Transaction.Mining
import LeaseChain.Proofs.Wire.Frames
import Mathlib.Order.Bounds.Basic

/-!
# What mining finds

The search goes up one free number at a time, so that the first that is enough is also the least. It
counts an attempt for each, the last included, and gives up behind the greatest only. The work that
it measured is that of the signed transaction, which signing and reading each derive anew from the
bytes.

## Key results

- `Unsigned.sufficientFrom_next`: what a round of the search leaves out
- `Unsigned.mineFrom_cases`: the search from any number on, by induction on those that are left
- `Transaction.proves_sign`: the work that was measured outlasts signing and reading
- `Unsigned.mine_finds_least`: what the search for a target returns
-/

namespace LeaseChain

namespace Unsigned

variable {tx : Unsigned} {target graffiti : UInt64} {left attempts : Nat}

/-- The greatest free number. -/
def lastGraffiti : UInt64 := UInt64.ofNat (UInt64.size - 1)

/-- The free numbers, from the given one on, that are enough for the target. -/
def sufficientFrom (tx : Unsigned) (target graffiti : UInt64) : Set UInt64 :=
  {v | graffiti ≤ v ∧ target ≤ (tx.withGraffiti v).difficulty}

theorem toNat_lastGraffiti : lastGraffiti.toNat = UInt64.size - 1 := rfl

/-- No graffiti is above `lastGraffiti`. -/
theorem le_lastGraffiti (v : UInt64) : v ≤ lastGraffiti := by
  have hlt := v.toNat_lt_size
  rw [UInt64.le_iff_toNat_le, toNat_lastGraffiti]
  omega

/-- Below `lastGraffiti` the next one is one more. -/
theorem toNat_next (hleft : graffiti.toNat + (left + 1) = UInt64.size - 1) :
    (graffiti + 1).toNat = graffiti.toNat + 1 := by
  rw [UInt64.toNat_add, UInt64.toNat_one, Nat.mod_eq_of_lt]
  rw [UInt64.size] at hleft
  omega

/-- `meetsWith` measures the work that the transaction has with the graffiti. -/
theorem meetsWith_iff : tx.meetsWith target graffiti = true ↔
    target ≤ (tx.withGraffiti graffiti).difficulty := decide_eq_true_iff

/-- A graffiti that is enough is the least one of `sufficientFrom` itself. -/
theorem isLeast_of_meetsWith (hmeets : tx.meetsWith target graffiti = true) :
    IsLeast (tx.sufficientFrom target graffiti) graffiti :=
  ⟨⟨UInt64.le_refl _, meetsWith_iff.1 hmeets⟩, fun _ hv => hv.1⟩

/-- From `lastGraffiti` on there is no other. -/
theorem sufficientFrom_last (hmisses : ¬tx.meetsWith target lastGraffiti = true) :
    tx.sufficientFrom target lastGraffiti = ∅ := by
  refine Set.eq_empty_of_forall_notMem fun v ⟨hle, hv⟩ => hmisses (meetsWith_iff.2 ?_)
  rwa [← UInt64.le_antisymm (le_lastGraffiti v) hle]

/-- A graffiti that is not enough can be left out of `sufficientFrom`. -/
theorem sufficientFrom_next (hleft : graffiti.toNat + (left + 1) = UInt64.size - 1)
    (hmisses : ¬tx.meetsWith target graffiti = true) :
    tx.sufficientFrom target graffiti = tx.sufficientFrom target (graffiti + 1) := by
  ext v
  have hnext := toNat_next hleft
  refine and_congr_left fun hv => ?_
  rw [UInt64.le_iff_toNat_le, UInt64.le_iff_toNat_le, hnext]
  -- nothing is between a number and the next one, and the number itself is not enough
  refine ⟨fun hle => Nat.lt_of_le_of_ne hle fun heq => ?_, Nat.le_of_succ_le⟩
  obtain rfl := UInt64.toNat_inj.1 heq
  exact hmisses (meetsWith_iff.2 hv)

/-- `mineFrom` ends with the first graffiti that is enough. -/
theorem mineFrom_of_meetsWith (hmeets : tx.meetsWith target graffiti = true) :
    ∃ v, IsLeast (tx.sufficientFrom target graffiti) v ∧
      tx.mineFrom target (fun _ => false) left graffiti attempts =
        ⟨.ok (v.toNat - graffiti.toNat + 1 + attempts), tx.withGraffiti v⟩ := by
  refine ⟨graffiti, isLeast_of_meetsWith hmeets, ?_⟩
  rw [Nat.sub_self, Nat.zero_add, Nat.add_comm]
  cases left with
  | zero | succ => rw [mineFrom, if_neg Bool.false_ne_true, if_pos hmeets]

/--
`mineFrom` any graffiti ends with the least one that is enough, each up to it an attempt, or there
is none, and it ends with `lastGraffiti`.
-/
theorem mineFrom_cases (hleft : graffiti.toNat + left = UInt64.size - 1) :
    (∃ v, IsLeast (tx.sufficientFrom target graffiti) v ∧
      tx.mineFrom target (fun _ => false) left graffiti attempts =
        ⟨.ok (v.toNat - graffiti.toNat + 1 + attempts), tx.withGraffiti v⟩) ∨
    tx.sufficientFrom target graffiti = ∅ ∧
      tx.mineFrom target (fun _ => false) left graffiti attempts =
        ⟨.error .exhausted, tx.withGraffiti lastGraffiti⟩ := by
  -- induction on the numbers that are left above the present one
  induction left generalizing graffiti attempts with
  | zero =>
    obtain rfl : graffiti = lastGraffiti := UInt64.toNat_inj.1 hleft
    by_cases hmeets : tx.meetsWith target lastGraffiti = true
    · exact .inl (mineFrom_of_meetsWith hmeets)
    · rw [mineFrom, if_neg Bool.false_ne_true, if_neg hmeets]
      exact .inr ⟨sufficientFrom_last hmeets, rfl⟩
  | succ left ih =>
    by_cases hmeets : tx.meetsWith target graffiti = true
    · exact .inl (mineFrom_of_meetsWith hmeets)
    · rw [mineFrom, if_neg Bool.false_ne_true, if_neg hmeets, sufficientFrom_next hleft hmeets]
      have hnext := toNat_next hleft
      have hrest : (graffiti + 1).toNat + left = UInt64.size - 1 := by omega
      rcases ih hrest with ⟨v, hleast, hfound⟩ | hnone
      · -- the number that was tried counts as one more attempt
        refine .inl ⟨v, hleast, ?_⟩
        have hle := UInt64.le_iff_toNat_le.1 hleast.1.1
        rw [hfound]
        congr 2
        omega
      · exact .inr hnone

/-- The search for a target that is never called off. -/
def search (tx : Unsigned) (target : UInt64) : Mined := tx.mine target fun _ => false

/-- `search` starts at the present graffiti, and may go on to `lastGraffiti`. -/
theorem search_cases (tx : Unsigned) (target : UInt64) :
    (∃ v, IsLeast (tx.sufficientFrom target tx.base.graffiti) v ∧
      tx.search target = ⟨.ok (v.toNat - tx.base.graffiti.toNat + 1), tx.withGraffiti v⟩) ∨
    tx.sufficientFrom target tx.base.graffiti = ∅ ∧
      tx.search target = ⟨.error .exhausted, tx.withGraffiti lastGraffiti⟩ := by
  have hlt := tx.base.graffiti.toNat_lt_size
  exact mineFrom_cases (Nat.add_sub_of_le (Nat.le_sub_one_of_lt hlt))

end Unsigned

/-- A transaction has the work, and so has what is read from its bytes or from a frame of it. -/
structure Transaction.Proves (tx : Transaction) (target : UInt64) : Prop where
  work : target ≤ tx.difficulty
  readAll : (Wire.write tx).length < UInt64.size →
    ∃ read : Transaction, Wire.readAll (Wire.write tx) = .ok read ∧ target ≤ read.difficulty
  decode : ∀ (framing : Framing) (frame : Bytes), framing.encode tx = .ok frame →
    ∃ read : Transaction, framing.decode frame = .ok read ∧ target ≤ read.difficulty

/--
Signing and reading measure the work that mining measured: the signed transaction `Proves` it.
-/
theorem Transaction.proves_sign {unsigned : Unsigned} {target : UInt64}
    (hwork : target ≤ unsigned.difficulty) (key : SigningKey) :
    (Transaction.sign unsigned key).Proves target where
  work := hwork
  readAll hlength := ⟨_, Wire.readAll_write _ hlength, hwork⟩
  decode _ _ hframe := ⟨_, Framing.decode_encode hframe, hwork⟩

/--
The `search` for a target succeeds exactly where some graffiti from the present one on is enough. It
then ends with the least of `sufficientFrom`, after an attempt with each up to it, and the
transaction signed with it `Proves` the target. Otherwise it is `exhausted` and ends with
`lastGraffiti`. Nothing but the graffiti is changed.
-/
theorem Unsigned.mine_finds_least (tx : Unsigned) (target : UInt64) :
    ((∃ n, (tx.search target).outcome = .ok n) ↔
      ∃ v, tx.base.graffiti ≤ v ∧ target ≤ (tx.withGraffiti v).difficulty) ∧
    (∀ n, (tx.search target).outcome = .ok n →
      ∃ v, IsLeast (tx.sufficientFrom target tx.base.graffiti) v ∧
        v.toNat + 1 = tx.base.graffiti.toNat + n ∧
        (tx.search target).tx = tx.withGraffiti v ∧
        ∀ key, (Transaction.sign (tx.search target).tx key).Proves target) ∧
    ((¬∃ n, (tx.search target).outcome = .ok n) →
      (tx.search target).outcome = .error .exhausted ∧
        (tx.search target).tx = tx.withGraffiti lastGraffiti) := by
  -- the two ways in which the search ends
  rcases tx.search_cases target with ⟨v, hleast, hsearch⟩ | ⟨hnone, hsearch⟩
  · rw [hsearch]
    have hle := UInt64.le_iff_toNat_le.1 hleast.1.1
    refine ⟨iff_of_true ⟨_, rfl⟩ ⟨v, hleast.1⟩, ?_, fun h => absurd ⟨_, rfl⟩ h⟩
    rintro _ ⟨⟩
    exact ⟨v, hleast, by omega, rfl, Transaction.proves_sign hleast.1.2⟩
  · rw [hsearch]
    refine ⟨iff_of_false nofun fun hsome => ?_, nofun, fun _ => ⟨rfl, rfl⟩⟩
    -- a number that is enough would be in the set of them, which is empty
    exact Set.not_nonempty_iff_eq_empty.2 hnone hsome

/-- A claim that is still to be mined. -/
def Unsigned.unmined : Unsigned where
  base := ⟨⟨4 :: List.replicate 31 0, rfl, by decide +kernel⟩, Hash.zero, 0, 0⟩
  operation := .claim "hamlet"

/-- A zero bit in front of the hash takes `unmined` three attempts. -/
theorem Unsigned.mine_unmined : (unmined.search 1).outcome = .ok 3 ∧
    ∃ v, IsLeast (unmined.sufficientFrom 1 unmined.base.graffiti) v ∧
      v.toNat + 1 = unmined.base.graffiti.toNat + 3 ∧
      (unmined.search 1).tx = unmined.withGraffiti v ∧
      ∀ key, (Transaction.sign (unmined.search 1).tx key).Proves 1 := by
  have hfound : (unmined.search 1).outcome = .ok 3 := by decide +kernel
  exact ⟨hfound, (unmined.mine_finds_least 1).2.1 3 hfound⟩

end LeaseChain
