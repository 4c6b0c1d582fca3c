import LeaseChain.Proofs.Ledger.Accounting
import Mathlib.Algebra.Order.Ring.Int
import Mathlib.Tactic.Ring

/-!
# The rent of a namespace

A lease has so many seconds left, each of which costs one for every unit that the namespace holds.
Claims and lifelines pay for them; a write spreads what was paid over the units there are from then
on. It counts from the last update of the lease and not from the time of the write. So the rent
beyond the last update is never more than was paid for it, whereas the rent beyond the time of a
write grows back by what was used up since the last update.

## Key results

- `Lease.rentFrom_rebalance`, `Lease.paid_eq`: the rent after a write, and what it was paid with
- `Lease.CoveredBy`: a lease whose rent is within a budget
- `Unsigned.write_spreads_paid`: when a write leaves no more rent than there was
- `Outcome.coveredBy_push`, `View.rent_paid_for`: operations and runs keep leases paid for
-/

namespace LeaseChain

open Ledger

namespace Lease

/-- The seconds of a lease from a time on, each times the units. -/
def rentFrom (lease : Lease) (time : UInt64) : Int :=
  ((lease.expiry.toNat : Int) - time.toNat) * lease.units.toNat

/-- The rent beyond the last update, which a write spreads over the new units. -/
def paid (lease : Lease) : Nat :=
  (lease.expiry.toNat - lease.lastUpdated.toNat) * max lease.units.toNat 1

variable (lease : Lease) (units now : UInt64)

/--
`rebalance` spreads `lease.paid` over the new units, in whole seconds and up to the end of times.
-/
theorem toNat_expiry_rebalance :
    (lease.rebalance units now).expiry.toNat =
      min (now.toNat + lease.paid / (lease.rebalance units now).units.toNat)
        (UInt64.size - 1) := by
  rw [toNat_units_rebalance]
  show (satAdd now (clamp (lease.paid / max units.toNat 1))).toNat = _
  rw [toNat_satAdd, toNat_clamp]
  omega

/-- `rebalance` never ends a lease before its own time. -/
theorem le_expiry_rebalance : now ≤ (lease.rebalance units now).expiry := le_satAdd_left _ _

/-- A write leaves at least one unit, as `rebalance` counts zero units as one. -/
theorem one_le_units_rebalance : 1 ≤ (lease.rebalance units now).units := by
  rw [UInt64.le_iff_toNat_le, toNat_units_rebalance]
  exact Nat.le_max_right _ _

/-- `rebalance` leaves no more rent than `lease.paid`. -/
theorem rentFrom_rebalance_le : (lease.rebalance units now).rentFrom now ≤ lease.paid := by
  have hexpiry := lease.toNat_expiry_rebalance units now
  generalize lease.rebalance units now = after at hexpiry
  have hseconds :
      (after.expiry.toNat : Int) - now.toNat ≤ (lease.paid / after.units.toNat : Nat) := by
    omega
  -- the seconds that are left, times the units, are a quotient times its divisor
  calc after.rentFrom now
    _ ≤ (lease.paid / after.units.toNat : Nat) * (after.units.toNat : Int) :=
        Int.mul_le_mul_of_nonneg_right hseconds (Int.natCast_nonneg _)
    _ ≤ lease.paid := by exact_mod_cast Nat.div_mul_le_self lease.paid after.units.toNat

/-- Where the new end is in range, `rebalance` loses only what does not make up a whole second. -/
theorem rentFrom_rebalance
    (h : now.toNat + lease.paid / (lease.rebalance units now).units.toNat < UInt64.size) :
    (lease.rebalance units now).rentFrom now =
      lease.paid - (lease.paid % (lease.rebalance units now).units.toNat : Nat) := by
  have hexpiry := lease.toNat_expiry_rebalance units now
  generalize lease.rebalance units now = after at h hexpiry ⊢
  have hseconds :
      (after.expiry.toNat : Int) - now.toNat = (lease.paid / after.units.toNat : Nat) := by
    omega
  -- the remainder of that division is what the write loses
  have hdivided : lease.paid / after.units.toNat * after.units.toNat +
      lease.paid % after.units.toNat = lease.paid := by
    rw [Nat.mul_comm]
    exact Nat.div_add_mod _ _
  rw [rentFrom, hseconds, ← Int.natCast_mul]
  omega

variable {lease}

/-- `lease.paid` is the rent from a time on, and what was used up before. -/
theorem paid_eq {time : UInt64} (hunits : 1 ≤ lease.units) (hfrom : lease.lastUpdated ≤ time)
    (hto : time ≤ lease.expiry) : (lease.paid : Int) = lease.rentFrom time +
      ((time.toNat : Int) - lease.lastUpdated.toNat) * lease.units.toNat := by
  rw [UInt64.le_iff_toNat_le] at hunits hfrom hto
  have hmax : max lease.units.toNat 1 = lease.units.toNat := Nat.max_eq_left hunits
  -- a lease that is live ends no earlier than its last update, so no difference is cut off
  rw [paid, hmax, rentFrom, Int.natCast_mul, Int.ofNat_sub (hfrom.trans hto)]
  ring

/-! ## Leases that are paid for -/

/-- The lease began before it ends, and the rent beyond its last update is within a budget. -/
structure CoveredBy (lease : Lease) (budget : Nat) : Prop where
  begun : lease.lastUpdated ≤ lease.expiry
  units : 1 ≤ lease.units
  rent : lease.rentFrom lease.lastUpdated ≤ budget

/-- A lease that is `claimed` is `CoveredBy` one unit's reward. -/
theorem coveredBy_claimed (ctx : ExecutionContext) (owner : PublicKey) :
    (claimed ctx owner).CoveredBy ctx.genesis.claimReward.toNat where
  begun := le_satAdd_left _ _
  units := UInt64.le_refl 1
  rent := by
    have hone : (claimed ctx owner).units.toNat = 1 := rfl
    have hexpiry := toNat_satAdd ctx.time ctx.genesis.claimReward
    show ((satAdd ctx.time ctx.genesis.claimReward).toNat - ctx.time.toNat : Int) * _ ≤ _
    rw [hone]
    omega

namespace CoveredBy

variable {budget : Nat} (h : lease.CoveredBy budget)

include h

/--
The rent of a lease that is `CoveredBy` a budget, which is what a write spreads, is within it.
-/
theorem paid_le : lease.paid ≤ budget := by
  have hpaid := paid_eq h.units (UInt64.le_refl _) h.begun
  have hrent := h.rent
  omega

/-- `rebalance` keeps a lease `CoveredBy` the same budget. -/
theorem rebalance (units now : UInt64) : (lease.rebalance units now).CoveredBy budget where
  begun := lease.le_expiry_rebalance units now
  units := lease.one_le_units_rebalance units now
  rent := (lease.rentFrom_rebalance_le units now).trans (by exact_mod_cast h.paid_le)

/-- To hand a namespace over changes no part of its lease that counts as rent. -/
theorem withOwner (owner : PublicKey) : CoveredBy { lease with owner := owner } budget :=
  ⟨h.begun, h.units, h.rent⟩

/-- `extend` adds no more seconds to a lease than the funded units are worth. -/
theorem extend (g : Genesis) (units : UInt64) : (lease.extend g units).CoveredBy
    (budget + units.toNat * g.lifelineUnitReward.toNat) where
  begun := UInt64.le_trans h.begun (le_satAdd_left _ _)
  units := h.units
  rent := by
    have hunits := UInt64.le_iff_toNat_le.1 h.units
    have hone : (1 : UInt64).toNat = 1 := rfl
    have hmax : (max lease.units 1).toNat = lease.units.toNat :=
      (UInt64.toNat_max _ _).trans (Nat.max_eq_left hunits)
    -- the seconds that are bought, and what they cost
    generalize hbought : (satMul units g.lifelineUnitReward / max lease.units 1).toNat = bought
    have hcost : bought * lease.units.toNat ≤ units.toNat * g.lifelineUnitReward.toNat := by
      rw [← hbought, UInt64.toNat_div, hmax]
      refine (Nat.div_mul_le_self _ _).trans ?_
      rw [toNat_satMul]
      exact Nat.min_le_left _ _
    have hexpiry : ((lease.extend g units).expiry.toNat : Int) ≤ lease.expiry.toNat + bought := by
      have := toNat_satAdd lease.expiry (satMul units g.lifelineUnitReward / max lease.units 1)
      show ((satAdd lease.expiry _).toNat : Int) ≤ _
      omega
    have hseconds := Int.sub_le_sub_right hexpiry (lease.lastUpdated.toNat : Int)
    -- the old rent, and what was bought, of which the division drops a part at most
    calc (lease.extend g units).rentFrom lease.lastUpdated
      _ ≤ (lease.expiry.toNat + bought - lease.lastUpdated.toNat : Int) * lease.units.toNat :=
          Int.mul_le_mul_of_nonneg_right hseconds (Int.natCast_nonneg _)
      _ = lease.rentFrom lease.lastUpdated + (bought * lease.units.toNat : Nat) := by
          rw [rentFrom, Int.natCast_mul]
          ring
      _ ≤ (budget + units.toNat * g.lifelineUnitReward.toNat : Nat) := by
          rw [Int.natCast_add]
          exact Int.add_le_add h.rent (by exact_mod_cast hcost)

end CoveredBy

end Lease

/-! ## Writes -/

/-- The operation sets or deletes a value under a namespace. -/
def Operation.WritesTo (op : Operation) (name : String) : Prop :=
  (∃ key value, op = .set name key value) ∨ ∃ key, op = .delete name key

/-- An operation that `WritesTo` a name finds a lease that has not run out and rebalances it. -/
theorem Outcome.rebalance_of_writesTo {ctx : ExecutionContext} {view : View} {sender : PublicKey}
    {fee : UInt64} {op : Operation} {changes : Changes}
    (h : Outcome ctx view sender fee op changes) {name : String} (hwrites : op.WritesTo name) :
    ∃ lease units, Owned view name sender ctx.time lease ∧
      (view.push changes).lease? name = .ok (some (lease.rebalance units ctx.time)) := by
  have hlease := lease?_push h
  -- a set and a delete do the same to the lease, with other units
  rcases hwrites with ⟨key, value, rfl⟩ | ⟨key, rfl⟩
  · obtain ⟨lease, previous, howned, -, hafter⟩ := hlease
    exact ⟨lease, _, howned, hafter⟩
  · obtain ⟨lease, previous, howned, -, hafter⟩ := hlease
    exact ⟨lease, _, howned, hafter⟩

/--
Let the transaction write to a namespace whose lease is `lease`, not before `lease.lastUpdated`. The
write finds the lease live, so that `ctx.time ≤ lease.expiry`, and leaves a lease `after` with
`after.lastUpdated = ctx.time` and a unit or more. It spreads `lease.paid` over `after.units`:
`after.expiry` is `ctx.time` and the quotient, in whole seconds and up to the end of times. So
`after.rentFrom ctx.time` is no more than `lease.paid`, which for a lease with a unit is
`lease.rentFrom ctx.time` together with what was used up since `lease.lastUpdated`. Where the new
end is in range, `after.rentFrom ctx.time` is no more than `lease.rentFrom ctx.time` exactly if what
was used up is lost with the remainder, `lease.paid % after.units`. Where `after.units` are
`lease.units`, the lease has its whole length once more, from `ctx.time` on.
-/
theorem Unsigned.write_spreads_paid {tx : Unsigned} {ctx : ExecutionContext} {view : View}
    {changes : Changes} (hexecute : tx.execute ctx view = .ok changes) {name : String}
    (hwrites : tx.operation.WritesTo name) {lease : Lease}
    (hlease : view.lease? name = .ok (some lease)) (hfrom : lease.lastUpdated ≤ ctx.time) :
    ctx.time ≤ lease.expiry ∧ ∃ after, (view.push changes).lease? name = .ok (some after) ∧
      after.lastUpdated = ctx.time ∧ 1 ≤ after.units ∧
      after.expiry.toNat =
        min (ctx.time.toNat + lease.paid / after.units.toNat) (UInt64.size - 1) ∧
      after.rentFrom ctx.time ≤ lease.paid ∧
      (1 ≤ lease.units → (lease.paid : Int) = lease.rentFrom ctx.time +
        ((ctx.time.toNat : Int) - lease.lastUpdated.toNat) * lease.units.toNat) ∧
      (1 ≤ lease.units → ctx.time.toNat + lease.paid / after.units.toNat < UInt64.size →
        (after.rentFrom ctx.time ≤ lease.rentFrom ctx.time ↔
          ((ctx.time.toNat : Int) - lease.lastUpdated.toNat) * lease.units.toNat ≤
            (lease.paid % after.units.toNat : Nat))) ∧
      (after.units = lease.units → after.expiry.toNat =
        min (ctx.time.toNat + (lease.expiry.toNat - lease.lastUpdated.toNat))
          (UInt64.size - 1)) := by
  -- what a write does to a lease, for the lease that was found
  obtain ⟨found, units, howned, hafter⟩ :=
    (Unsigned.execute_eq_ok_iff.1 hexecute).2.rebalance_of_writesTo hwrites
  obtain rfl := Option.some.inj (Except.ok.inj (hlease.symm.trans howned.found))
  have hto : ctx.time ≤ lease.expiry := UInt64.not_lt.1 (of_decide_eq_false howned.unexpired)
  refine ⟨hto, _, hafter, rfl, lease.one_le_units_rebalance units ctx.time,
    lease.toNat_expiry_rebalance units ctx.time, lease.rentFrom_rebalance_le units ctx.time,
    fun hunits => Lease.paid_eq hunits hfrom hto, fun hunits hrange => ?_, fun hsame => ?_⟩
  · have hpaid := Lease.paid_eq hunits hfrom hto
    have hspread := lease.rentFrom_rebalance units ctx.time hrange
    omega
  · -- with the same units the quotient is exact
    have hone : 1 ≤ lease.units.toNat := by
      rw [← hsame, Lease.toNat_units_rebalance]
      exact Nat.le_max_right _ _
    rw [lease.toNat_expiry_rebalance, hsame, Lease.paid, Nat.max_eq_left hone,
      Nat.mul_div_cancel _ hone]

/-! ## Runs -/

/-- The rent that a claim and funded units pay for. -/
def Genesis.rentBudget (g : Genesis) (funded : Nat) : Nat :=
  g.claimReward.toNat + funded * g.lifelineUnitReward.toNat

/-- The units that were funded for a namespace since its last claim, after one more operation. -/
def Operation.fund (name : String) (funded : Nat) : Operation → Nat
  | .claim own => if own = name then 0 else funded
  | .lifeline own units => if own = name then funded + units.toNat else funded
  | .set .. | .delete .. | .move .. | .transfer .. => funded

/-- The units that were funded for a namespace since its last claim. -/
def fundedUnits (name : String) (ops : List Operation) : Nat :=
  ops.foldl (Operation.fund name) 0

/-- `fundedUnits` counts the newest operation last. -/
theorem fundedUnits_concat (name : String) (ops : List Operation) (op : Operation) :
    fundedUnits name (ops ++ [op]) = op.fund name (fundedUnits name ops) := by
  simp only [fundedUnits, List.foldl_append, List.foldl_cons, List.foldl_nil]

/-- An operation on another namespace, or on none, leaves `funded` as it is. -/
theorem Operation.fund_of_ne {op : Operation} {name : String} (h : op.name? ≠ some name)
    (funded : Nat) : op.fund name funded = funded := by
  cases op with
  | claim own | lifeline own => exact if_neg fun hown => h (congrArg some hown)
  | set | delete | move | transfer => rfl

/-- An operation on a namespace leaves a lease that is `CoveredBy` what was funded. -/
theorem Outcome.coveredBy_push {ctx : ExecutionContext} {view : View} {sender : PublicKey}
    {fee : UInt64} {op : Operation} {changes : Changes}
    (h : Outcome ctx view sender fee op changes) {name : String} (hop : op.name? = some name)
    {funded : Nat} (hcovered : ∀ lease, view.lease? name = .ok (some lease) →
      lease.CoveredBy (ctx.genesis.rentBudget funded)) :
    ∃ lease, (view.push changes).lease? name = .ok (some lease) ∧
      lease.CoveredBy (ctx.genesis.rentBudget (op.fund name funded)) := by
  have hlease := lease?_push h
  -- one case for each operation; a claim starts the budget again and a lifeline adds to it
  cases op with
  | claim own =>
    obtain rfl := Option.some.inj hop
    refine ⟨_, hlease, ?_⟩
    rw [Operation.fund, if_pos rfl, Genesis.rentBudget, Nat.zero_mul]
    exact Lease.coveredBy_claimed ctx sender
  | set own key value =>
    obtain rfl := Option.some.inj hop
    obtain ⟨lease, previous, howned, -, hlease⟩ := hlease
    exact ⟨_, hlease, (hcovered lease howned.found).rebalance _ _⟩
  | delete own key =>
    obtain rfl := Option.some.inj hop
    obtain ⟨lease, previous, howned, -, hlease⟩ := hlease
    exact ⟨_, hlease, (hcovered lease howned.found).rebalance _ _⟩
  | move own newOwner =>
    obtain rfl := Option.some.inj hop
    obtain ⟨lease, howned, hlease⟩ := hlease
    exact ⟨_, hlease, (hcovered lease howned.found).withOwner newOwner⟩
  | transfer => cases hop
  | lifeline own units =>
    obtain rfl := Option.some.inj hop
    obtain ⟨lease, hlive, hlease⟩ := hlease
    refine ⟨_, hlease, ?_⟩
    rw [Operation.fund, if_pos rfl, Genesis.rentBudget, Nat.add_mul, ← Nat.add_assoc]
    exact (hcovered lease hlive.found).extend ctx.genesis units

namespace View

variable {g : Genesis} {view : View}

/-- The operations that were executed when transactions were tried, oldest first. -/
def executed (g : Genesis) (view : View) : List Attempt → List Operation
  | [] => []
  | a :: attempts =>
    match a.tx.execute ⟨g, a.time, a.txId⟩ view with
    | .ok _ => a.tx.operation :: executed g (view.attempt g a) attempts
    | .error _ => executed g (view.attempt g a) attempts

/--
`executed` gains the operation of the last attempt, if that is executed on what the others left.
-/
theorem executed_concat (attempts : List Attempt) (a : Attempt) :
    view.executed g (attempts ++ [a]) = view.executed g attempts ++
      match a.tx.execute ⟨g, a.time, a.txId⟩ (view.attemptAll g attempts) with
      | .ok _ => [a.tx.operation]
      | .error _ => [] := by
  -- induction on the attempts from the first one on, as `executed` recurses
  induction attempts generalizing view with
  | nil =>
    simp only [executed, attemptAll, List.foldl_nil, List.nil_append]
  | cons b attempts ih =>
    have hrun : view.attemptAll g (b :: attempts) = (view.attempt g b).attemptAll g attempts := rfl
    rw [List.cons_append, executed, executed, hrun, ih]
    split <;> rfl

/-- Along every run a lease is `CoveredBy` its claim and the `fundedUnits` since. -/
theorem WithoutNamespaces.coveredBy_attemptAll (hempty : view.WithoutNamespaces)
    (attempts : List Attempt) {name : String} {lease : Lease}
    (hlease : (view.attemptAll g attempts).lease? name = .ok (some lease)) :
    lease.CoveredBy (g.rentBudget (fundedUnits name (view.executed g attempts))) := by
  -- induction on the attempts from the last one back; the ledger before it is the one of `ih`
  induction attempts using List.reverseRecOn generalizing lease with
  | nil =>
    -- before any attempt there is no lease at all
    have hlease : view.lease? name = .ok (some lease) := hlease
    rw [lease?, record?, hempty name _ (StoreKey.belongsTo_lease name)] at hlease
    cases hlease
  | append_singleton front a ih =>
    rw [attemptAll_concat, attempt] at hlease
    rw [executed_concat]
    cases hexecute : a.tx.execute ⟨g, a.time, a.txId⟩ (view.attemptAll g front) with
    | error cause =>
      rw [hexecute] at hlease
      -- an attempt that fails adds nothing and changes nothing
      rw [List.append_nil]
      exact ih hlease
    | ok changes =>
      rw [hexecute] at hlease
      rw [fundedUnits_concat]
      by_cases hop : a.tx.operation.name? = some name
      · obtain ⟨found, hfound, hcovered⟩ := (Unsigned.execute_eq_ok_iff.1 hexecute).2.coveredBy_push
          hop fun _ => ih
        obtain rfl := Option.some.inj (Except.ok.inj (hlease.symm.trans hfound))
        exact hcovered
      · -- the transaction is about another namespace
        have hsegment : StoreKey.IsSegment name := by
          have hw := (hempty.attemptAll (g := g) front).push hexecute
          rcases hw.lease?_cases name with ⟨hnone, -⟩ | ⟨_, -, hsegment⟩
          · cases hnone.symm.trans hlease
          · exact hsegment
        have hagree := Unsigned.agreeOn_of_execute hexecute hsegment hop
        have hsame := record?_congr (α := Lease) (hagree _ (StoreKey.belongsTo_lease name))
        rw [Operation.fund_of_ne hop]
        exact ih (hsame.symm.trans hlease)

end View

/--
After any `attempts` from a ledger `WithoutNamespaces`, of which those that fail change nothing, the
lease of every name can be read. It ends no earlier than `lastUpdated`, has a unit, and its
`rentFrom` there is no more than the `claimReward` and the `lifelineUnitReward` of each of the
`fundedUnits` that were executed.
-/
theorem View.rent_paid_for {g : Genesis} {view : View} (hempty : view.WithoutNamespaces)
    (attempts : List Attempt) (name : String) :
    ∃ lease?, (view.attemptAll g attempts).lease? name = .ok lease? ∧
      ∀ lease, lease? = some lease → lease.lastUpdated ≤ lease.expiry ∧ 1 ≤ lease.units ∧
        lease.rentFrom lease.lastUpdated ≤ (g.claimReward.toNat +
          fundedUnits name (view.executed g attempts) * g.lifelineUnitReward.toNat : Nat) := by
  rcases (hempty.attemptAll (g := g) attempts).lease?_cases name with
    ⟨hnone, -⟩ | ⟨lease, hlease, -⟩
  · -- a name has no lease, or one that is covered
    exact ⟨none, hnone, nofun⟩
  · have hcovered := hempty.coveredBy_attemptAll attempts hlease
    refine ⟨some lease, hlease, fun _ hsome => ?_⟩
    obtain rfl := Option.some.inj hsome
    exact ⟨hcovered.begun, hcovered.units, hcovered.rent⟩

/-! ## A value that is rewritten

The owner of a namespace sets a value, and fifty seconds later another one of the same length. In
between a guest funds the namespace.
-/

namespace Neighbours

/-- A claim of the namespace, and a value under it. -/
def furnished : List Attempt := [works owner (.claim "foo"), works owner (.set "foo" [1] [7])]

/-- The ledger in which the value is set. -/
def cottage : View := meadow.attemptAll plots furnished

/-- The same key is set again, fifty seconds later. -/
def redecorate : Attempt := { works owner (.set "foo" [1] [8]) with time := 100 }

/-- The value doubles the rent, so that the lease is half as long as the claim made it. -/
def halved : Lease := ⟨owner, 50, 50, 50 + 15 * 24 * 60 * 60, 2⟩

/-- The fifty seconds that `halved` had used up are there again after `redecorate`. -/
theorem refilled_redecorate :
    redecorate.tx.operation.WritesTo "foo" ∧ cottage.lease? "foo" = .ok (some halved) ∧
    halved.lastUpdated ≤ redecorate.time ∧ redecorate.time ≤ halved.expiry ∧
    ∃ changes after,
      redecorate.tx.execute ⟨plots, redecorate.time, redecorate.txId⟩ cottage = .ok changes ∧
      (cottage.push changes).lease? "foo" = .ok (some after) ∧
      halved.rentFrom redecorate.time < after.rentFrom redecorate.time := by
  have hwrites : redecorate.tx.operation.WritesTo "foo" := .inl ⟨_, _, rfl⟩
  have hlease : cottage.lease? "foo" = .ok (some halved) := by decide +kernel
  have hrun : (cottage.attempt plots redecorate).lease? "foo" =
      .ok (some { halved with lastUpdated := 100, expiry := 100 + 15 * 24 * 60 * 60 }) := by
    decide +kernel
  -- the lease after the write is known, so the write cannot have failed
  rw [View.attempt] at hrun
  cases hexecute : redecorate.tx.execute ⟨plots, redecorate.time, redecorate.txId⟩ cottage with
  | error cause =>
    rw [hexecute, hlease] at hrun
    exact absurd hrun (by decide)
  | ok changes =>
    rw [hexecute] at hrun
    obtain ⟨hto, after, hafter, -, -, -, -, -, hrefilled, -⟩ :=
      Unsigned.write_spreads_paid hexecute hwrites hlease (by decide)
    obtain rfl := Option.some.inj (Except.ok.inj (hrun.symm.trans hafter))
    refine ⟨hwrites, hlease, by decide, hto, changes, _, rfl, hafter, Int.not_le.1 fun hle => ?_⟩
    exact absurd ((hrefilled (by decide) (by decide)).1 hle) (by decide)

/-- The guest's units add to what the claim paid for. -/
def funded : List Attempt := furnished ++ [works guest (.lifeline "foo" 3), redecorate]

/--
Three units were funded after the claim, and the lease is worth no more than thirty-three days.
-/
theorem rent_funded : meadow.WithoutNamespaces ∧
    ∃ lease, (meadow.attemptAll plots funded).lease? "foo" = .ok (some lease) ∧
      fundedUnits "foo" (meadow.executed plots funded) = 3 ∧
      lease.rentFrom lease.lastUpdated ≤ (30 + 3) * 24 * 60 * 60 := by
  obtain ⟨lease?, hlease, hpaid⟩ :=
    View.rent_paid_for (g := plots) withoutNamespaces_meadow funded "foo"
  have hsome : (((meadow.attemptAll plots funded).lease? "foo").toOption.join).isSome = true := by
    decide +kernel
  have hthree : fundedUnits "foo" (meadow.executed plots funded) = 3 := by decide +kernel
  rw [hlease] at hsome
  obtain ⟨lease, rfl⟩ := Option.isSome_iff_exists.1 hsome
  obtain ⟨-, -, hrent⟩ := hpaid lease rfl
  rw [hthree] at hrent
  exact ⟨withoutNamespaces_meadow, lease, hlease, hthree, hrent⟩

end Neighbours

end LeaseChain
