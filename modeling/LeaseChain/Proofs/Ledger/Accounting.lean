import LeaseChain.Proofs.Ledger.Run
import LeaseChain.Proofs.Store.Total
import Mathlib.Data.UInt

/-!
# The units of a namespace

The units that a lease pays rent for are kept up to date by every write: what a value weighed is
taken off and what its successor weighs is added, in saturating words. They are what they would be
if they were counted anew: one, and those of the values that are stored.

## Key results

- `View.unitsUnder_eq`: the units under a namespace, with one key split off
- `Outcome.units_push`: an operation keeps the count of its own namespace
- `View.units_accounted`: the count is right along every run
-/

namespace LeaseChain

open Ledger

namespace Genesis

/-- The units of values, exactly. -/
def unitsOf (g : Genesis) (values : List (Bytes × StoredValue)) : Nat :=
  (values.map fun entry => (g.valueUnits entry.2.value.length).toNat).sum

/-- The units of the value whose record bytes are; bytes that are none have none. -/
def weigh (g : Genesis) (bytes : Bytes) : Nat :=
  match (readRecord bytes : Except StorageError StoredValue) with
  | .ok stored => (g.valueUnits stored.value.length).toNat
  | .error _ => 0

variable {g : Genesis}

/-- `weigh` of a record is the units of its value. -/
theorem weigh_of_readRecord {bytes : Bytes} {stored : StoredValue}
    (h : readRecord bytes = .ok stored) :
    g.weigh bytes = (g.valueUnits stored.value.length).toNat := by
  rw [weigh, h]

/-- `weigh` of `StoredValue.written` is the units of the value. -/
theorem weigh_written {ctx : ExecutionContext} {value : Bytes} (h : value.length < UInt64.size) :
    g.weigh (Wire.write (StoredValue.written ctx value)) = (g.valueUnits value.length).toNat :=
  weigh_of_readRecord (readRecord_storedValue (v := StoredValue.written ctx value) h)

end Genesis

namespace View

/-- The units of all values under a namespace, exactly. -/
def unitsUnder (g : Genesis) (view : View) (name : String) : Nat :=
  Table.total g.weigh (view.scan (StoreKey.valuesOf name))

variable {g : Genesis} {view : View} {name : String}

/-- `unitsUnder` a namespace are `unitsOf` the values that are listed there. -/
theorem WellKept.unitsOf_values (hw : view.WellKept) {values : List (Bytes × StoredValue)}
    (h : view.values name = .ok values) : g.unitsOf values = view.unitsUnder g name := by
  obtain ⟨listed, hlisted, hforall, -⟩ := hw.exists_values name
  obtain rfl := Except.ok.inj (h.symm.trans hlisted)
  rw [Genesis.unitsOf, unitsUnder, Table.total]
  generalize (view.scan (StoreKey.valuesOf name)).toList = found at hforall
  clear h hlisted
  induction hforall with
  | nil => rfl
  | cons hentry _ ih =>
    simp only [List.map_cons, List.sum_cons, Genesis.weigh_of_readRecord hentry, ih]

/-- `unitsUnder` a namespace are one key's units and those under the others. -/
theorem unitsUnder_eq {key : Bytes} {previous : Option StoredValue}
    (h : view.value? name key = .ok previous) :
    view.unitsUnder g name = (g.unitsOf? previous).toNat +
      Table.total g.weigh
        ((view.scan (StoreKey.valuesOf name)).erase (StoreKey.value name key)) := by
  have hscan : (view.scan (StoreKey.valuesOf name))[StoreKey.value name key]? =
      view.get? (StoreKey.value name key) := by
    rw [getElem?_scan, if_pos (StoreKey.isPrefixOf_value name key)]
  rw [unitsUnder]
  -- a key without a value adds nothing, and one with a value adds its units
  cases hget : view.get? (StoreKey.value name key) with
  | none =>
    simp only [value?, record?, hget] at h
    obtain rfl := Except.ok.inj h
    rw [Table.total_of_getElem?_none (hscan.trans hget)]
    simp [Genesis.unitsOf?]
  | some bytes =>
    simp only [value?, record?, hget, Except.map_eq_ok_iff] at h
    obtain ⟨stored, hstored, rfl⟩ := h
    rw [Table.total_of_getElem? (hscan.trans hget), Genesis.weigh_of_readRecord hstored]
    rfl

end View

/-- `rebalance` leaves a lease with at least one unit. -/
theorem Lease.toNat_units_rebalance (lease : Lease) (units now : UInt64) :
    (lease.rebalance units now).units.toNat = max units.toNat 1 :=
  UInt64.toNat_max units 1

/-- `Outcome` leaves the lease of its namespace with one unit and `unitsUnder` that name. -/
theorem Outcome.units_push {ctx : ExecutionContext} {view : View} {sender : PublicKey}
    {fee : UInt64} {op : Operation} {changes : Changes}
    (h : Outcome ctx view sender fee op changes) {name : String} (hop : op.name? = some name)
    (hcount : ∀ lease, view.lease? name = .ok (some lease) →
      lease.units.toNat = 1 + view.unitsUnder ctx.genesis name)
    (hvacant : view.lease? name = .ok none → view.unitsUnder ctx.genesis name = 0)
    (hbound : (view.push changes).unitsUnder ctx.genesis name < UInt64.size - 1) :
    ∃ lease, (view.push changes).lease? name = .ok (some lease) ∧
      lease.units.toNat = 1 + (view.push changes).unitsUnder ctx.genesis name := by
  have hlease := lease?_push h
  have hscan := scan_push h
  -- one case for each operation; a set and a delete are those that change the values
  cases op with
  | claim own =>
    obtain rfl := Option.some.inj hop
    refine ⟨_, hlease, ?_⟩
    rcases hscan with ⟨habsent, hscan⟩ | hscan
    · have hnothing := hvacant habsent
      rw [View.unitsUnder] at hnothing ⊢
      rw [hscan, hnothing]
      rfl
    · rw [View.unitsUnder, hscan, Table.total_empty]
      rfl
  | set own key value =>
    obtain rfl := Option.some.inj hop
    obtain ⟨lease, previous, howned, hheld, hlease⟩ := hlease
    obtain ⟨hvalue, hscan⟩ := hscan
    refine ⟨_, hlease, ?_⟩
    -- the units of the other keys are what the old and the new count have in common
    have hbefore := hcount lease howned.found
    rw [View.unitsUnder_eq hheld] at hbefore
    rw [View.unitsUnder, hscan, Table.total_insert,
      Genesis.weigh_written (length_lt_of_validateValue hvalue)] at hbound ⊢
    rw [Lease.toNat_units_rebalance, toNat_satAdd, toNat_satSub]
    omega
  | delete own key =>
    obtain rfl := Option.some.inj hop
    obtain ⟨lease, previous, howned, hheld, hlease⟩ := hlease
    refine ⟨_, hlease, ?_⟩
    have hbefore := hcount lease howned.found
    rw [View.unitsUnder_eq hheld] at hbefore
    rw [View.unitsUnder, hscan]
    rw [Lease.toNat_units_rebalance, toNat_satSub]
    simp only [Genesis.unitsOf?] at hbefore
    omega
  | move own newOwner =>
    obtain rfl := Option.some.inj hop
    obtain ⟨lease, howned, hlease⟩ := hlease
    refine ⟨_, hlease, ?_⟩
    rw [View.unitsUnder, hscan]
    exact hcount lease howned.found
  | transfer => cases hop
  | lifeline own units =>
    obtain rfl := Option.some.inj hop
    obtain ⟨lease, hlive, hlease⟩ := hlease
    refine ⟨_, hlease, ?_⟩
    rw [View.unitsUnder, hscan]
    exact hcount lease hlive.found

namespace View

variable {g : Genesis} {view : View}

/-- The units under a namespace stay below the largest word less one along transactions. -/
private def StaysBelow (g : Genesis) (view : View) (attempts : List Attempt) (name : String) :
    Prop :=
  ∀ front, front <+: attempts → (view.attemptAll g front).unitsUnder g name < UInt64.size - 1

/-- `attemptAll` keeps a lease's units at one and those of the values under its name. -/
private theorem WithoutNamespaces.count_attemptAll (hempty : view.WithoutNamespaces)
    (attempts : List Attempt) {name : String} (hbelow : StaysBelow g view attempts name)
    {lease : Lease} (hlease : (view.attemptAll g attempts).lease? name = .ok (some lease)) :
    lease.units.toNat = 1 + (view.attemptAll g attempts).unitsUnder g name := by
  have hkept {front : List Attempt} {a : Attempt} (h : StaysBelow g view (front ++ [a]) name) :
      StaysBelow g view front name :=
    fun f hf => h f (hf.trans (List.prefix_append front [a]))
  -- the bound holds at each front of the run, and the count is an invariant under it
  refine attemptAll_invariant (P := fun front view' =>
    StaysBelow g view front name → ∀ lease, view'.lease? name = .ok (some lease) →
      lease.units.toNat = 1 + view'.unitsUnder g name) (fun _ lease hlease => ?_)
    (fun {front a changes} ih hexecute hrun hbelow lease hlease => ?_)
    (fun ih hbelow => ih (hkept hbelow)) attempts hbelow lease hlease
  · rw [lease?, record?, hempty name _ (StoreKey.belongsTo_lease name)] at hlease
    cases hlease
  · -- a name with a lease has no slash, so that its keys are no other name's
    have hw := hempty.attemptAll (g := g) front
    have hsegment : StoreKey.IsSegment name := by
      rcases (hw.push hexecute).lease?_cases name with ⟨hnone, -⟩ | ⟨_, -, hsegment⟩
      · rw [hnone] at hlease
        cases hlease
      · exact hsegment
    have houtcome := (Unsigned.execute_eq_ok_iff.1 hexecute).2
    have hcount := ih (hkept hbelow)
    by_cases hop : a.tx.operation.name? = some name
    · have hvacant (hnone : (view.attemptAll g front).lease? name = .ok none) :
          (view.attemptAll g front).unitsUnder g name = 0 := by
        rw [unitsUnder, hw.scan_eq_empty hsegment hnone, Table.total_empty]
      have hbound := hbelow (front ++ [a]) List.prefix_rfl
      rw [hrun] at hbound
      obtain ⟨found, hfound, hunits⟩ := houtcome.units_push hop hcount hvacant hbound
      obtain rfl := Option.some.inj (Except.ok.inj (hlease.symm.trans hfound))
      exact hunits
    · -- the transaction is about another namespace
      have hagree := Unsigned.agreeOn_of_execute hexecute hsegment hop
      have hscan : (View.push _ changes).scan (StoreKey.valuesOf name) =
          (view.attemptAll g front).scan (StoreKey.valuesOf name) := hagree.scan_eq fun key => .inr
      have hsame := record?_congr (α := Lease) (hagree _ (StoreKey.belongsTo_lease name))
      rw [unitsUnder, hscan]
      exact hcount lease (hsame.symm.trans hlease)

end View

/--
After any `attempts` from a ledger `WithoutNamespaces`, of which those that fail change nothing, the
lease and the values of every name can be read. Each record's `size` is the length of its value. A
lease has one unit and `unitsOf` exactly the values that are stored, as long as these stayed below
the largest word less one. A name that `IsSegment` and has no lease has no values.
-/
theorem View.units_accounted {g : Genesis} {view : View} (hempty : view.WithoutNamespaces)
    (attempts : List Attempt) (name : String) :
    ∃ lease? values, (view.attemptAll g attempts).lease? name = .ok lease? ∧
      (view.attemptAll g attempts).values name = .ok values ∧
      (∀ entry ∈ values, entry.2.size.toNat = entry.2.value.length) ∧
      (lease? = none → StoreKey.IsSegment name → values = []) ∧
      ∀ lease, lease? = some lease →
        (∀ front, front <+: attempts → ∀ held, (view.attemptAll g front).values name = .ok held →
          g.unitsOf held < UInt64.size - 1) →
        lease.units.toNat = 1 + g.unitsOf values := by
  have hw := hempty.attemptAll (g := g) attempts
  obtain ⟨lease?, hlease⟩ : ∃ lease?, (view.attemptAll g attempts).lease? name = .ok lease? := by
    rcases hw.lease?_cases name with ⟨hnone, -⟩ | ⟨lease, hlease, -⟩
    · exact ⟨_, hnone⟩
    · exact ⟨_, hlease⟩
  obtain ⟨values, hvalues, hforall, hsizes⟩ := hw.exists_values name
  refine ⟨lease?, values, hlease, hvalues, hsizes, fun hnone hsegment => ?_,
    fun lease hsome hbelow => ?_⟩
  · -- with no lease at all there is nothing under the name's prefix
    rw [hw.scan_eq_empty hsegment (hnone ▸ hlease), Std.ExtTreeMap.toList_eq_nil_iff.2 rfl,
      List.forall₂_nil_left_iff] at hforall
    exact hforall
  · -- below the bound nothing saturates, so the count is exact at every front
    rw [hw.unitsOf_values hvalues]
    refine hempty.count_attemptAll attempts (fun front hfront => ?_) (hsome ▸ hlease)
    have hw' := hempty.attemptAll (g := g) front
    obtain ⟨held, hheld, -⟩ := hw'.exists_values name
    rw [← hw'.unitsOf_values hheld]
    exact hbelow front hfront held hheld

/-! ## A namespace that is written to

The owner of a namespace writes two values and then a shorter one in place of the first. A guest may
not.
-/

namespace Neighbours

/-- Values of less than two bytes have one unit. -/
def plots : Genesis := { valueUnitSize := 2, claimFeeUnits := 0 }

/-- Both keys have something to spend. -/
def meadow : View := (View.durable ∅).push ((Changes.putBalance ∅ owner 100).putBalance guest 100)

/-- A transaction of a sender at fifty seconds. -/
def works (sender : PublicKey) (op : Operation) : Attempt :=
  ⟨⟨⟨sender, Hash.replicate 1, 1, 0⟩, op⟩, 50, Hash.replicate 3⟩

/-- A claim, two values, a guest's attempt and a shorter value in place of the first. -/
def year : List Attempt := [works owner (.claim "foo"), works owner (.set "foo" [1] [7, 7, 7]),
  works owner (.set "foo" [2] [7]), works guest (.set "foo" [3] [7]),
  works owner (.set "foo" [1] [8])]

theorem withoutNamespaces_meadow : meadow.WithoutNamespaces := by
  intro name key hkey
  have hbalance (holder : PublicKey) : StoreKey.balance holder ≠ key := by
    rintro rfl
    exact StoreKey.not_belongsTo_balance name holder hkey
  simp [meadow, View.get?_push, Changes.getElem?_putBalance, hbalance]

/-- `units` of the lease is one, and one more for each of the two values that are left. -/
theorem accounted_year : meadow.WithoutNamespaces ∧ ∃ lease values,
    (meadow.attemptAll plots year).lease? "foo" = .ok (some lease) ∧
    (meadow.attemptAll plots year).values "foo" = .ok values ∧
    plots.unitsOf values = 2 ∧ lease.units.toNat = 1 + plots.unitsOf values := by
  obtain ⟨lease?, values, hlease, hvalues, -, -, hcount⟩ :=
    View.units_accounted (g := plots) withoutNamespaces_meadow year "foo"
  -- the run is evaluated for three plain facts; the count itself comes from the general theorem
  have hclaimed : ((meadow.attemptAll plots year).lease? "foo").toOption.join.isSome = true := by
    decide +kernel
  have htwo :
      ((meadow.attemptAll plots year).values "foo").toOption.map plots.unitsOf = some 2 := by
    decide +kernel
  have hbelow : ∀ front ∈ year.inits, ((meadow.attemptAll plots front).values "foo").toOption.all
      (fun held => plots.unitsOf held < UInt64.size - 1) = true := by
    decide +kernel
  rw [hlease] at hclaimed
  rw [hvalues] at htwo
  obtain ⟨lease, rfl⟩ := Option.isSome_iff_exists.1 hclaimed
  refine ⟨withoutNamespaces_meadow, lease, values, hlease, hvalues, Option.some.inj htwo,
    hcount lease rfl fun front hfront held hheld => ?_⟩
  have hheld' := hbelow front ((List.mem_inits front year).2 hfront)
  rw [hheld] at hheld'
  exact of_decide_eq_true hheld'

end Neighbours

end LeaseChain
