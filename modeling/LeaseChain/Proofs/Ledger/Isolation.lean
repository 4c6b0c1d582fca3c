import LeaseChain.Proofs.Ledger.Footprint

/-!
# Isolation

Executing a transaction reaches no further than it may. All namespaces lie in one table, and
claiming one deletes what starts like its values; what keeps them apart is that a name holds no
slash, also where one name starts like another.

## Key results

- `Unsigned.agreeOn_of_execute`: a namespace that a transaction does not name stays as it is
- `Outcome.eq_lifeline`: what others may do to a namespace while its lease is live
- `Unsigned.execute_isolated`: what a transaction can change at all
-/

namespace LeaseChain

open Ledger

variable {ctx : ExecutionContext} {view : View} {changes : Changes}

namespace Outcome

variable {sender : PublicKey} {fee : UInt64} {op : Operation}
  (h : Outcome ctx view sender fee op changes)

include h

/-- `lifeline` is all that a sender can do to a `Live` namespace of somebody else. -/
theorem eq_lifeline {name : String} {lease : Lease} (hop : op.name? = some name)
    (hlive : Live view name ctx.time lease) (howner : lease.owner ≠ sender) :
    ∃ units rest, op = .lifeline name units ∧ changes =
      (Changes.putBalance ∅ sender rest).putLease name (lease.extend ctx.genesis units) := by
  -- the lease that an operation finds is the live one, whose owner is not the sender
  have hsame {found : Lease} (hfound : view.lease? name = .ok (some found)) : found = lease := by
    rw [hlive.found] at hfound
    exact (Option.some.inj (Except.ok.inj hfound)).symm
  have hforeign {found : Lease} (howned : Owned view name sender ctx.time found) : False :=
    howner (hsame howned.found ▸ howned.owner)
  cases h with
  | claimAbsent _ habsent _ =>
    obtain rfl := Option.some.inj hop
    rw [hlive.found] at habsent
    cases habsent
  | claimExpired _ hfound hexpired _ =>
    obtain rfl := Option.some.inj hop
    obtain rfl := hsame hfound
    rw [hlive.unexpired] at hexpired
    cases hexpired
  | set _ _ howned _ _ | delete _ howned _ _ | move _ howned _ =>
    obtain rfl := Option.some.inj hop
    exact (hforeign howned).elim
  | transfer => cases hop
  | lifeline _ hfound _ =>
    obtain rfl := Option.some.inj hop
    obtain rfl := hsame hfound.found
    exact ⟨_, _, rfl, rfl⟩

/--
`balance` of a holder stays, or falls where the holder sends, or grows where a transfer names it.
-/
theorem balance_moves (holder : PublicKey) :
    (view.push changes).balance holder = view.balance holder ∨
    ∃ old new, view.balance holder = .ok old ∧ (view.push changes).balance holder = .ok new ∧
      (holder = sender ∧ new ≤ old ∨ (∃ units, op = .transfer holder units) ∧ old ≤ new) := by
  -- whoever pays is left with no more than before
  have hfalls {amount rest : UInt64} (hpays : Pays view sender amount rest) :
      ∃ old, view.balance sender = .ok old ∧ rest ≤ old := by
    obtain ⟨old, hold, hrest⟩ := hpays
    exact ⟨old, hold, UInt64.le_iff_toNat_le.2 (by omega)⟩
  rcases h.balance_cases with ⟨-, rest, hpays, hafter⟩ |
    ⟨recipient, units, rest, held, hop, -, hpays, hheld, hafter⟩
  · by_cases hsender : holder = sender
    · obtain ⟨old, hold, hle⟩ := hfalls hpays
      subst hsender
      exact .inr ⟨old, rest, hold, by rw [hafter, if_pos rfl], .inl ⟨rfl, hle⟩⟩
    · exact .inl (by rw [hafter, if_neg hsender])
  · by_cases hrecipient : holder = recipient
    · subst hrecipient
      exact .inr ⟨held, satAdd held units, hheld, by rw [hafter, if_pos rfl],
        .inr ⟨⟨units, hop⟩, le_satAdd_left held units⟩⟩
    · -- `holder` is not credited, so it is the sender who pays or someone untouched
      by_cases hsender : holder = sender
      · obtain ⟨old, hold, hle⟩ := hfalls hpays
        subst hsender
        exact .inr ⟨old, rest, hold, by rw [hafter, if_neg hrecipient, if_pos rfl],
          .inl ⟨rfl, hle⟩⟩
      · exact .inl (by rw [hafter, if_neg hrecipient, if_neg hsender])

end Outcome

namespace Unsigned

variable {tx : Unsigned} (h : tx.execute ctx view = .ok changes)

include h

/-- `IsSegment` holds of the name in a transaction that is executed. -/
theorem isSegment_of_execute {name : String} (hname : tx.operation.name? = some name) :
    StoreKey.IsSegment name :=
  (validateName_eq_ok_iff.1
    ((validateForm_eq_ok_iff.1 (execute_eq_ok_iff.1 h).1).2.2 name hname)).2.2

/-- `BelongsTo` keys of a name that the transaction does not name stay as they are. -/
theorem agreeOn_of_execute {name : String} (hsegment : StoreKey.IsSegment name)
    (hother : tx.operation.name? ≠ some name) :
    View.AgreeOn (StoreKey.BelongsTo name) (view.push changes) view := by
  intro key hkey
  have hunwritten : changes[key]? = none := by
    have hbalance (holder : PublicKey) : StoreKey.balance holder ≠ key := by
      rintro rfl
      exact StoreKey.not_belongsTo_balance name holder hkey
    refine (execute_eq_ok_iff.1 h).2.getElem?_eq_none (hbalance _)
      (fun holder _ _ => hbalance holder) fun own hown hkey' => ?_
    obtain rfl := StoreKey.eq_of_belongsTo (isSegment_of_execute h hown) hsegment hkey' hkey
    exact hother hown
  rw [View.get?_push, hunwritten, Option.getD_none]

end Unsigned

/--
What a transaction can change when it is executed. Keys that `BelongsTo` another name keep what they
hold. To a namespace that is `Live` under another owner it can only be a `lifeline`, which moves the
`expiry` of the lease and leaves everything else alone but the sender's balance. A balance that
moved is the sender's and fell, or it is that of a `transfer`'s recipient and rose. Keys that are
not `IsLedger` keep what they hold.
-/
theorem Unsigned.execute_isolated {tx : Unsigned} (h : tx.execute ctx view = .ok changes) :
    (∀ name, StoreKey.IsSegment name → tx.operation.name? ≠ some name →
      View.AgreeOn (StoreKey.BelongsTo name) (view.push changes) view) ∧
    (∀ name lease, tx.operation.name? = some name → Live view name ctx.time lease →
      lease.owner ≠ tx.base.sender → ∃ units expiry, tx.operation = .lifeline name units ∧
        lease.expiry ≤ expiry ∧
        (view.push changes).lease? name = .ok (some { lease with expiry }) ∧
        View.AgreeOn (fun key => key ≠ StoreKey.lease name ∧
          key ≠ StoreKey.balance tx.base.sender) (view.push changes) view) ∧
    (∀ holder, (view.push changes).balance holder = view.balance holder ∨
      ∃ old new, view.balance holder = .ok old ∧ (view.push changes).balance holder = .ok new ∧
        (holder = tx.base.sender ∧ new ≤ old ∨
          (∃ units, tx.operation = .transfer holder units) ∧ old ≤ new)) ∧
    View.AgreeOn (fun key => ¬StoreKey.IsLedger key) (view.push changes) view := by
  have houtcome := (execute_eq_ok_iff.1 h).2
  refine ⟨fun name => agreeOn_of_execute h, fun name lease hop hlive howner => ?_,
    houtcome.balance_moves, fun key hkey => ?_⟩
  · -- a stranger passes on a live namespace only with a lifeline
    obtain ⟨units, rest, hlifeline, rfl⟩ := houtcome.eq_lifeline hop hlive howner
    refine ⟨units, (lease.extend ctx.genesis units).expiry, hlifeline, le_satAdd_left _ _,
      View.lease?_push_of_put (by rw [Changes.getElem?_putLease, if_pos rfl]; rfl),
      fun key ⟨hlease, hbalance⟩ => ?_⟩
    simp [View.get?_push, Changes.getElem?_putLease, Changes.getElem?_putBalance, hlease.symm,
      hbalance.symm]
  · rw [View.get?_push, onLedger_of_execute h key hkey, Option.getD_none]

/-! ## Two neighbours

The names of two namespaces of one owner start alike. A guest prolongs the lease of one of them.
-/

namespace Neighbours

def owner : PublicKey := ⟨1 :: List.replicate 31 0, rfl, by decide +kernel⟩

def guest : PublicKey := ⟨List.replicate 32 0, rfl, by decide +kernel⟩

def lease : Lease := ⟨owner, 10, 20, 100, 3⟩

def stored (value : Bytes) : StoredValue := ⟨Hash.replicate 2, 20, value.length.toUInt64, value⟩

/-- Both leases with a value each, and the guest's balance. -/
def town : View := (View.durable ∅).push ((((((∅ : Changes).putLease "foo" lease).putLease "foobar"
  lease).putValue "foo" [1] (stored [7])).putValue "foobar" [1] (stored [8])).putBalance guest 10)

def prolong : Unsigned := ⟨⟨guest, Hash.replicate 1, 1, 0⟩, .lifeline "foo" 3⟩

def context : ExecutionContext := ⟨{}, 50, Hash.replicate 3⟩

theorem live_foo : Live town "foo" context.time lease :=
  ⟨View.lease?_push_of_put (by decide +kernel), by decide⟩

/-- `prolong` extends the one lease for a fee, and reaches neither the other nor any value. -/
theorem isolated_prolong : ∃ changes, prolong.execute context town = .ok changes ∧
    (∃ expiry, lease.expiry ≤ expiry ∧
      (town.push changes).lease? "foo" = .ok (some { lease with expiry })) ∧
    View.AgreeOn (StoreKey.BelongsTo "foobar") (town.push changes) town := by
  obtain ⟨changes, h⟩ : ∃ changes, prolong.execute context town = .ok changes := by
    have hok : (prolong.execute context town).toOption.isSome = true := by decide +kernel
    cases hexecute : prolong.execute context town with
    | ok changes => exact ⟨changes, rfl⟩
    | error cause =>
      rw [hexecute] at hok
      cases hok
  obtain ⟨hothers, hforeign, -⟩ := Unsigned.execute_isolated h
  obtain ⟨_, expiry, -, hle, hlease, -⟩ := hforeign "foo" lease rfl live_foo (by decide)
  exact ⟨changes, h, ⟨expiry, hle, hlease⟩, hothers "foobar" (by decide +kernel) (by decide)⟩

end Neighbours

end LeaseChain
