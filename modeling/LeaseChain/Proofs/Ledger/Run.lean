import LeaseChain.Proofs.Ledger.Isolation
import Mathlib.Data.List.Forall2
import Mathlib.Data.List.Induction

/-!
# Runs of the ledger

A ledger that starts without namespaces is run through any sequence of transactions, each at a time
of its own; one that is not executed changes nothing. Along every such run all leases and values can
be read, a value's record tells its length, and a name that can be claimed holds no values before it
is.

## Key results

- `View.attemptAll`: the state after a run
- `View.attemptAll_invariant`: what each execution keeps holds along every run
- `View.WellKept`: the records of a ledger that was run
- `View.WellKept.exists_values`: the values of a namespace can be listed
-/

namespace LeaseChain

open Ledger

/-- A transaction that is tried on a state. -/
structure Attempt where
  tx : Unsigned
  /-- The time of its block. -/
  time : UInt64
  txId : Hash

namespace View

/-- The state after a transaction was tried. -/
def attempt (g : Genesis) (view : View) (a : Attempt) : View :=
  match a.tx.execute ⟨g, a.time, a.txId⟩ view with
  | .ok changes => view.push changes
  | .error _ => view

/-- The state after transactions were tried one after the other. -/
def attemptAll (g : Genesis) (view : View) (attempts : List Attempt) : View :=
  attempts.foldl (attempt g) view

variable {g : Genesis} {view : View}

/-- `attemptAll` makes the last attempt on what the others left. -/
theorem attemptAll_concat (attempts : List Attempt) (a : Attempt) :
    view.attemptAll g (attempts ++ [a]) = (view.attemptAll g attempts).attempt g a := by
  simp only [attemptAll, List.foldl_append, List.foldl_cons, List.foldl_nil]

/--
`attemptAll` keeps what holds at the start and is kept by each execution and each failure. The
property may speak of what was tried so far.
-/
theorem attemptAll_invariant {P : List Attempt → View → Prop} (hstart : P [] view)
    (hstep : ∀ {front : List Attempt} {a : Attempt} {changes : Changes},
      P front (view.attemptAll g front) →
      a.tx.execute ⟨g, a.time, a.txId⟩ (view.attemptAll g front) = .ok changes →
      view.attemptAll g (front ++ [a]) = (view.attemptAll g front).push changes →
      P (front ++ [a]) ((view.attemptAll g front).push changes))
    (hskip : ∀ {front : List Attempt} {a : Attempt}, P front (view.attemptAll g front) →
      P (front ++ [a]) (view.attemptAll g front)) (attempts : List Attempt) :
    P attempts (view.attemptAll g attempts) := by
  -- induction from the last attempt back, which is the one that `hstep` or `hskip` is about
  induction attempts using List.reverseRecOn with
  | nil => exact hstart
  | append_singleton front a ih =>
    have hrun : view.attemptAll g (front ++ [a]) = (view.attemptAll g front).attempt g a :=
      attemptAll_concat front a
    rw [hrun]
    rw [attempt] at hrun ⊢
    split
    · next changes hexecute =>
      rw [hexecute] at hrun
      exact hstep ih hexecute hrun
    · exact hskip ih

/-! ## Records -/

/-- A state in which no name has a lease or values. -/
def WithoutNamespaces (view : View) : Prop :=
  ∀ name key, StoreKey.BelongsTo name key → view.get? key = none

/-- The records of leases and values are those that executions write. -/
structure WellKept (view : View) : Prop where
  leases : ∀ {name : String} {bytes : Bytes}, view.get? (StoreKey.lease name) = some bytes →
    StoreKey.IsSegment name ∧ ∃ lease : Lease, bytes = Wire.write lease
  values : ∀ {name : String} {key bytes : Bytes},
    view.get? (StoreKey.value name key) = some bytes →
    ∃ stored : StoredValue, bytes = Wire.write stored ∧ stored.size.toNat = stored.value.length
  /-- A name without a lease holds no values. -/
  vacant : ∀ {name : String}, StoreKey.IsSegment name →
    view.get? (StoreKey.lease name) = none → ∀ key, view.get? (StoreKey.value name key) = none

/-- `WellKept` holds where no name has anything, as there are no records to be wrong. -/
theorem WithoutNamespaces.wellKept (h : view.WithoutNamespaces) : view.WellKept where
  leases {name bytes} hbytes := by
    rw [h name _ (StoreKey.belongsTo_lease name)] at hbytes
    cases hbytes
  values {name key bytes} hbytes := by
    rw [h name _ (.inr (StoreKey.isPrefixOf_value name key))] at hbytes
    cases hbytes
  vacant {name} _ _ key := h name _ (.inr (StoreKey.isPrefixOf_value name key))

namespace WellKept

variable (hw : view.WellKept)

include hw

/-- `WellKept` survives an execution. -/
theorem push {tx : Unsigned} {ctx : ExecutionContext} {changes : Changes}
    (h : tx.execute ctx view = .ok changes) : (view.push changes).WellKept := by
  have houtcome := (Unsigned.execute_eq_ok_iff.1 h).2
  -- the leases, the values and the names without a lease, by what the outcome writes of each
  refine ⟨fun {name bytes} hbytes => ?_, fun {name key bytes} hbytes => ?_,
    fun {name} hsegment hnone key => ?_⟩
  · rw [get?_push] at hbytes
    rcases houtcome.getElem?_lease name with ⟨-, hold⟩ | ⟨hown, lease, hnew⟩
    · rw [hold, Option.getD_none] at hbytes
      exact hw.leases hbytes
    · rw [hnew, Option.getD_some, Option.some.injEq] at hbytes
      exact ⟨Unsigned.isSegment_of_execute h hown, lease, hbytes.symm⟩
  · rw [get?_push] at hbytes
    rcases houtcome.getElem?_value name key with hold | hgone | ⟨value, hvalue, hnew⟩
    · rw [hold, Option.getD_none] at hbytes
      exact hw.values hbytes
    · rw [hgone, Option.getD_some] at hbytes
      cases hbytes
    · rw [hnew, Option.getD_some, Option.some.injEq] at hbytes
      exact ⟨_, hbytes.symm, UInt64.toNat_ofNat_of_lt' (length_lt_of_validateValue hvalue)⟩
  · rw [get?_push] at hnone
    rcases houtcome.getElem?_lease name with ⟨hother, hold⟩ | ⟨-, lease, hnew⟩
    · rw [hold, Option.getD_none] at hnone
      -- the transaction is about another name, which shares no key with this one
      rw [Unsigned.agreeOn_of_execute h hsegment hother _
        (.inr (StoreKey.isPrefixOf_value name key))]
      exact hw.vacant hsegment hnone key
    · rw [hnew, Option.getD_some] at hnone
      cases hnone

/-- `lease?` always gives an answer, and a name that has a lease is a segment. -/
theorem lease?_cases (name : String) :
    view.lease? name = .ok none ∧ view.get? (StoreKey.lease name) = none ∨
    ∃ lease, view.lease? name = .ok (some lease) ∧ StoreKey.IsSegment name := by
  cases hget : view.get? (StoreKey.lease name) with
  | none => exact .inl ⟨by simp only [lease?, record?, hget], rfl⟩
  | some bytes =>
    obtain ⟨hsegment, lease, rfl⟩ := hw.leases hget
    refine .inr ⟨lease, ?_, hsegment⟩
    simp only [lease?, record?, hget, readRecord_lease]
    rfl

/-- `scan` finds nothing under a name that can be claimed and has no lease. -/
theorem scan_eq_empty {name : String} (hsegment : StoreKey.IsSegment name)
    (h : view.lease? name = .ok none) : view.scan (StoreKey.valuesOf name) = ∅ := by
  have hnone : view.get? (StoreKey.lease name) = none := by
    rcases hw.lease?_cases name with ⟨-, hnone⟩ | ⟨lease, hlease, -⟩
    · exact hnone
    · rw [h] at hlease
      cases hlease
  apply Std.ExtTreeMap.ext_getElem?
  intro key
  rw [getElem?_scan, Std.ExtTreeMap.getElem?_empty]
  -- a key under the name's values is that of a value, of which there is none
  split
  · next hstart =>
    obtain ⟨rest, rfl⟩ := StoreKey.isPrefixOf_valuesOf_iff.1 hstart
    exact hw.vacant hsegment hnone rest
  · rfl

/-- `values` lists the records that `scan` finds, in the same order, and each tells its length. -/
theorem exists_values (name : String) :
    ∃ values, view.values name = .ok values ∧
      List.Forall₂ (fun found listed => readRecord found.2 = .ok listed.2)
        (view.scan (StoreKey.valuesOf name)).toList values ∧
      ∀ entry ∈ values, entry.2.size.toNat = entry.2.value.length := by
  have hread : ∀ entry ∈ (view.scan (StoreKey.valuesOf name)).toList, ∃ stored : StoredValue,
      readRecord entry.2 = .ok stored ∧ stored.size.toNat = stored.value.length := by
    -- every entry that the scan finds is the record of a value
    rintro ⟨key, bytes⟩ hentry
    rw [Std.ExtTreeMap.mem_toList_iff_getElem?_eq_some, getElem?_scan] at hentry
    split at hentry
    · next hstart =>
      obtain ⟨rest, rfl⟩ := StoreKey.isPrefixOf_valuesOf_iff.1 hstart
      obtain ⟨stored, rfl, hsize⟩ := hw.values hentry
      exact ⟨stored, readRecord_storedValue (hsize ▸ stored.size.toNat_lt), hsize⟩
    · cases hentry
  rw [View.values]
  generalize (view.scan (StoreKey.valuesOf name)).toList = entries at hread
  -- induction on the entries, as the listing reads them one by one
  induction entries with
  | nil => exact ⟨[], rfl, .nil, nofun⟩
  | cons entry entries ih =>
    obtain ⟨stored, hstored, hsize⟩ := hread entry List.mem_cons_self
    obtain ⟨values, hvalues, hforall, hsizes⟩ :=
      ih fun e he => hread e (List.mem_cons_of_mem _ he)
    obtain ⟨key, bytes⟩ := entry
    refine ⟨(key.drop (StoreKey.valuesOf name).length, stored) :: values, ?_,
      .cons hstored hforall, List.forall_mem_cons.2 ⟨hsize, hsizes⟩⟩
    simp only [List.mapM_cons, hvalues, hstored]
    rfl

end WellKept

/-- `WellKept` holds along every run that starts without namespaces. -/
theorem WithoutNamespaces.attemptAll (h : view.WithoutNamespaces) (attempts : List Attempt) :
    (view.attemptAll g attempts).WellKept :=
  attemptAll_invariant (P := fun _ view => view.WellKept) h.wellKept
    (fun hw hexecute _ => hw.push hexecute) (fun hw => hw) attempts

end View

end LeaseChain
