import LeaseChain.Proofs.Engine.Verification
import LeaseChain.Proofs.Store.View

/-!
# The walk down the layers

What a tracked block sees is found by walking from the block over those that its changes stand on,
down to the durable store. `Engine.layersFrom` bounds that walk; `Engine.Walk` is the walk itself,
so that a walk with a result is one that ends. Where heights fall along the way no block comes
twice, and as many steps as there are tracked blocks are enough.

## Key results

- `Engine.walk_layersFrom`: the walk ends, and with the result that the bounded one has
- `Engine.Walk.unique`: it ends with one result
- `View.agreeOn_settled`: the farthest layer may as well be carried out on the table
-/

namespace LeaseChain

namespace Engine

variable {tracked : Std.ExtTreeMap Hash Tracked} {entry below : Tracked} {v : Verified} {id : Hash}

/-- The walk from a tracked block down to the durable store, without a bound, and its result. -/
inductive Walk (tracked : Std.ExtTreeMap Hash Tracked) :
    Tracked → Except EngineError (List Changes) → Prop where
  /-- The block was not verified. -/
  | unverified {entry : Tracked} (hv : entry.verified? = none) :
      Walk tracked entry (.error .parentNotVerified)
  | durable {entry : Tracked} {v : Verified} (hv : entry.verified? = some v)
      (hfooting : v.footing = .durable) : Walk tracked entry (.ok [v.changes])
  /-- The block's changes stand on a block that is not tracked any more. -/
  | missing {entry : Tracked} {v : Verified} {id : Hash} (hv : entry.verified? = some v)
      (hfooting : v.footing = .block id) (hnone : tracked[id]? = none) :
      Walk tracked entry (.error .parentNotVerified)
  | step {entry below : Tracked} {v : Verified} {id : Hash}
      {result : Except EngineError (List Changes)} (hv : entry.verified? = some v)
      (hfooting : v.footing = .block id) (hbelow : tracked[id]? = some below)
      (hwalk : Walk tracked below result) : Walk tracked entry (result.map (v.changes :: ·))

/-- `Walk` ends with one result. -/
theorem Walk.unique {r r' : Except EngineError (List Changes)} (h : Walk tracked entry r)
    (h' : Walk tracked entry r') : r = r' := by
  induction h generalizing r' with
  | unverified hv => cases h' <;> simp_all
  | durable hv hfooting => cases h' <;> simp_all
  | missing hv hfooting hnone => cases h' <;> simp_all
  | @step entry below v id result hv hfooting hbelow _ ih =>
    cases h' with
    | unverified hv' => simp_all
    | durable hv' hfooting' => simp_all
    | missing hv' hfooting' hnone => simp_all
    -- both walks read the same entry, footing and block below, so they agree from there on
    | step hv' hfooting' hbelow' hwalk' =>
      obtain rfl := Option.some.inj (hv.symm.trans hv')
      obtain rfl := Footing.block.inj (hfooting.symm.trans hfooting')
      obtain rfl := Option.some.inj (hbelow.symm.trans hbelow')
      rw [ih hwalk']

/-- `layersFrom` with one more step goes on from what the changes stand on. -/
theorem layersFrom_succ (limit : Nat) (hv : entry.verified? = some v)
    (hfooting : v.footing = .block id) (hbelow : tracked[id]? = some below) :
    layersFrom tracked (limit + 1) entry =
      (layersFrom tracked limit below).map (v.changes :: ·) := by
  simp only [layersFrom, hv, hfooting, hbelow]
  cases layersFrom tracked limit below <;> rfl

/-- Every block is higher than the one that its changes stand on, if that is tracked. -/
def Falling (tracked : Std.ExtTreeMap Hash Tracked) : Prop :=
  ∀ {id belowId : Hash} {entry below : Tracked} {v : Verified}, tracked[id]? = some entry →
    entry.verified? = some v → v.footing = .block belowId → tracked[belowId]? = some below →
    below.block.height.toNat < entry.block.height.toNat

/-- `tracked.size` bounds the number of distinct tracked blocks. -/
theorem length_le_size {ids : List Hash} (hnodup : ids.Nodup)
    (htracked : ∀ id ∈ ids, ∃ entry, tracked[id]? = some entry) : ids.length ≤ tracked.size := by
  rw [← Std.ExtTreeMap.length_keys]
  refine hnodup.length_le_of_subset fun id hid => ?_
  obtain ⟨entry, hentry⟩ := htracked id hid
  rw [Std.ExtTreeMap.mem_keys, Std.ExtTreeMap.mem_iff_isSome_getElem?, hentry]
  rfl

/-- `height` below that of all passed blocks makes a block none of them. -/
theorem not_mem_of_above (hentry : tracked[id]? = some entry) {passed : List Hash}
    (habove : ∀ j ∈ passed, ∃ x, tracked[j]? = some x ∧
      entry.block.height.toNat < x.block.height.toNat) : id ∉ passed := by
  intro hmem
  obtain ⟨x, hx, hlt⟩ := habove id hmem
  obtain rfl := Option.some.inj (hentry.symm.trans hx)
  exact Nat.lt_irrefl _ hlt

/-- `Walk` ends as `layersFrom` does, if the bound makes up for those passed before. -/
theorem walk_layersFrom (hfalling : Falling tracked) {limit : Nat} {passed : List Hash}
    (hentry : tracked[id]? = some entry) (hnodup : passed.Nodup)
    (habove : ∀ j ∈ passed, ∃ x, tracked[j]? = some x ∧
      entry.block.height.toNat < x.block.height.toNat)
    (hroom : tracked.size ≤ limit + passed.length) :
    Walk tracked entry (layersFrom tracked limit entry) := by
  induction limit generalizing id entry passed with
  | zero =>
    -- with the block itself, more blocks would have been passed than are tracked
    have hnodup' : (id :: passed).Nodup :=
      List.nodup_cons.2 ⟨not_mem_of_above hentry habove, hnodup⟩
    have hlength : (id :: passed).length ≤ tracked.size := by
      refine length_le_size hnodup' fun j hj => ?_
      rcases List.mem_cons.1 hj with rfl | hj
      · exact ⟨entry, hentry⟩
      · obtain ⟨x, hx, -⟩ := habove j hj
        exact ⟨x, hx⟩
    rw [List.length_cons] at hlength
    omega
  | succ limit ih =>
    cases hv : entry.verified? with
    | none =>
      simp only [layersFrom, hv]
      exact .unverified hv
    | some v =>
      cases hfooting : v.footing with
      | durable =>
        simp only [layersFrom, hv, hfooting]
        exact .durable hv hfooting
      | block belowId =>
        cases hbelow : tracked[belowId]? with
        | none =>
          simp only [layersFrom, hv, hfooting, hbelow]
          exact .missing hv hfooting hbelow
        | some below =>
          rw [layersFrom_succ limit hv hfooting hbelow]
          have hlt := hfalling hentry hv hfooting hbelow
          have hnodup' : (id :: passed).Nodup :=
            List.nodup_cons.2 ⟨not_mem_of_above hentry habove, hnodup⟩
          refine .step hv hfooting hbelow (ih hbelow hnodup' (fun j hj => ?_) ?_)
          swap
          · rw [List.length_cons]
            omega
          rcases List.mem_cons.1 hj with rfl | hj
          · exact ⟨entry, hentry, hlt⟩
          · obtain ⟨x, hx, hlt'⟩ := habove j hj
            exact ⟨x, hx, hlt.trans hlt'⟩

/-- `Walk` ends from every tracked block, with what the engine takes for its `layers`. -/
theorem walk_layers {e : Engine} (hfalling : Falling e.tracked)
    (hentry : e.tracked[id]? = some entry) : Walk e.tracked entry (e.layers id) := by
  simp only [layers, hentry]
  exact walk_layersFrom hfalling hentry List.nodup_nil (fun _ hj => nomatch hj) (Nat.le_refl _)

end Engine

namespace View

/-- Views `AgreeOn` all keys where the farthest layer is carried out on the table below. -/
theorem agreeOn_settled (p : Bytes → Prop) (layers : List Changes) (changes : Changes)
    (base : Table Bytes) :
    AgreeOn p ⟨layers, base.apply changes⟩ ⟨layers ++ [changes], base⟩ := by
  intro key hkey
  induction layers with
  -- with no layer on top both sides are one push on the durable table
  | nil =>
    show (base.apply changes)[key]? = ((⟨[], base⟩ : View).push changes).get? key
    rw [Table.getElem?_apply, get?_push]
    rfl
  | cons layer layers ih =>
    show ((⟨layers, base.apply changes⟩ : View).push layer).get? key =
      ((⟨layers ++ [changes], base⟩ : View).push layer).get? key
    rw [get?_push, get?_push, ih]

end View

end LeaseChain
