import LeaseChain.Engine.Verification
import LeaseChain.Proofs.ForStd.Except
import LeaseChain.Proofs.Engine.Run

/-!
# What verification checks

Each check succeeds exactly when what it asks for is the case.

## Key results

- `Engine.checkBlock_eq_ok_iff`: verification finds changes when all checks pass
- `Engine.checkPlace_eq_ok_iff`, `Engine.checkPrice_eq_ok_iff`: the checks without state
- `Engine.openParent_eq_ok_iff`: the parent is found, and still open
- `Engine.of_viewFrom`: what a child of a block sees
-/

namespace LeaseChain.Engine

variable {e : Engine}

theorem checkPlace_eq_ok_iff {clock : UInt64} {parent block : Block} :
    checkPlace clock parent block = .ok () ↔
      block.txs ≠ [] ∧ parent.timestamp < block.timestamp ∧
      block.timestamp < satAdd clock futureBound ∧
      block.height = parent.height + 1 := by
  simp only [checkPlace, List.isEmpty_iff]
  split
  · next h => simp [h]
  split
  · next h => simp [UInt64.not_lt.2 h]
  split
  · next h => simp [UInt64.not_lt.2 h]
  split
  · next h => simp [h]
  · -- all four guards passed, so their negations are the four conditions
    next hempty hearly hlate hheight =>
    rw [UInt64.not_le] at hearly hlate
    exact ⟨fun _ => ⟨hempty, hearly, hlate, Decidable.not_not.1 hheight⟩, fun _ => rfl⟩

theorem checkPrice_eq_ok_iff {context : BlockContext} {block : Block} :
    checkPrice context block = .ok () ↔
      block.cost = context.nextCost ∧ block.difficulty = context.nextDifficulty := by
  simp only [checkPrice]
  split
  · next h => simp [h]
  split
  · next h => simp [h]
  · next hcost hdifficulty =>
    exact ⟨fun _ => ⟨Decidable.not_not.1 hcost, Decidable.not_not.1 hdifficulty⟩, fun _ => rfl⟩

/--
`openParent` succeeds exactly when the parent is found, and is undecided or the last accepted block.
-/
theorem openParent_eq_ok_iff {block parent : Block} :
    e.openParent block = .ok parent ↔
      e.find? block.parentId = .ok (some parent) ∧
      (e.isTracked parent.id = true ∨ parent.id = e.lastAccepted.id) := by
  simp only [openParent, Except.bind_eq_ok_iff]
  constructor
  · rintro ⟨found, hfound, h⟩
    split at h
    · cases h
    · split at h
      · next hopen =>
        obtain rfl := Except.ok.inj h
        exact ⟨hfound, hopen⟩
      · cases h
  · rintro ⟨hfound, hopen⟩
    exact ⟨some parent, hfound, if_pos hopen⟩

/-- What the changes of a child of a block stand on. -/
def footingOn (e : Engine) (parentId : Hash) : Footing :=
  if e.isTracked parentId then .block parentId else .durable

/-- `checkBlock` finds changes exactly when all checks pass. -/
theorem checkBlock_eq_ok_iff {clock : UInt64} {block parent : Block} {verified : Verified} :
    e.checkBlock clock block = .ok (parent, verified) ↔
      e.openParent block = .ok parent ∧ checkPlace clock parent block = .ok () ∧
      ∃ context view, e.contextAfter parent block.timestamp = .ok context ∧
        checkPrice context block = .ok () ∧ e.viewFrom block.parentId = .ok view ∧
        block.execute e.genesis context view = .ok verified.changes ∧
        verified.footing = e.footingOn parent.id := by
  rw [checkBlock]
  simp only [Except.bind_eq_ok_iff]
  constructor
  · rintro ⟨p, hparent, ⟨⟩, hplace, context, hcontext, ⟨⟩, hprice, view, hview, changes,
      hchanges, h⟩
    obtain ⟨rfl, rfl⟩ := Prod.mk.inj (Except.ok.inj h)
    exact ⟨hparent, hplace, context, view, hcontext, hprice, hview, hchanges, rfl⟩
  · -- `verified` is taken apart so that its footing can be replaced by the engine's
    rintro ⟨hparent, hplace, context, view, hcontext, hprice, hview, hchanges, hfooting⟩
    refine ⟨parent, hparent, (), hplace, context, hcontext, (), hprice, view, hview,
      verified.changes, hchanges, ?_⟩
    obtain ⟨footing, changes⟩ := verified
    subst hfooting
    rfl

/-- `layersFrom` goes from a block's changes to those that they stand on, down to the store. -/
theorem layersFrom_eq_ok {tracked : Std.ExtTreeMap Hash Tracked} {limit : Nat} {entry : Tracked}
    {layers : List Changes} (h : layersFrom tracked (limit + 1) entry = .ok layers) :
    ∃ v, entry.verified? = some v ∧ (v.footing = .durable ∧ layers = [v.changes] ∨
      ∃ id below rest, v.footing = .block id ∧ tracked[id]? = some below ∧
        layersFrom tracked limit below = .ok rest ∧ layers = v.changes :: rest) := by
  rw [layersFrom] at h
  split at h
  · cases h
  · next v hv =>
    refine ⟨v, hv, ?_⟩
    split at h
    · -- a block on the durable state ends the walk
      next hfooting => exact .inl ⟨hfooting, (Except.ok.inj h).symm⟩
    · next id hfooting =>
      split at h
      · cases h
      · next below hbelow =>
        obtain ⟨rest, hrest, h⟩ := Except.bind_eq_ok_iff.1 h
        exact .inr ⟨id, below, rest, hfooting, hbelow, hrest, (Except.ok.inj h).symm⟩

/-- Changes that a tracked block holds. -/
def Holds (tracked : Std.ExtTreeMap Hash Tracked) (changes : Changes) : Prop :=
  ∃ (id : Hash) (entry : Tracked) (v : Verified),
    tracked[id]? = some entry ∧ entry.verified? = some v ∧ v.changes = changes

/-- `layersFrom` gives only changes that a tracked block `Holds`. -/
theorem of_mem_layersFrom {tracked : Std.ExtTreeMap Hash Tracked} {limit : Nat} {id : Hash}
    {entry : Tracked} {layers : List Changes} (hentry : tracked[id]? = some entry)
    (h : layersFrom tracked limit entry = .ok layers) {layer : Changes} (hlayer : layer ∈ layers) :
    Holds tracked layer := by
  induction limit generalizing id entry layers with
  | zero => cases h
  | succ limit ih =>
    obtain ⟨v, hv, ⟨-, rfl⟩ | ⟨belowId, below, rest, -, hbelow, hrest, rfl⟩⟩ := layersFrom_eq_ok h
    · exact ⟨id, entry, v, hentry, hv, (List.mem_singleton.1 hlayer).symm⟩
    · rcases List.mem_cons.1 hlayer with rfl | hlayer
      · exact ⟨id, entry, v, hentry, hv, rfl⟩
      · exact ih hbelow hrest hlayer

/-- `viewFrom` is the durable table under changes that tracked blocks hold. -/
theorem of_viewFrom {id : Hash} {view : View} (h : e.viewFrom id = .ok view) :
    view.base = e.store.entries ∧ ∀ layer ∈ view.layers, Holds e.tracked layer := by
  obtain ⟨layers, hlayers, h⟩ := Except.bind_eq_ok_iff.1 h
  obtain rfl := Except.ok.inj h
  refine ⟨rfl, fun layer hlayer => ?_⟩
  unfold Engine.layers at hlayers
  split at hlayers
  · obtain rfl := Except.ok.inj hlayers
    cases hlayer
  · next entry hentry => exact of_mem_layersFrom hentry hlayers hlayer

/-- `layersFrom` succeeds only from blocks that were verified. -/
theorem verified?_of_layersFrom {tracked : Std.ExtTreeMap Hash Tracked} {limit : Nat}
    {entry : Tracked} {layers : List Changes} (h : layersFrom tracked limit entry = .ok layers) :
    ∃ v, entry.verified? = some v := by
  cases limit with
  | zero => cases h
  | succ limit =>
    obtain ⟨v, hv, -⟩ := layersFrom_eq_ok h
    exact ⟨v, hv⟩

/-- `acceptable` are the blocks whose changes stand on the durable store. -/
theorem acceptable_eq_ok_iff {id : Hash} {entry : Tracked} {changes : Changes} :
    acceptable id entry = .ok changes ↔ entry.verified? = some ⟨.durable, changes⟩ := by
  simp only [acceptable]
  split
  · next h => simp [h]
  · next v h =>
    obtain ⟨footing, staged⟩ := v
    simp only [h, Option.some.injEq, Verified.mk.injEq]
    split
    · next hdurable => simp [hdurable]
    · next hdurable => simp [hdurable]

end LeaseChain.Engine
