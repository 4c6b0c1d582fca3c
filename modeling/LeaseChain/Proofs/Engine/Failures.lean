import LeaseChain.Proofs.Block.Legible
import LeaseChain.Proofs.Engine.Transition

/-!
# What a request can fail with

Most errors are about the request itself: a block that is not known, a price that is too low. The
others blame a stored record, the form of bytes or a check of the engine's own work, and come from
few places. The lemmas here follow an error through the steps that requests have in common: as long
as the errors about requests and those of loading a block have a property, the step fails only with
errors that have it.

## Key results

- `EngineError.IsPlain`: the errors about the request
- `Engine.failsOnly_find?`, `Engine.failsOnly_contextAfter`, `Engine.failsOnly_viewFrom`
- `Engine.failsOnly_draft`: what building fails with before a block is framed
-/

namespace LeaseChain

open Except (FailsOnly)

/-- The error is about the request: neither about stored bytes, nor about the engine's own work. -/
def EngineError.IsPlain : EngineError → Prop
  | execution _ cause => cause.IsPlain
  | selfCheck _ | storage _ | frame _ | crypto _ | genesis _ => False
  | _ => True

/-- What is plain about a transaction is so about the request that has it executed. -/
theorem EngineError.failsOnly_execution {α : Type} {x : Except ExecutionError α}
    (hx : FailsOnly ExecutionError.IsPlain x) (txId : Hash) :
    FailsOnly IsPlain (x.mapError (.execution txId)) :=
  hx.mapError fun _ h => h

variable {p : EngineError → Prop} (hp : ∀ cause : EngineError, cause.IsPlain → p cause)

/-- `ancestors` fails where looking up an ancestor fails. -/
theorem BlockContext.failsOnly_ancestors {g : Genesis} {now : UInt64}
    {lookup : Hash → Except EngineError (Option Block)} (hlookup : ∀ id, FailsOnly p (lookup id))
    (limit : Nat) (block : Block) : FailsOnly p (ancestors g now lookup limit block) := by
  -- induction on the bound: every step looks up one ancestor and may end the walk
  induction limit generalizing block with
  | zero => exact .ok _
  | succ limit ih =>
    unfold ancestors
    refine .ite (.ok _) ((hlookup _).bind fun found _ => ?_)
    cases found with
    | none => exact .ok _
    | some ancestor => exact .ite (.ok _) ((ih ancestor).bind fun _ _ => .ok _)

namespace Engine

variable {e : Engine}

/-- `loadBlock` fails only where the bytes are no frame of a block. -/
theorem failsOnly_loadBlock (entries : Table Bytes) (id : Hash) :
    FailsOnly (fun cause => ∃ fault, cause = .frame fault) (loadBlock entries id) := by
  unfold loadBlock
  split
  · exact .map (.mapError_of_forall fun fault => ⟨fault, rfl⟩)
  · exact .ok none

section Loading

variable (hload : ∀ id, FailsOnly p (loadBlock e.store.entries id))

include hload

/-- `find?` fails as `loadBlock` does. -/
theorem failsOnly_find? (id : Hash) : FailsOnly p (e.find? id) := by
  unfold find?
  split
  · exact .ok _
  · exact .ite (.ok _) (hload id)

/-- `contextAfter` fails as `loadBlock` of an ancestor does. -/
theorem failsOnly_contextAfter (parent : Block) (now : UInt64) :
    FailsOnly p (e.contextAfter parent now) := by
  have hwalk : FailsOnly p (BlockContext.ancestors e.genesis now e.find? e.knownBlocks parent) :=
    BlockContext.failsOnly_ancestors (failsOnly_find? hload) _ _
  exact (hwalk.bind fun _ _ => .ok _).bind fun _ _ => .ok _

include hp

/-- `find` fails as `loadBlock` does, or plainly where the block is not known. -/
theorem failsOnly_find (id : Hash) : FailsOnly p (e.find id) := by
  refine (failsOnly_find? hload id).bind fun found _ => ?_
  cases found with
  | none => exact .error (hp _ trivial)
  | some block => exact .ok block

/-- `openParent` fails as `loadBlock` does, or plainly. -/
theorem failsOnly_openParent (block : Block) : FailsOnly p (e.openParent block) := by
  refine (failsOnly_find? hload _).bind fun found _ => ?_
  cases found with
  | none => exact .error (hp _ trivial)
  | some parent => exact .ite (.ok _) (.error (hp _ trivial))

/-- `buildPlan` fails as `loadBlock` does, or plainly. -/
theorem failsOnly_buildPlan (clock : UInt64) : FailsOnly p (e.buildPlan clock) := by
  refine (failsOnly_find hp hload e.preferred).bind fun parent _ => ?_
  refine .guard (hp _ trivial) ?_
  exact (failsOnly_contextAfter hload _ _).bind fun _ _ => .ok _

end Loading

/-- `layersFrom` fails only at a block that has not been verified. -/
theorem layersFrom_fails (tracked : Std.ExtTreeMap Hash Tracked) (limit : Nat)
    (entry : Tracked) : FailsOnly (· = .parentNotVerified) (layersFrom tracked limit entry) := by
  -- induction on the bound, from an entry to the one its changes stand on
  induction limit generalizing entry with
  | zero => exact .error rfl
  | succ limit ih =>
    unfold layersFrom
    split
    · exact .error rfl
    split
    · exact .ok _
    split
    · exact .error rfl
    · next parent _ => exact (ih parent).bind fun _ _ => .ok _

/-- `viewFrom` fails only where a block below has not been verified. -/
theorem viewFrom_fails (e : Engine) (id : Hash) :
    FailsOnly (· = .parentNotVerified) (e.viewFrom id) := by
  refine .bind ?_ fun _ _ => .ok _
  unfold layers
  split
  · exact .ok _
  · exact layersFrom_fails _ _ _

include hp

/-- `viewFrom` fails plainly only. -/
theorem failsOnly_viewFrom (e : Engine) (id : Hash) : FailsOnly p (e.viewFrom id) :=
  (viewFrom_fails e id).mono fun _ h => h ▸ hp _ trivial

/-- `assemble` fails plainly only. -/
theorem failsOnly_assemble (parent : Block) (context : BlockContext) (now : UInt64)
    (txs : List Transaction) : FailsOnly p (assemble parent context now txs) :=
  .ite (.error (hp _ trivial)) (.ite (.error (hp _ trivial)) (.ok _))

/-- `draft` fails where its plan, its view or `assemble` fails. -/
theorem failsOnly_draft (hload : ∀ id, FailsOnly p (loadBlock e.store.entries id))
    (clock : UInt64) : FailsOnly p (e.draft clock).1 := by
  -- the plan is made first, then the view is looked for, and then the content is put together
  simp only [draft]
  split
  · next cause hplan => exact .error (failsOnly_buildPlan hp hload clock cause hplan)
  · split
    · next cause hview => exact .error (failsOnly_viewFrom hp _ _ cause hview)
    · split
      · next cause hassemble => exact .error (failsOnly_assemble hp _ _ _ _ cause hassemble)
      · exact .ok _

/-- The checks of `checkPlace` are plain. -/
theorem failsOnly_checkPlace (clock : UInt64) (parent block : Block) :
    FailsOnly p (checkPlace clock parent block) :=
  .ite (.error (hp _ trivial)) (.ite (.error (hp _ trivial)) (.ite (.error (hp _ trivial))
    (.ite (.error (hp _ trivial)) (.ok ()))))

/-- The checks of `checkPrice` are plain. -/
theorem failsOnly_checkPrice (context : BlockContext) (block : Block) :
    FailsOnly p (checkPrice context block) :=
  .ite (.error (hp _ trivial)) (.ite (.error (hp _ trivial)) (.ok ()))

end Engine

include hp in
/-- The checks of `checkTx` are plain, the signature's included. -/
theorem Block.failsOnly_checkTx (block : Block) (context : BlockContext) (seen : List Hash)
    (tx : Transaction) : FailsOnly p (checkTx block context seen tx) := by
  have hsigned : FailsOnly p (tx.verifySignature.mapError fun _ => .invalidSignature tx.id) :=
    .mapError_of_forall fun _ => hp _ trivial
  exact .ite (.error (hp _ trivial)) (.ite (.error (hp _ trivial))
    (.ite (.error (hp _ trivial)) hsigned))

end LeaseChain
