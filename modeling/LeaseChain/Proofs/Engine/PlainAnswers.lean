import LeaseChain.Engine.Query
import LeaseChain.Proofs.Engine.Failures
import LeaseChain.Proofs.Engine.Readability

/-!
# No request blames the store

In a readable state every look-up of a block, every view and every execution goes through, so that a
request that fails has itself to blame. `Engine.AnswersPlainly` goes through the requests one by one
and names the exceptions: bytes from outside that are no frame, a block that is too large for one,
and a medium that refuses a commit. Answers about accepted state cannot fail at all.

## Key results

- `Engine.Readable.failsOnly_checkBlock`, `Engine.Readable.failsOnly_checkAdmission`: the checks
- `Engine.Readable.failsOnly_finalizePending`: the loop over blocks that are built and accepted
- `Engine.Readable.answersPlainly`: every request to a readable state
- `Reach.readable`: every reachable state is readable, and answers so
-/

namespace LeaseChain

open Except (FailsOnly)
open EngineError (IsPlain)

/-- What building may fail with. -/
inductive EngineError.OfBuild : EngineError → Prop where
  | plain {cause : EngineError} (h : cause.IsPlain) : OfBuild cause
  /-- The verification of the block that was built failed for a plain reason. -/
  | selfCheck {cause : EngineError} (h : cause.IsPlain) : OfBuild (.selfCheck cause)
  /-- The block that was put together is too large for a frame. -/
  | tooLarge {size : Nat} (h : Engine.framing.limit < size) :
      OfBuild (.frame (.tooLarge size Engine.framing.limit))

/-- What the requests to a state at a time may fail with. -/
structure Engine.AnswersPlainly (e : Engine) (clock : UInt64) : Prop where
  /-- Reading a block fails for the bytes that were given. -/
  parse : ∀ bytes, (e.parse bytes).1.FailsOnly fun cause =>
    ∃ fault, Block.ofBytes framing bytes = .error fault ∧ cause = .frame fault
  verify : ∀ block, (e.verify clock block).1.FailsOnly IsPlain
  /-- The medium may refuse to commit. -/
  accept : ∀ id, (e.accept id).1.FailsOnly fun cause =>
    cause.IsPlain ∨ cause = .storage .notFound ∧ 0 < e.store.refusals
  reject : ∀ id, (e.reject clock id).1.FailsOnly IsPlain
  prefer : ∀ id, (e.prefer id).1.FailsOnly IsPlain
  build : (e.build clock).1.FailsOnly EngineError.OfBuild
  finalizePending : (e.finalizePending clock).1.FailsOnly fun cause =>
    cause.OfBuild ∨ cause = .storage .notFound ∧ 0 < e.store.refusals
  submit : ∀ tx, (e.submit clock tx).1.FailsOnly IsPlain
  /-- Reading gossip fails for the bytes that were given. -/
  gossip : ∀ payload, (e.receiveGossip clock payload).1.FailsOnly fun cause =>
    ∃ fault, (framing.decode payload : Except FrameError (List Transaction)) = .error fault ∧
      cause = .frame fault
  prune : (e.pruneMempool clock).1.FailsOnly IsPlain
  /-- The store opens, whatever the parameters. -/
  reopen : ∀ g settings, ∃ opened, start g settings e.store = (.ok opened, e.store)
  find : ∀ id, (e.find id).FailsOnly IsPlain
  preferredBlock : e.preferredBlock.FailsOnly IsPlain
  status : ∀ id, (e.status id).FailsOnly IsPlain
  executionContext : ∀ parentId now, (e.executionContext parentId now).FailsOnly IsPlain
  miningTarget : (e.miningTarget clock).FailsOnly IsPlain
  leaseInfo : ∀ name, ∃ lease, e.leaseInfo name = .ok lease
  resolve : ∀ name key, ∃ value, e.resolve name key = .ok value
  range : ∀ name, ∃ values, e.range name = .ok values
  balance : ∀ holder, ∃ amount, e.balance holder = .ok amount
  confirmedIn : ∀ txId, ∃ blockId, e.confirmedIn txId = .ok blockId

/-! ## Steps on a readable view -/

/-- An overlay goes on to show what fits when `Legible` changes are merged into it. -/
theorem Overlay.legible_merge {overlay : Overlay} {changes : Changes}
    (hv : overlay.view.Legible) (hc : changes.Legible) : (overlay.merge changes).view.Legible := by
  intro key value hget
  rw [get?_view_merge, ← View.get?_push] at hget
  exact hv.push hc key value hget

/-- On an overlay whose view is `Legible`, `executeTxs` fails plainly only. -/
theorem Block.failsOnly_executeTxs {g : Genesis} {block : Block} {context : BlockContext}
    {txs : List Transaction} {seen : List Hash} {overlay : Overlay} (hv : overlay.view.Legible) :
    FailsOnly IsPlain (executeTxs g block context txs seen overlay) := by
  -- induction on the transactions that are left: each leaves an overlay that shows what fits
  induction txs generalizing seen overlay with
  | nil => exact .ok overlay
  | cons tx txs ih =>
    refine (failsOnly_checkTx (fun _ h => h) block context seen tx).bind fun _ _ => ?_
    refine (EngineError.failsOnly_execution (hv.failsOnly_execute _ _) tx.id).bind
      fun changes hchanges => ?_
    have hlegible := Unsigned.legible_of_execute (Except.mapError_eq_ok_iff.1 hchanges)
    exact ih (Overlay.legible_merge hv (hlegible.putTransaction tx.id block.id))

/-- Executing a block on a `Legible` view fails plainly only. -/
theorem Block.failsOnly_execute {g : Genesis} {block : Block} {context : BlockContext}
    {view : View} (hv : view.Legible) : FailsOnly IsPlain (block.execute g context view) := by
  have hon : (Overlay.on view).view.Legible := hv.push .empty
  exact (failsOnly_executeTxs hon).bind fun _ _ => .guard trivial (.ok _)

/-- `ofContent` fails only where the block is too large. -/
theorem Block.failsOnly_ofContent (content : BlockContent) :
    FailsOnly (fun fault => ∃ size, Engine.framing.limit < size ∧
      fault = .tooLarge size Engine.framing.limit) (ofContent Engine.framing content) := by
  refine .bind ?_ fun _ _ => .ok _
  unfold Framing.encode
  dsimp only
  split
  · next hlarge =>
    refine .error ⟨_, ?_, rfl⟩
    -- the limit is far below the largest length that a header can hold
    have hlimit : Engine.framing.limit < UInt32.size := by decide
    rcases hlarge with hlarge | hlarge <;> omega
  · exact .ok _

namespace Engine.Readable

variable {g : Genesis} {e : Engine} (hr : e.Readable g) (clock : UInt64)

include hr

/-- Every block that is stored is loaded: `loadBlock` does not fail in a readable state. -/
theorem failsOnly_loadBlock (id : Hash) : FailsOnly IsPlain (loadBlock e.store.entries id) := by
  obtain ⟨found, hfound⟩ := hr.exists_loadBlock id
  exact .of_eq_ok hfound

/-- `find` fails only where the block is not known, in a `Readable` state. -/
theorem failsOnly_find (id : Hash) : FailsOnly IsPlain (e.find id) :=
  Engine.failsOnly_find (fun _ h => h) hr.failsOnly_loadBlock id

/-- `contextAfter` has an answer in every `Readable` state. -/
theorem failsOnly_contextAfter (parent : Block) (now : UInt64) :
    FailsOnly IsPlain (e.contextAfter parent now) :=
  Engine.failsOnly_contextAfter hr.failsOnly_loadBlock parent now

/-- The checks of `checkBlock` blame the block or its parent. -/
theorem failsOnly_checkBlock (block : Block) : FailsOnly IsPlain (e.checkBlock clock block) := by
  have hplain : ∀ cause : EngineError, cause.IsPlain → cause.IsPlain := fun _ h => h
  -- the checks in their order, each with the one look-up that it makes
  refine (failsOnly_openParent hplain hr.failsOnly_loadBlock block).bind fun parent _ => ?_
  refine (failsOnly_checkPlace hplain clock parent block).bind fun _ _ => ?_
  refine (hr.failsOnly_contextAfter parent _).bind fun context _ => ?_
  refine (failsOnly_checkPrice hplain context block).bind fun _ _ => ?_
  refine (failsOnly_viewFrom hplain e _).bind fun view hview => ?_
  exact (Block.failsOnly_execute (hr.legible_of_viewFrom hview)).bind fun _ _ => .ok _

/-- `verify` fails plainly only. -/
theorem failsOnly_verify (block : Block) : FailsOnly IsPlain (e.verify clock block).1 := by
  simp only [verify]
  split
  · exact .error trivial
  split
  · exact .ok ()
  split
  · next cause hcheck => exact .error (hr.failsOnly_checkBlock clock block cause hcheck)
  · exact .ok ()

/-- The checks of `checkAdmission` blame the transaction. -/
theorem failsOnly_checkAdmission (tx : Transaction) :
    FailsOnly IsPlain (e.checkAdmission clock tx) := by
  unfold checkAdmission
  -- a step that throws by itself is plain; the steps in between were dealt with above
  refine .guard trivial ?_
  refine .bind (.mapError_of_forall fun _ => trivial) fun _ _ => ?_
  refine (EngineError.failsOnly_execution (Ledger.failsOnly_validateForm _ _) _).bind fun _ _ => ?_
  refine (hr.failsOnly_find _).bind fun parent _ => ?_
  refine (hr.failsOnly_contextAfter parent _).bind fun context _ => ?_
  refine .guard trivial ?_
  refine .guard trivial ?_
  refine .guard trivial ?_
  refine (failsOnly_viewFrom (fun _ h => h) e _).bind fun view hview => ?_
  refine .guard trivial ?_
  have hexecute := (hr.legible_of_viewFrom hview).failsOnly_execute
  exact .discard (EngineError.failsOnly_execution (hexecute _ _) _)

/-- `submit` fails plainly only. -/
theorem failsOnly_submit (tx : Transaction) : FailsOnly IsPlain (e.submit clock tx).1 := by
  simp only [submit]
  -- the submission answers what its check answers
  split
  · next cause hcheck => exact .error (hr.failsOnly_checkAdmission clock tx cause hcheck)
  · exact .ok _

/--
`finishBlock` fails where the block is too large, or where its own verification fails plainly.
-/
theorem failsOnly_finishBlock (content : BlockContent) :
    FailsOnly EngineError.OfBuild (e.finishBlock clock content).1 := by
  unfold finishBlock
  split
  · next fault hblock =>
    obtain ⟨size, hlarge, rfl⟩ := Block.failsOnly_ofContent content fault hblock
    exact .error (.tooLarge hlarge)
  · next block _ =>
    -- the block is made by the engine itself, so that its failure is wrapped
    split
    · next cause _ hverify =>
      have hplain := hr.failsOnly_verify clock block cause (congrArg Prod.fst hverify)
      exact .error (.selfCheck hplain)
    · exact .ok block

/-- `build` fails plainly, or as `finishBlock` does. -/
theorem failsOnly_build : FailsOnly EngineError.OfBuild (e.build clock).1 := by
  -- the draft leaves what is stored and tracked alone
  have hdraft := failsOnly_draft (fun _ h => h) hr.failsOnly_loadBlock clock
  have hdrafted := hr.congr (e.sameChain_draft clock)
  rw [build_eq_finishBlock]
  generalize e.draft clock = result at hdraft hdrafted ⊢
  -- what was drafted is finished in the state that drafting left
  obtain ⟨content, e'⟩ := result
  cases content with
  | error cause => exact .error (.plain (hdraft cause rfl))
  | ok content => exact hdrafted.failsOnly_finishBlock clock content

end Engine.Readable

namespace Engine

/-! ## Decisions -/

/-- `accept` fails plainly, or where the medium refuses the commit. -/
theorem failsOnly_accept (e : Engine) (id : Hash) : FailsOnly (fun cause =>
    cause.IsPlain ∨ cause = .storage .notFound ∧ 0 < e.store.refusals) (e.accept id).1 := by
  unfold accept
  split
  · exact .error (.inl trivial)
  split
  · exact .ite (.ok ()) (.error (.inl trivial))
  · next entry _ =>
    have hacceptable : FailsOnly IsPlain (acceptable id entry) := by
      unfold acceptable
      split
      · exact .error trivial
      · exact .ite (.ok _) (.error trivial)
    split
    · next cause hcause => exact .error (.inl (hacceptable cause hcause))
    · -- only the last step writes, and the medium may refuse it
      cases hrefusals : e.store.refusals with
      | zero =>
        simp only [Store.commit, hrefusals]
        exact .ok ()
      | succ n =>
        simp only [Store.commit, hrefusals]
        exact .error (.inr ⟨rfl, Nat.succ_pos n⟩)

/-- `prefer` fails only where the block is neither tracked nor the tip. -/
theorem failsOnly_prefer (e : Engine) (id : Hash) : FailsOnly IsPlain (e.prefer id).1 := by
  unfold prefer
  split
  · exact .ok ()
  · exact .error trivial

/-- `reject` fails only where the block is accepted or not known. -/
theorem failsOnly_reject (e : Engine) (clock : UInt64) (id : Hash) :
    FailsOnly IsPlain (e.reject clock id).1 := by
  unfold reject
  split
  · exact .ok ()
  split
  · exact .error (by split <;> trivial)
  · exact .ok ()

/-- `status` fails only where the block is not known. -/
theorem failsOnly_status (e : Engine) (id : Hash) : FailsOnly IsPlain (e.status id) :=
  .ite (.ok _) (.ite (.ok _) (.ite (.ok _) (.error trivial)))

/-! ## The loop that builds and accepts -/

/-- `verify` leaves the store alone. -/
theorem store_verify (e : Engine) (clock : UInt64) (block : Block) :
    (e.verify clock block).2.store = e.store := by
  rcases Transition.verify_cases e clock block with ⟨_, h⟩ | ⟨-, h⟩ | ⟨_, _, -, -, h⟩ <;> rw [h]
  rfl

/-- `draft` leaves the store alone. -/
theorem store_draft (e : Engine) (clock : UInt64) : (e.draft clock).2.store = e.store := by
  simp only [draft]
  split
  · rfl
  split
  · rfl
  split <;> rfl

/-- `finishBlock` leaves the store alone. -/
theorem store_finishBlock (e : Engine) (clock : UInt64) (content : BlockContent) :
    (e.finishBlock clock content).2.store = e.store := by
  unfold finishBlock
  split
  · rfl
  · next block _ =>
    have hverify := e.store_verify clock block
    split <;> next heq => rwa [heq] at hverify

/-- `build` leaves the store alone. -/
theorem store_build (e : Engine) (clock : UInt64) : (e.build clock).2.store = e.store := by
  have hdraft := e.store_draft clock
  rw [build_eq_finishBlock]
  generalize e.draft clock = result at hdraft ⊢
  obtain ⟨content, e'⟩ := result
  cases content with
  | error cause => exact hdraft
  | ok content => exact (e'.store_finishBlock clock content).trans hdraft

/-- `prefer` leaves the store alone. -/
theorem store_prefer (e : Engine) (id : Hash) : (e.prefer id).2.store = e.store := by
  unfold prefer
  split <;> rfl

/-- The medium has no more `refusals` to come after `accept` than before it. -/
theorem refusals_accept_le (e : Engine) (id : Hash) :
    (e.accept id).2.store.refusals ≤ e.store.refusals := by
  unfold accept
  split
  · exact Nat.le_refl _
  split
  · exact Nat.le_refl _
  split
  · exact Nat.le_refl _
  · -- only the commit can use up a refusal, and it uses at most one
    cases hrefusals : e.store.refusals with
    | zero =>
      simp only [Store.commit, hrefusals]
      exact Nat.le_refl 0
    | succ n =>
      simp only [Store.commit, hrefusals]
      exact Nat.le_succ n

end Engine

namespace Engine.Readable

variable {g : Genesis} {e : Engine} {clock : UInt64}

/--
Every round of `finalizeUpTo` starts `Readable`, with no more `refusals` to come than at first.
-/
theorem failsOnly_finalizeUpTo {bound : Nat} (limit count : Nat) (hr : e.Readable g)
    (hbound : e.store.refusals ≤ bound) : FailsOnly (fun cause =>
      cause.OfBuild ∨ cause = .storage .notFound ∧ 0 < bound)
      (finalizeUpTo clock limit count e).1 := by
  -- induction on the rounds that are left; each builds, accepts and prefers, and leaves a readable
  -- state
  induction limit generalizing count e with
  | zero => exact .ok count
  | succ limit ih =>
    have hbuild := hr.failsOnly_build clock
    have hbuilt : (e.build clock).2.Readable g :=
      show (e.after clock .build).Readable g from hr.after clock trivial
    have hstore := e.store_build clock
    unfold finalizeUpTo
    -- the answer of each of the three steps is looked at in turn, with the state that it left
    generalize e.build clock = result at hbuild hbuilt hstore ⊢
    obtain ⟨answer, e₁⟩ := result
    cases answer with
    | error cause => exact .ite (.ok count) (.error (.inl (hbuild cause rfl)))
    | ok block =>
      have haccept := e₁.failsOnly_accept block.id
      have haccepted : (e₁.accept block.id).2.Readable g :=
        show (e₁.after clock (.accept block.id)).Readable g from hbuilt.after clock trivial
      have hrefusals := e₁.refusals_accept_le block.id
      rw [hstore] at haccept hrefusals
      dsimp only
      generalize e₁.accept block.id = result at haccept haccepted hrefusals ⊢
      obtain ⟨answer, e₂⟩ := result
      cases answer with
      | error cause =>
        refine .error ?_
        rcases haccept cause rfl with hplain | ⟨hrefused, hpos⟩
        · exact .inl (.plain hplain)
        · exact .inr ⟨hrefused, Nat.lt_of_lt_of_le hpos hbound⟩
      | ok _ =>
        have hprefer := e₂.failsOnly_prefer block.id
        have hpreferred : (e₂.prefer block.id).2.Readable g :=
          show (e₂.after clock (.prefer block.id)).Readable g from haccepted.after clock trivial
        have hkept := e₂.store_prefer block.id
        dsimp only
        generalize e₂.prefer block.id = result at hprefer hpreferred hkept ⊢
        obtain ⟨answer, e₃⟩ := result
        cases answer with
        | error cause => exact .error (.inl (.plain (hprefer cause rfl)))
        | ok _ =>
          refine ih (count + 1) hpreferred ?_
          -- what the medium may refuse has only become less in this round
          rw [hkept]
          exact Nat.le_trans hrefusals hbound

/-- The loop of `finalizePending` fails as building does, or as the medium does. -/
theorem failsOnly_finalizePending (hr : e.Readable g) : FailsOnly (fun cause =>
    cause.OfBuild ∨ cause = .storage .notFound ∧ 0 < e.store.refusals)
    (e.finalizePending clock).1 :=
  hr.failsOnly_finalizeUpTo _ _ (Nat.le_refl _)

/-! ## Answers about accepted state -/

variable (hr : e.Readable g)

include hr

/-- `leaseInfo` has an answer for every name. -/
theorem exists_leaseInfo (name : String) : ∃ lease, e.leaseInfo name = .ok lease := by
  obtain ⟨found, hfound⟩ := hr.legible.exists_lease? name
  exact ⟨_, by rw [leaseInfo, reading, View.liveLease?, hfound]; rfl⟩

/-- `resolve` has an answer for every key under every name. -/
theorem exists_resolve (name : String) (key : Bytes) : ∃ value, e.resolve name key = .ok value := by
  obtain ⟨lease, hlease⟩ := hr.exists_leaseInfo name
  obtain ⟨value, hvalue⟩ := hr.legible.exists_value? name key
  -- without a live lease nothing is looked up
  cases lease with
  | none => exact ⟨none, by rw [resolve, hlease]; rfl⟩
  | some lease => exact ⟨value, by simp only [resolve, hlease, reading, hvalue]; rfl⟩

/-- `range` lists the values of every name. -/
theorem exists_range (name : String) : ∃ values, e.range name = .ok values := by
  obtain ⟨lease, hlease⟩ := hr.exists_leaseInfo name
  obtain ⟨values, hvalues⟩ := hr.legible.exists_values name
  cases lease with
  | none => exact ⟨[], by rw [range, hlease]; rfl⟩
  | some lease => exact ⟨values, by simp only [range, hlease, reading, hvalues]; rfl⟩

/-- `balance` has an answer for every key. -/
theorem exists_balance (holder : PublicKey) : ∃ amount, e.balance holder = .ok amount := by
  obtain ⟨amount, hamount⟩ := hr.legible.exists_balance holder
  exact ⟨amount, by rw [balance, reading, hamount]; rfl⟩

/-- `confirmedIn` has an answer for every transaction. -/
theorem exists_confirmedIn (txId : Hash) : ∃ blockId, e.confirmedIn txId = .ok blockId := by
  unfold confirmedIn
  split
  · exact ⟨none, rfl⟩
  · next bytes hbytes =>
    obtain ⟨id, hid⟩ := hr.legible _ bytes hbytes
    exact ⟨some id, by rw [hid]⟩

/-- The store of a `Readable` state opens with any parameters and settings, and is left as it is. -/
theorem exists_start (g' : Genesis) (settings : Settings) :
    ∃ opened, start g' settings e.store = (.ok opened, e.store) := by
  -- the flag says that the store was set up, so that opening reads and writes nothing
  obtain ⟨tip, hstored⟩ := hr.exists_storedState
  have hinit : e.store.entries.contains StoreKey.initialized = true := by
    rw [Std.ExtTreeMap.contains_eq_isSome_getElem?, hr.initialized]
    rfl
  exact ⟨Engine.atRest g settings e.store tip, by rw [start, if_pos hinit, hstored]⟩

/-- A `Readable` state `AnswersPlainly` at every time. -/
theorem answersPlainly (clock : UInt64) : e.AnswersPlainly clock where
  parse bytes := by
    unfold Engine.parse
    split
    · next fault hfault => exact .error ⟨fault, hfault, rfl⟩
    · split
      · exact .ok _
      · split <;> exact .ok _
  verify block := hr.failsOnly_verify clock block
  accept := e.failsOnly_accept
  reject := e.failsOnly_reject clock
  prefer := e.failsOnly_prefer
  build := hr.failsOnly_build clock
  finalizePending := hr.failsOnly_finalizePending
  submit := hr.failsOnly_submit clock
  gossip payload := by
    unfold receiveGossip
    split
    · next fault hfault => exact .error ⟨fault, hfault, rfl⟩
    · exact .ok _
  prune := by
    have hcontext : FailsOnly IsPlain (e.nextContext clock) :=
      (hr.failsOnly_find _).bind fun parent _ => hr.failsOnly_contextAfter parent _
    unfold pruneMempool
    -- pruning needs the context after the preferred block and nothing else
    split
    · next cause hcause => exact .error (hcontext cause hcause)
    · exact .ok _
  reopen := hr.exists_start
  find := hr.failsOnly_find
  preferredBlock := hr.failsOnly_find _
  status := e.failsOnly_status
  executionContext parentId now :=
    (hr.failsOnly_find parentId).bind fun parent _ => hr.failsOnly_contextAfter parent now
  miningTarget := (hr.failsOnly_find _).bind fun parent _ =>
    (hr.failsOnly_contextAfter parent _).bind fun _ _ => .ok _
  leaseInfo := hr.exists_leaseInfo
  resolve := hr.exists_resolve
  range := hr.exists_range
  balance := hr.exists_balance
  confirmedIn := hr.exists_confirmedIn

end Engine.Readable

/-! ## The first start -/

namespace Engine

/-- `Block.first` is always there: it has no transactions, and so is short enough for a frame. -/
theorem exists_first (g : Genesis) : ∃ block, Block.first framing g = .ok block := by
  let content : BlockContent := ⟨Hash.zero, 0, 0, g.minDifficulty, g.minBlockCost, []⟩
  have hlength : (Wire.write content).length = 72 := by
    simp [content, BlockContent.write_eq]
    rfl
  have hframe : framing.encode content = .ok _ :=
    Framing.encode_eq_ok_iff.2 ⟨⟨by rw [hlength]; decide, by rw [hlength]; decide⟩, rfl⟩
  exact ⟨_, by rw [Block.first, Block.ofContent, hframe]; rfl⟩

/-- `genesisState` fails for the parameters only. -/
theorem failsOnly_genesisState (g : Genesis) :
    FailsOnly (fun cause => ∃ fault, cause = .genesis fault) (genesisState g) := by
  obtain ⟨first, hfirst⟩ := exists_first g
  have hgenesis {α : Type} (x : Except GenesisError α) : FailsOnly
      (fun cause => ∃ fault, cause = .genesis fault) (x.mapError EngineError.genesis) :=
    .mapError_of_forall fun fault => ⟨fault, rfl⟩
  refine (hgenesis _).bind fun _ _ => ?_
  rw [hfirst]
  exact (hgenesis _).bind fun _ _ => .ok _

/-- An empty store opens unless the parameters are at fault or the medium refuses. -/
theorem failsOnly_start_empty (g : Genesis) (settings : Settings) (refusals : Nat) :
    FailsOnly (fun cause => (∃ fault, cause = .genesis fault) ∨
      cause = .storage .notFound ∧ 0 < refusals) (start g settings ⟨∅, refusals⟩).1 := by
  have hempty : ¬(⟨∅, refusals⟩ : Store).entries.contains StoreKey.initialized = true := by simp
  rw [start, if_neg hempty]
  -- parameters first, and the one commit after them
  split
  · next cause hcause => exact .error (.inl (failsOnly_genesisState g cause hcause))
  · cases refusals with
    | zero => exact .ok _
    | succ n => exact .error (.inr ⟨rfl, Nat.succ_pos n⟩)

end Engine

/--
Every reachable state is `Readable` and `AnswersPlainly` at every time: no request fails for what is
stored, neither for a missing record nor for one that cannot be read, inside an execution or outside
one. The first `start` of any run fails for its parameters only, or for a commit that the medium
refuses.
-/
theorem Reach.readable {g : Genesis} {h : History} {e : Engine} (hreach : Reach g h e) :
    e.Readable g ∧ (∀ clock, e.AnswersPlainly clock) ∧
    ∀ g' settings refusals, (Engine.start g' settings ⟨∅, refusals⟩).1.FailsOnly fun cause =>
      (∃ fault, cause = .genesis fault) ∨ cause = .storage .notFound ∧ 0 < refusals := by
  have hr : e.Readable g := by
    induction hreach with
    | start hstart => exact Engine.readable_start hstart
    | call clock hform _ ih => exact ih.after clock hform
  exact ⟨hr, hr.answersPlainly, Engine.failsOnly_start_empty⟩

/-- The store of `forked` is `Readable`, and the name `foo` in it has an answer. -/
theorem Siblings.readable_forked :
    Reach genesis forked.1 forked.2 ∧ forked.2.Readable genesis ∧ forked.2.AnswersPlainly 100 ∧
    ∃ lease, forked.2.leaseInfo "foo" = .ok lease := by
  obtain ⟨hr, hplain, -⟩ := reach_forked.readable
  exact ⟨reach_forked, hr, hplain 100, (hplain 100).leaseInfo "foo"⟩

end LeaseChain
