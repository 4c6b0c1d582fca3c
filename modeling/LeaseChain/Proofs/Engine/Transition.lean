import LeaseChain.Proofs.Engine.Run

/-!
# What a request does to the blocks

`Transition` lists what a request can do to the part of the state that decides about blocks. Most
requests do nothing to it (`Engine.SameChain`); verification attaches changes to a block, acceptance
commits them, rejection forgets the block, and so on. Every later invariant is shown along these
cases, so that no other proof unfolds a request.

## Key results

- `Transition.of_request`: every request is one of the transitions
-/

namespace LeaseChain

namespace Engine

/-- Two states that decide alike about blocks. They may differ in the pool and in reports. -/
structure SameChain (e e' : Engine) : Prop where
  genesis : e'.genesis = e.genesis
  entries : e'.store.entries = e.store.entries
  tracked : e'.tracked = e.tracked
  lastAccepted : e'.lastAccepted = e.lastAccepted
  preferred : e'.preferred = e.preferred
  rejected : e'.rejected = e.rejected

namespace SameChain

theorem refl (e : Engine) : SameChain e e := ⟨rfl, rfl, rfl, rfl, rfl, rfl⟩

theorem trans {e e' e'' : Engine} (h : SameChain e e') (h' : SameChain e' e'') :
    SameChain e e'' :=
  ⟨h'.genesis.trans h.genesis, h'.entries.trans h.entries, h'.tracked.trans h.tracked,
    h'.lastAccepted.trans h.lastAccepted, h'.preferred.trans h.preferred,
    h'.rejected.trans h.rejected⟩

variable {e e' : Engine}

/-- `SameChain` states track the same blocks. -/
theorem isTracked_eq (h : SameChain e e') (id : Hash) : e'.isTracked id = e.isTracked id := by
  rw [isTracked, isTracked, h.tracked]

/-- `SameChain` states store the same blocks. -/
theorem isStored_eq (h : SameChain e e') (id : Hash) : e'.isStored id = e.isStored id := by
  rw [isStored, isStored, h.entries]

/-- `SameChain` states remember the same blocks as rejected. -/
theorem isRejected_eq (h : SameChain e e') (id : Hash) : e'.isRejected id = e.isRejected id := by
  rw [isRejected, isRejected, h.rejected]

/-- `SameChain` states find the same blocks. -/
theorem find?_eq (h : SameChain e e') : e'.find? = e.find? := by
  funext id
  simp only [find?, h.tracked, h.lastAccepted, h.entries]

/-- `SameChain` states show the same view behind a block. -/
theorem viewFrom_eq (h : SameChain e e') (id : Hash) : e'.viewFrom id = e.viewFrom id := by
  simp only [viewFrom, layers, h.tracked, h.entries]

/-- `SameChain` states derive the same context for a child of a block. -/
theorem contextAfter_eq (h : SameChain e e') (parent : Block) (now : UInt64) :
    e'.contextAfter parent now = e.contextAfter parent now := by
  simp only [contextAfter, h.find?_eq, knownBlocks, h.genesis, h.tracked, h.entries]

/-- `SameChain` states check a block alike, so that they verify it alike. -/
theorem checkBlock_eq (h : SameChain e e') (clock : UInt64) (block : Block) :
    e'.checkBlock clock block = e.checkBlock clock block := by
  simp only [checkBlock, openParent, h.find?_eq, h.isTracked_eq, h.lastAccepted, h.contextAfter_eq,
    h.viewFrom_eq, h.genesis]

/-- `attach` keeps states on the `SameChain`. -/
theorem attach (h : SameChain e e') (block parent : Block) (verified : Verified) :
    SameChain (e.attach block parent verified) (e'.attach block parent verified) :=
  ⟨h.genesis, h.entries, by simp only [Engine.attach, h.tracked], h.lastAccepted, h.preferred,
    h.rejected⟩

end SameChain

/-- The state after a tracked block's changes reached the store and it became the last accepted. -/
def committed (e : Engine) (id : Hash) (entry : Tracked) (changes : Changes) : Engine :=
  { e with store := { e.store with entries := e.store.entries.apply changes } }.settle id entry

end Engine

/-- What a request can do to the blocks of a state and to the history. -/
inductive Transition (h : History) (e : Engine) : History → Engine → Prop where
  | quiet {e' : Engine} (same : e.SameChain e') : Transition h e h e'
  /-- A block that was known before, or that fails verification. -/
  | name {e' : Engine} {block : Block} (framed : block.IsFramed Engine.framing)
      (same : e.SameChain e') : Transition h e (h.name block) e'
  /-- A tracked block is parsed again. -/
  | rename {e' : Engine} {id : Hash} {entry : Tracked} (found : e.tracked[id]? = some entry)
      (same : e.SameChain e') : Transition h e (h.name entry.block) e'
  | track {e' : Engine} {block : Block} (framed : block.IsFramed Engine.framing)
      (untracked : e.tracked[block.id]? = none) (unrejected : ¬e.isRejected block.id = true)
      (unstored : ¬e.isStored block.id = true)
      (same : Engine.SameChain
        { e with tracked := e.tracked.insert block.id ⟨block, none, []⟩ } e') :
      Transition h e (h.name block) e'
  /-- A block that is accepted already passes verification. -/
  | recheck {e' : Engine} {block : Block} (framed : block.IsFramed Engine.framing)
      (stored : e.isStored block.id = true) (same : e.SameChain e') :
      Transition h e (h.verify block) e'
  | attach {e' : Engine} {clock : UInt64} {block parent : Block} {verified : Verified}
      (framed : block.IsFramed Engine.framing) (unrejected : ¬e.isRejected block.id = true)
      (known : e.isTracked block.id = true ∨ ¬e.isStored block.id = true)
      (check : e.checkBlock clock block = .ok (parent, verified))
      (same : (e.attach block parent verified).SameChain e') :
      Transition h e (h.verify block) e'
  | commit {e' : Engine} {id : Hash} {entry : Tracked} {changes : Changes}
      (found : e.tracked[id]? = some entry)
      (acceptable : Engine.acceptable id entry = .ok changes)
      (same : (e.committed id entry changes).SameChain e') :
      Transition h e (h.accept entry.block) e'
  | forget {e' : Engine} {id : Hash} {entry : Tracked} (found : e.tracked[id]? = some entry)
      (same : (e.forget id entry.block).SameChain e') : Transition h e h e'
  | prefer {e' : Engine} {id : Hash} (known : e.isTracked id = true ∨ e.lastAccepted.id = id)
      (same : Engine.SameChain { e with preferred := id } e') : Transition h e h e'
  | reopen {e' : Engine} {settings : Settings} {g : Genesis} {tip : Block}
      (stored : Engine.storedState e.store.entries = .ok (g, tip))
      (same : (Engine.atRest g settings e.store tip).SameChain e') : Transition h e h e'

namespace Engine

/-! ## Requests that leave the blocks alone -/

/-- `submit` touches the pool and what is told to others, and no block. -/
theorem sameChain_submit (e : Engine) (clock : UInt64) (tx : Transaction) :
    e.SameChain (e.submit clock tx).2 := by
  simp only [submit]
  split
  · exact .refl e
  · simp only [enqueue]
    split <;> exact ⟨rfl, rfl, rfl, rfl, rfl, rfl⟩

/-- `submitAll` leaves the blocks alone. -/
theorem sameChain_submitAll (clock : UInt64) (txs : List Transaction) (count : Nat) (e : Engine) :
    e.SameChain (submitAll clock txs count e).2 := by
  -- induction on the transactions, with the state generalized, as each is submitted to what the
  -- last one left
  induction txs generalizing count e with
  | nil => exact .refl e
  | cons tx txs ih =>
    have hsubmit := sameChain_submit e clock tx
    simp only [submitAll]
    split <;> next h => exact SameChain.trans (by rwa [h] at hsubmit) (ih _ _)

/-- `receiveGossip` leaves the blocks alone, whether or not the payload can be read. -/
theorem sameChain_receiveGossip (e : Engine) (clock : UInt64) (payload : Bytes) :
    e.SameChain (e.receiveGossip clock payload).2 := by
  simp only [receiveGossip]
  split
  · exact .refl e
  · exact sameChain_submitAll _ _ _ _

/-- `readd` leaves the blocks alone. -/
theorem sameChain_readd (e : Engine) (clock : UInt64) (txs : List Transaction) :
    e.SameChain (e.readd clock txs) := by
  -- induction on the transactions; each is added to the pool or not
  induction txs generalizing e with
  | nil => exact .refl e
  | cons tx txs ih =>
    rw [readd, List.foldl_cons]
    refine SameChain.trans ?_ (ih _)
    split <;> exact ⟨rfl, rfl, rfl, rfl, rfl, rfl⟩

/-- `pruneMempool` leaves the blocks alone. -/
theorem sameChain_pruneMempool (e : Engine) (clock : UInt64) :
    e.SameChain (e.pruneMempool clock).2 := by
  simp only [pruneMempool]
  split <;> exact ⟨rfl, rfl, rfl, rfl, rfl, rfl⟩

/-- The content of the block that building will frame and verify, and the state before it does. -/
def draft (e : Engine) (clock : UInt64) : Except EngineError BlockContent × Engine :=
  match e.buildPlan clock with
  | .error cause => (.error cause, e)
  | .ok (parent, now, context) =>
    let pruned := { e with mempool := (e.mempool.prune context.recentBlocks.contains).2 }
    match pruned.viewFrom parent.id with
    | .error cause => (.error cause, pruned)
    | .ok view =>
      let selection := Selection.select e.genesis context now e.genesis.targetBlockSize.toNat
        (Overlay.on view) (pruned.mempool.top pruned.mempool.size)
      let cleaned := pruned.discardTxs selection.dropped
      match assemble parent context now selection.taken with
      | .error cause => (.error cause, cleaned)
      | .ok content => (.ok content, cleaned.discardTxs selection.taken)

/-- `build` is `draft` and then `finishBlock`. -/
theorem build_eq_finishBlock (e : Engine) (clock : UInt64) :
    e.build clock =
      match e.draft clock with
      | (.error cause, e') => (.error cause, e')
      | (.ok content, e') => e'.finishBlock clock content := by
  -- the two take the same steps up to the content
  simp only [build, draft]
  cases e.buildPlan clock with
  | error cause => rfl
  | ok plan =>
    obtain ⟨parent, now, context⟩ := plan
    simp only []
    cases Engine.viewFrom { e with mempool :=
      (e.mempool.prune context.recentBlocks.contains).2 } parent.id with
    | error cause => rfl
    | ok view =>
      simp only []
      generalize assemble parent context now _ = content
      cases content <;> rfl

/-- `draft` removes transactions from the pool and leaves the blocks alone. -/
theorem sameChain_draft (e : Engine) (clock : UInt64) : e.SameChain (e.draft clock).2 := by
  simp only [draft]
  -- in each branch the pool is all that differs
  split
  · exact .refl e
  · split
    · exact ⟨rfl, rfl, rfl, rfl, rfl, rfl⟩
    · split <;> exact ⟨rfl, rfl, rfl, rfl, rfl, rfl⟩

end Engine

/-! ## Requests one by one -/

namespace Transition

variable {h : History} {e : Engine} {clock : UInt64}

/-- `parse` tracks a block that is not known in any way, or leaves the blocks alone. -/
theorem of_parse (bytes : Bytes) :
    Transition h e (h.record e clock (.parse bytes)) (e.after clock (.parse bytes)) := by
  -- bytes that are no frame name no block
  cases hblock : Block.ofBytes Engine.framing bytes with
  | error cause =>
    simp only [History.record, Engine.after, Engine.parse, hblock]
    exact .quiet (.refl e)
  | ok block =>
    -- a block is tracked unless it is tracked, rejected or accepted already
    have hframed := Block.isFramed_of_ofBytes hblock
    cases htracked : e.tracked[block.id]? with
    | some entry =>
      simp only [History.record, Engine.after, Engine.parse, hblock, htracked]
      exact .rename htracked (.refl e)
    | none =>
      by_cases hknown : (e.isRejected block.id || e.isStored block.id) = true
      · simp only [History.record, Engine.after, Engine.parse, hblock, htracked, if_pos hknown]
        exact .name hframed (.refl e)
      · simp only [History.record, Engine.after, Engine.parse, hblock, htracked, if_neg hknown]
        simp only [Bool.or_eq_true, not_or] at hknown
        exact .track hframed htracked hknown.1 hknown.2 (.refl _)

/-- What `verify` answers, and what it does to the blocks. -/
theorem verify_cases (e : Engine) (clock : UInt64) (block : Block) :
    (∃ cause, e.verify clock block = (.error cause, e)) ∨
    (e.isStored block.id = true ∧ e.verify clock block = (.ok (), e)) ∨
    ∃ parent verified, (e.isTracked block.id = true ∨ ¬e.isStored block.id = true) ∧
      e.checkBlock clock block = .ok (parent, verified) ∧
      e.verify clock block = (.ok (), e.attach block parent verified) := by
  simp only [Engine.verify]
  -- the checks come in this order: rejected before, accepted already, and then the block itself
  split
  · exact .inl ⟨_, rfl⟩
  · split
    · next hstored =>
      simp only [Bool.and_eq_true, Bool.not_eq_true'] at hstored
      exact .inr (.inl ⟨hstored.2, rfl⟩)
    · next hknown =>
      -- a block that is in the store alone was accepted, and the case before took those
      have hknown' : e.isTracked block.id = true ∨ ¬e.isStored block.id = true := by
        simp only [Bool.and_eq_true, Bool.not_eq_true', not_and] at hknown
        by_cases htracked : e.isTracked block.id = true
        · exact .inl htracked
        · exact .inr (hknown (Bool.eq_false_iff.2 htracked))
      split
      · exact .inl ⟨_, rfl⟩
      · next parent verified hcheck => exact .inr (.inr ⟨parent, verified, hknown', hcheck, rfl⟩)

/-- A block that passes `verify` is not remembered as rejected. -/
theorem not_isRejected_of_verify {block : Block} (h : (e.verify clock block).1 = .ok ()) :
    ¬e.isRejected block.id = true := by
  intro hrejected
  rw [Engine.verify, if_pos hrejected] at h
  cases h

/-- `verify` attaches changes, or leaves the blocks alone. -/
theorem of_verify {block : Block} (hframed : block.IsFramed Engine.framing) :
    Transition h e (h.record e clock (.verify block)) (e.after clock (.verify block)) := by
  -- one transition for each of the answers
  rcases verify_cases e clock block with ⟨cause, hv⟩ | ⟨hstored, hv⟩ |
    ⟨parent, verified, hknown, hcheck, hv⟩
  · simp only [History.record, Engine.after, hv]
    exact .name hframed (.refl e)
  · simp only [History.record, Engine.after, hv]
    exact .recheck hframed hstored (.refl e)
  · simp only [History.record, Engine.after, hv]
    have hunrejected := not_isRejected_of_verify (congrArg Prod.fst hv)
    exact .attach hframed hunrejected hknown hcheck (.refl _)

/-- `accept` commits the changes of a block, or leaves the blocks alone. -/
theorem of_accept (id : Hash) :
    Transition h e (h.record e clock (.accept id)) (e.after clock (.accept id)) := by
  -- each early exit leaves the state as it was; only the last case writes
  cases hentry : e.tracked[id]? with
  | none =>
    simp only [History.record, Engine.after, Engine.accept, hentry]
    split <;> exact .quiet (.refl e)
  | some entry =>
    by_cases hrejected : e.isRejected id = true
    · simp only [History.record, Engine.after, Engine.accept, hentry, if_pos hrejected]
      exact .quiet (.refl e)
    cases hchanges : Engine.acceptable id entry with
    | error cause =>
      simp only [History.record, Engine.after, Engine.accept, hentry, if_neg hrejected, hchanges]
      exact .quiet (.refl e)
    | ok changes =>
      -- the changes reach the store unless the medium refuses them
      cases hrefusals : e.store.refusals with
      | zero =>
        simp only [History.record, Engine.after, Engine.accept, hentry, if_neg hrejected, hchanges,
          Store.commit, hrefusals]
        refine .commit hentry hchanges ?_
        exact ⟨rfl, rfl, rfl, rfl, rfl, rfl⟩
      | succ refusals =>
        simp only [History.record, Engine.after, Engine.accept, hentry, if_neg hrejected, hchanges,
          Store.commit, hrefusals]
        exact .quiet ⟨rfl, rfl, rfl, rfl, rfl, rfl⟩

/-- `reject` forgets a tracked block, or leaves the blocks alone. -/
theorem of_reject (id : Hash) : Transition h e h (e.reject clock id).2 := by
  simp only [Engine.reject]
  split
  · exact .quiet (.refl e)
  · split
    · exact .quiet (.refl e)
    · next entry hentry =>
      -- whether or not transactions come back, only the pool and the notices differ
      refine .forget hentry ?_
      have hnotify (e' : Engine) : e'.SameChain (e'.notify (.rejected id)) :=
        ⟨rfl, rfl, rfl, rfl, rfl, rfl⟩
      split
      · exact (Engine.sameChain_readd _ clock entry.block.txs).trans (hnotify _)
      · exact hnotify _

/-- `prefer` moves the preference to a known block, or leaves everything alone. -/
theorem of_prefer (id : Hash) : Transition h e h (e.prefer id).2 := by
  simp only [Engine.prefer]
  split
  · next hknown => exact .prefer hknown (.refl _)
  · exact .quiet (.refl e)

/-- Before the block that was built is verified, `build` leaves the blocks alone. -/
theorem of_finishBlock {e' : Engine} (same : e.SameChain e') (content : BlockContent) :
    Transition h e
      (match (e'.finishBlock clock content).1 with | .ok block => h.verify block | .error _ => h)
      (e'.finishBlock clock content).2 := by
  cases hblock : Block.ofContent Engine.framing content with
  | error cause =>
    simp only [Engine.finishBlock, hblock]
    exact .quiet same
  | ok block =>
    have hframed := (Block.ofContent_eq_ok_iff.1 hblock).2
    -- the draft decides about blocks as the state before it did, so that the cases carry over
    rcases verify_cases e' clock block with ⟨cause, hv⟩ | ⟨hstored, hv⟩ |
      ⟨parent, verified, hknown, hcheck, hv⟩
    · simp only [Engine.finishBlock, hblock, hv]
      exact .quiet same
    · simp only [Engine.finishBlock, hblock, hv]
      rw [same.isStored_eq] at hstored
      exact .recheck hframed hstored (same.trans ⟨rfl, rfl, rfl, rfl, rfl, rfl⟩)
    · simp only [Engine.finishBlock, hblock, hv]
      have hunrejected := not_isRejected_of_verify (congrArg Prod.fst hv)
      rw [same.isRejected_eq] at hunrejected
      rw [same.isTracked_eq, same.isStored_eq] at hknown
      rw [same.checkBlock_eq] at hcheck
      exact .attach hframed hunrejected hknown hcheck
        ((same.attach block parent verified).trans ⟨rfl, rfl, rfl, rfl, rfl, rfl⟩)

/-- `build` is the verification of the block that was built, if it came to one. -/
theorem of_build : Transition h e (h.record e clock .build) (e.after clock .build) := by
  have hsame := Engine.sameChain_draft e clock
  simp only [History.record, Engine.after, Engine.build_eq_finishBlock]
  generalize e.draft clock = drafted at hsame ⊢
  obtain ⟨content, e'⟩ := drafted
  cases content with
  | error cause => exact .quiet hsame
  | ok content => exact of_finishBlock hsame content

/-- `reopen` starts over from what is stored. -/
theorem of_reopen (g : Genesis) (settings : Settings)
    (hinit : e.store.entries.contains StoreKey.initialized = true) :
    Transition h e h (e.after clock (.reopen g settings)) := by
  simp only [Engine.after, Engine.start, if_pos hinit]
  -- opening succeeds only on a store whose facts can be read, and otherwise the engine goes on as
  -- it is
  split
  · next opened hopened =>
    split at hopened
    · cases hopened
    · next g' tip hstored =>
      obtain rfl := Except.ok.inj hopened
      exact .reopen hstored (.refl _)
  · exact .quiet (.refl e)

/-- Every `WellFormed` request is a `Transition`. -/
theorem of_request {request : Request} (hform : request.WellFormed)
    (hinit : e.store.entries.contains StoreKey.initialized = true) :
    Transition h e (h.record e clock request) (e.after clock request) := by
  -- one constructor per kind of request; what is told to others or counted is quiet
  cases request with
  | parse bytes => exact of_parse bytes
  | verify block => exact of_verify hform
  | accept id => exact of_accept id
  | reject id => exact of_reject id
  | prefer id => exact of_prefer id
  | build => exact of_build
  | submit tx => exact .quiet (e.sameChain_submit clock tx)
  | gossip payload => exact .quiet (e.sameChain_receiveGossip clock payload)
  | prune => exact .quiet (e.sameChain_pruneMempool clock)
  | takeFresh => exact .quiet ⟨rfl, rfl, rfl, rfl, rfl, rfl⟩
  | takeNotices => exact .quiet ⟨rfl, rfl, rfl, rfl, rfl, rfl⟩
  | signal => exact .quiet ⟨rfl, rfl, rfl, rfl, rfl, rfl⟩
  | reopen g settings => exact of_reopen g settings hinit
  | refuse count => exact .quiet ⟨rfl, rfl, rfl, rfl, rfl, rfl⟩

/-- A history that is `Linear` after a `Transition` was so before. -/
theorem linear {h' : History} {e' : Engine} (ht : Transition h e h' e') (hlinear : h'.Linear) :
    h.Linear := by
  cases ht with
  | commit => exact List.IsChain.tail hlinear
  | _ => exact hlinear

end Transition

end LeaseChain
