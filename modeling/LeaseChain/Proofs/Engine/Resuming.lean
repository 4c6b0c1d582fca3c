import LeaseChain.Engine.Query
import LeaseChain.Proofs.Engine.Lookback
import LeaseChain.Proofs.Engine.Pedigree

/-!
# Reopening resumes the chain

An engine that is opened on a store knows of the chain what the store holds: the genesis document,
the pointer to the last accepted block, the blocks and the ledger. That is all that the answers
about accepted state depend on, and as the lineage of an accepted block is in the store too, the
walk back from it takes the same blocks as before, now all of them from the store.

## Key results

- `Coherent.start_eq`: what opening the store of a coherent state gives
- `Coherent.executionContext_tip`: the context of a child of the last accepted block
- `Reach.resumes`: the opened engine answers as the one before it
-/

namespace LeaseChain

variable {g : Genesis} {h : History} {e e' : Engine}

namespace Engine

/-- Two engines give the same answers about accepted state. -/
structure SameAnswers (e e' : Engine) : Prop where
  leaseInfo : ∀ name, e'.leaseInfo name = e.leaseInfo name
  resolve : ∀ name key, e'.resolve name key = e.resolve name key
  range : ∀ name, e'.range name = e.range name
  balance : ∀ holder, e'.balance holder = e.balance holder
  confirmedIn : ∀ txId, e'.confirmedIn txId = e.confirmedIn txId

/-- `SameAnswers` holds where the durable entries and `lastAccepted` are the same. -/
theorem SameAnswers.of_eq (hentries : e'.store.entries = e.store.entries)
    (htip : e'.lastAccepted = e.lastAccepted) : SameAnswers e e' := by
  have hdurable : e'.durable = e.durable := by rw [durable, durable, hentries]
  have hlease (name : String) : e'.leaseInfo name = e.leaseInfo name := by
    rw [Engine.leaseInfo, Engine.leaseInfo, hdurable, htip]
  -- every query reads the durable table, and a lease is judged at the tip's time
  constructor
  · exact hlease
  · intro name key
    rw [Engine.resolve, Engine.resolve, hlease, hdurable]
  · intro name
    rw [Engine.range, Engine.range, hlease, hdurable]
  · intro holder
    rw [Engine.balance, Engine.balance, hdurable]
  · intro txId
    rw [Engine.confirmedIn, Engine.confirmedIn, hdurable]

end Engine

namespace Coherent

variable (hc : Coherent g h e)

include hc

/-- `start` opens the store of a coherent state, whatever the parameters, and leaves it as it is. -/
theorem start_eq (g' : Genesis) (settings : Settings) :
    Engine.start g' settings e.store =
      (.ok (Engine.atRest g settings e.store e.lastAccepted), e.store) := by
  have hinit : e.store.entries.contains StoreKey.initialized = true := by
    rw [Std.ExtTreeMap.contains_eq_isSome_getElem?, hc.settled.initialized]
    rfl
  rw [Engine.start, if_pos hinit, hc.settled.storedState_eq hc.sound]

/-- `executionContext` after the last accepted block follows from the block's lineage. -/
theorem executionContext_tip (hfree : h.CollisionFree) {path : List Block}
    (hl : h.Lineage (e.lastAccepted :: path)) (hext : History.Extending (e.lastAccepted :: path))
    (now : UInt64) : e.executionContext e.lastAccepted.id now =
      .ok (BlockContext.ofWindow g now e.lastAccepted
        (e.lastAccepted :: BlockContext.reached g now path)) := by
  have htip := hc.settled.tip_mem_chain
  have hfind : e.find e.lastAccepted.id = .ok e.lastAccepted := by
    rw [Engine.find, hc.find?_of_isKnown hfree (hc.sound.mem_blocks_of_mem_chain htip)
      (hc.isKnown_of_mem_chain htip)]
    rfl
  have hsub := hl.subset_chain hc.sound hfree htip
  rw [Engine.executionContext, hfind, Except.ok_bind]
  exact hc.contextAfter_eq_ok hfree hl hext (fun a ha => hc.isKnown_of_mem_chain (hsub ha)) now

end Coherent

/--
At every point of a run, `start` opens the store with whatever parameters and settings, and leaves
it as it is. The engine it gives has the parameters of the first start and the same `lastAccepted`,
which it prefers. It has the `SameAnswers`, and both of them find the same `executionContext` behind
the last accepted block at any time.
-/
theorem Reach.resumes (hreach : Reach g h e) (hfree : h.CollisionFree) (g' : Genesis)
    (settings : Settings) :
    ∃ opened, Engine.start g' settings e.store = (.ok opened, e.store) ∧
      opened.genesis = g ∧ opened.lastAccepted = e.lastAccepted ∧
      opened.preferred = e.lastAccepted.id ∧ e.SameAnswers opened ∧
      ∀ now, ∃ context, e.executionContext e.lastAccepted.id now = .ok context ∧
        opened.executionContext opened.lastAccepted.id now = .ok context := by
  have hc := hreach.coherent hfree
  have hopened := hc.reopen settings
  -- the last accepted block has a lineage, which is the same for both
  obtain ⟨path, hp⟩ := hreach.pedigree hfree e.lastAccepted
    (hc.sound.verified_of_mem_chain hc.settled.tip_mem_chain)
  exact ⟨_, hc.start_eq g' settings, rfl, rfl, rfl, .of_eq rfl rfl, fun now =>
    ⟨_, hc.executionContext_tip hfree hp.lineage hp.extending now,
      hopened.executionContext_tip hfree hp.lineage hp.extending now⟩⟩

/-- `start` opens the store of one of two siblings with the parameters of the first start. -/
theorem Siblings.resumes_forked :
    Reach genesis forked.1 forked.2 ∧ forked.1.CollisionFree ∧
    ∃ opened, Engine.start { genesis with magic := 1 } {} forked.2.store =
        (.ok opened, forked.2.store) ∧
      opened.genesis = genesis ∧ opened.lastAccepted = forked.2.lastAccepted := by
  obtain ⟨opened, hstart, hgenesis, htip, -⟩ :=
    reach_forked.resumes collisionFree_forked { genesis with magic := 1 } {}
  exact ⟨reach_forked, collisionFree_forked, opened, hstart, hgenesis, htip⟩

end LeaseChain
