import LeaseChain.Proofs.Engine.Disposal
import LeaseChain.Proofs.Engine.Finality
import LeaseChain.Proofs.Engine.Preference
import LeaseChain.Proofs.Engine.Rebasing

/-!
# Finalizing what is pending

A node without consensus builds a block, accepts it and prefers it, and starts over until nothing
more can be built. Nothing counts these rounds. They end because a round takes a transaction out of
the pool and puts none back, and because its block is later than the one before while no block is
later than the clock allows.

## Key results

- `Engine.Rounds`, `Engine.LastAttempt`: what finalizing does, with no bound on the rounds
- `Reach.size_round_lt`: a round leaves fewer transactions pending
- `Reach.exists_rounds`: finalizing goes through rounds and ends
- `Reach.extends_of_round`: a round puts a child on the last accepted block
- `Reach.length_rounds_le`, `Reach.length_rounds_le_ten`: two bounds on the rounds
- `Reach.finalizePending_advances`: how far finalizing gets
-/

namespace LeaseChain

variable {g : Genesis} {h : History} {e e' m : Engine} {clock : UInt64} {block : Block}
  {blocks : List Block}

namespace Engine

/-- A block is built, accepted and preferred. -/
structure Round (clock : UInt64) (e : Engine) (block : Block) (e' : Engine) : Prop where
  built : (e.build clock).1 = .ok block
  accepted : ((e.build clock).2.accept block.id).1 = .ok ()
  preferred : ((e.build clock).2.accept block.id).2.prefer block.id = (.ok (), e')

/-- Rounds one after the other, with their blocks, the oldest first. -/
inductive Rounds (clock : UInt64) : Engine → List Block → Engine → Prop where
  | nil {e : Engine} : Rounds clock e [] e
  | cons {e m e' : Engine} {block : Block} {blocks : List Block} (round : Round clock e block m)
      (rest : Rounds clock m blocks e') : Rounds clock e (block :: blocks) e'

/-- `Rounds` of one block are one `Round`. -/
theorem Rounds.exists_round (hrounds : e.Rounds clock blocks e') (hone : blocks.length = 1) :
    ∃ block, blocks = [block] ∧ e.Round clock block e' := by
  cases hrounds with
  | nil => cases hone
  | cons round rest =>
    cases rest with
    | nil => exact ⟨_, rfl, round⟩
    | cons _ _ => cases hone

/-- The attempt after which there is no other round: what it answers, and the state it leaves. -/
inductive LastAttempt (clock : UInt64) (e : Engine) (count : Nat) :
    Except EngineError Nat × Engine → Prop where
  /-- Nothing more can be built for now. -/
  | idle {cause : EngineError} {e' : Engine} (build : e.build clock = (.error cause, e'))
      (idle : isIdle cause = true) : LastAttempt clock e count (.ok count, e')
  | unbuilt {cause : EngineError} {e' : Engine} (build : e.build clock = (.error cause, e'))
      (broken : isIdle cause = false) : LastAttempt clock e count (.error cause, e')
  | unaccepted {block : Block} {cause : EngineError} {m e' : Engine}
      (build : e.build clock = (.ok block, m)) (accept : m.accept block.id = (.error cause, e')) :
      LastAttempt clock e count (.error cause, e')
  | unpreferred {block : Block} {cause : EngineError} {m m' e' : Engine}
      (build : e.build clock = (.ok block, m)) (accept : m.accept block.id = (.ok (), m'))
      (prefer : m'.prefer block.id = (.error cause, e')) :
      LastAttempt clock e count (.error cause, e')

end Engine

/-! ## Rounds are requests -/

/-- `build` leads from a state of `Reach` to another. -/
theorem Reach.build (hreach : Reach g h e) (clock : UInt64) :
    Reach g (h.record e clock .build) (e.build clock).2 :=
  @Reach.call g h e clock .build trivial hreach

/-- `prefer` leads from a state of `Reach` to another, and adds nothing to the history. -/
theorem Reach.prefer (hreach : Reach g h e) (clock : UInt64) (id : Hash) :
    Reach g h (e.prefer id).2 :=
  @Reach.call g h e clock (.prefer id) trivial hreach

/-- A `Round` leads from a state of `Reach` to another. -/
theorem Reach.round (hreach : Reach g h e) (hround : e.Round clock block e') :
    Reach g ((h.record e clock .build).record (e.build clock).2 clock (.accept block.id)) e' := by
  have hrequests := ((hreach.build clock).accept clock block.id).prefer clock block.id
  rwa [hround.preferred] at hrequests

/-! ## Rounds use transactions up -/

theorem Mempool.Consistent.size_removeAll_le {α : Type} [Pooled α] {pool : Mempool α}
    (hc : pool.Consistent) (ids : List Hash) : (pool.removeAll ids).size ≤ pool.size := by
  obtain ⟨items, hshows⟩ := hc.exists_shows
  rw [(hshows.removeAll ids).size_eq, hshows.size_eq]
  exact List.length_filter_le _ _

/-- `accept` takes at most the transactions of the block out of the pool. -/
theorem Engine.mempool_accept (e : Engine) (id : Hash) :
    ∃ ids, (e.accept id).2.mempool = e.mempool.removeAll ids := by
  have hsame : e.mempool = e.mempool.removeAll [] := rfl
  unfold accept
  -- whatever stops the acceptance, the pool is left alone
  split
  · exact ⟨[], hsame⟩
  split
  · exact ⟨[], hsame⟩
  · next entry _ =>
    split
    · exact ⟨[], hsame⟩
    · split
      · exact ⟨[], hsame⟩
      · exact ⟨entry.block.txs.map (·.id), rfl⟩

/-- `prefer` leaves the pool alone. -/
theorem Engine.mempool_prefer (e : Engine) (id : Hash) : (e.prefer id).2.mempool = e.mempool := by
  unfold prefer
  split <;> rfl

/-- A `build` that gives a block takes its transactions out of the pool, and at least one. -/
theorem Reach.size_build_lt (hreach : Reach g h e) (hbuild : (e.build clock).1 = .ok block) :
    (e.build clock).2.mempool.size < e.mempool.size := by
  obtain ⟨_, _, _, hd⟩ := Engine.exists_draftedOn (Engine.drafted_of_build hbuild)
  obtain ⟨pending, hbefore⟩ := hreach.pooled.consistent.exists_shows
  -- the pool before is what was pruned, the block, what was dropped and the pool after
  obtain ⟨left, hafter, hparts, -⟩ := hd.exists_remaining hbuild hbefore
  have hlength := hparts.length_eq
  have hnonempty : 0 < block.txs.length := List.length_pos_iff.2 hd.nonempty
  simp only [List.length_append] at hlength
  rw [hafter.size_eq, hbefore.size_eq]
  show left.items.length < pending.length
  omega

theorem Reach.size_round_lt (hreach : Reach g h e) (hround : e.Round clock block e') :
    e'.mempool.size < e.mempool.size := by
  have hbuild := hreach.size_build_lt hround.built
  obtain ⟨ids, haccept⟩ := (e.build clock).2.mempool_accept block.id
  -- accepting takes out what else is in the block, and preferring nothing
  have hprefer := ((e.build clock).2.accept block.id).2.mempool_prefer block.id
  rw [hround.preferred, haccept] at hprefer
  have hle := (hreach.build clock).pooled.consistent.size_removeAll_le ids
  rw [← hprefer] at hle
  exact Nat.lt_of_le_of_lt hle hbuild

/-- There are no more `Rounds` than pending transactions. -/
theorem Reach.length_rounds_le (hreach : Reach g h e) (hrounds : e.Rounds clock blocks e') :
    blocks.length + e'.mempool.size ≤ e.mempool.size := by
  -- induction on the rounds, each of which uses up one transaction at least
  induction hrounds generalizing h with
  | nil => simp
  | cons round _ ih =>
    have hlt := hreach.size_round_lt round
    have hle := ih (hreach.round round)
    rw [List.length_cons]
    omega

/-! ## Finalizing ends -/

/-- One step of `finalizeUpTo` is a `LastAttempt`, or a `Round` from which it goes on. -/
theorem Engine.finalizeUpTo_succ (clock : UInt64) (limit count : Nat) (e : Engine) :
    e.LastAttempt clock count (finalizeUpTo clock (limit + 1) count e) ∨
    ∃ block m, e.Round clock block m ∧
      finalizeUpTo clock (limit + 1) count e = finalizeUpTo clock limit (count + 1) m := by
  -- one case for each of the three calls of a round: only when all three succeed does the loop go
  -- on
  rcases hbuild : e.build clock with ⟨cause | block, built⟩
  · left
    simp only [finalizeUpTo, hbuild]
    by_cases hidle : isIdle cause = true
    · rw [if_pos hidle]
      exact .idle hbuild hidle
    · rw [if_neg hidle]
      exact .unbuilt hbuild (Bool.eq_false_iff.2 hidle)
  rcases haccept : built.accept block.id with ⟨cause | _, accepted⟩
  · left
    simp only [finalizeUpTo, hbuild, haccept]
    exact .unaccepted hbuild haccept
  rcases hprefer : accepted.prefer block.id with ⟨cause | _, preferred⟩
  · left
    simp only [finalizeUpTo, hbuild, haccept, hprefer]
    exact .unpreferred hbuild haccept hprefer
  · right
    refine ⟨block, preferred, ⟨?_, ?_, ?_⟩, ?_⟩
    · rw [hbuild]
    · rw [hbuild, haccept]
    · rw [hbuild, haccept, hprefer]
    · simp only [finalizeUpTo, hbuild, haccept, hprefer]

/-- With more attempts than there are transactions, `finalizeUpTo` ends by itself. -/
theorem Reach.exists_rounds_upTo (hreach : Reach g h e) (clock : UInt64) (limit count : Nat)
    (hlimit : e.mempool.size < limit) : ∃ blocks m, e.Rounds clock blocks m ∧
      m.LastAttempt clock (count + blocks.length) (Engine.finalizeUpTo clock limit count e) := by
  -- induction on the attempts that are left; each round leaves a smaller pool for the rest
  induction limit generalizing h e count with
  | zero => omega
  | succ limit ih =>
    rcases Engine.finalizeUpTo_succ clock limit count e with hlast | ⟨block, m, hround, heq⟩
    · exact ⟨[], e, .nil, hlast⟩
    · have hlt := hreach.size_round_lt hround
      obtain ⟨blocks, e', hrounds, hlast⟩ := ih (hreach.round hround) (count + 1) (by omega)
      refine ⟨block :: blocks, e', .cons hround hrounds, ?_⟩
      rw [heq, List.length_cons, Nat.add_comm blocks.length, ← Nat.add_assoc]
      exact hlast

/-- `finalizePending` goes through `Rounds` and ends with a `LastAttempt`. -/
theorem Reach.exists_rounds (hreach : Reach g h e) (clock : UInt64) :
    ∃ blocks m, e.Rounds clock blocks m ∧
      m.LastAttempt clock blocks.length (e.finalizePending clock) := by
  -- one more attempt is allowed than there are transactions, and each round uses one up at least
  obtain ⟨blocks, m, hrounds, hlast⟩ :=
    hreach.exists_rounds_upTo clock (e.mempool.size + 1) 0 (Nat.lt_succ_self _)
  rw [Nat.zero_add] at hlast
  exact ⟨blocks, m, hrounds, hlast⟩

/-! ## Rounds put blocks on the chain -/

/-- The block that `build` gives stands on the preferred one, and is tracked. -/
theorem Reach.tracked_build (hreach : Reach g h e) (hfree : (h.name block).CollisionFree)
    (hbuild : (e.build clock).1 = .ok block) : block.parentId = e.preferred ∧
    ∃ entry, (e.build clock).2.tracked[block.id]? = some entry ∧ entry.block = block := by
  have hunrejected : ¬e.isRejected block.id = true := by
    obtain ⟨e', hverify, -⟩ := Engine.build_eq_ok hbuild
    rw [← (e.sameChain_draft clock).isRejected_eq]
    exact Transition.not_isRejected_of_verify (congrArg Prod.fst hverify)
  obtain ⟨-, hparent, _, _, -, -, entry, hentry, hblock, -⟩ :=
    hreach.build_drafted hfree (Engine.drafted_of_build hbuild) hunrejected
  exact ⟨hparent, entry, hentry, hblock⟩

theorem Engine.lastAccepted_prefer (e : Engine) (id : Hash) :
    (e.prefer id).2.lastAccepted = e.lastAccepted := by
  unfold prefer
  split <;> rfl

/-- A preferred block that is on `h.chain` is `lastAccepted`. -/
theorem Coherent.preferred_eq (hc : Coherent g h e) {p : Block} (hp : p ∈ h.chain)
    (hpreferred : p.id = e.preferred) :
    e.preferred = e.lastAccepted.id ∧ e.preferredBlock = .ok e.lastAccepted := by
  -- accepted blocks are not tracked
  have huntracked : e.tracked[e.preferred]? = none := by
    rw [Option.eq_none_iff_forall_ne_some]
    exact fun entry hentry => (hc.arranged.tracked hentry).2.2 p hp hpreferred
  have htip : e.preferred = e.lastAccepted.id := by
    refine hc.arranged.preferred.resolve_left fun htracked => ?_
    obtain ⟨entry, hentry⟩ := Engine.isTracked_iff.1 htracked
    rw [huntracked] at hentry
    cases hentry
  refine ⟨htip, ?_⟩
  rw [Engine.preferredBlock, Engine.find_eq_ok_iff, Engine.find?, huntracked]
  exact if_pos htip.symm

/-- Only a block that `Extends` the last accepted one can be accepted right after it was built. -/
theorem Reach.extends_of_round (hreach : Reach g h e) (hfree : (h.name block).CollisionFree)
    (hround : e.Round clock block e') : Reach g ((h.verify block).accept block) e' ∧
    e'.lastAccepted = block ∧ block.Extends e.lastAccepted ∧
    e.preferredBlock = .ok e.lastAccepted := by
  obtain ⟨hparent, entry, hentry, rfl⟩ := hreach.tracked_build hfree hround.built
  obtain ⟨changes, hchanges⟩ := Engine.acceptable_of_accept hentry hround.accepted
  -- the three calls in turn: building records a verified block,
  have hrecord : h.record e clock .build = h.verify entry.block := by
    simp only [History.record, hround.built]
  have hbuilt : Coherent g (h.verify entry.block) (e.build clock).2 :=
    (hrecord ▸ hreach.build clock).coherent hfree
  -- accepting it shows its parent to be an accepted block, which under the preference is the tip,
  obtain ⟨p, hp, hext⟩ := hbuilt.extends_of_acceptable hfree hentry hchanges
  obtain ⟨htip, hpreferred⟩ :=
    (hreach.coherent (hfree.of_subset (h.blocks_subset_name entry.block))).preferred_eq hp
      (hext.1.symm.trans hparent)
  have hextends := hbuilt.extends_tip hfree hentry (Engine.acceptable_eq_ok_iff.1 hchanges)
    (hparent.trans (htip.trans (congrArg (·.id) (Engine.Grows.build e clock).tip.symm)))
  rw [(Engine.Grows.build e clock).tip] at hextends
  -- and preferring it leaves the tip where accepting put it
  have haccepted := (Engine.sameChain_accept hentry hchanges hround.accepted).lastAccepted
  have hprefer := ((e.build clock).2.accept entry.block.id).2.lastAccepted_prefer entry.block.id
  rw [hround.preferred, haccepted] at hprefer
  have hreach' := hreach.round hround
  rw [hrecord, History.record_accept hentry hround.accepted] at hreach'
  exact ⟨hreach', hprefer, hextends, hpreferred⟩

/-- The block of a `Round` has the `childTime` of the tip, and is not too late. -/
theorem Reach.timestamp_of_round (hreach : Reach g h e) (hfree : (h.name block).CollisionFree)
    (hround : e.Round clock block e') :
    block.timestamp = Engine.childTime clock e.lastAccepted ∧
    block.timestamp < satAdd clock futureBound := by
  obtain ⟨-, -, -, hpreferred⟩ := hreach.extends_of_round hfree hround
  obtain ⟨parent, _, _, hd⟩ := Engine.exists_draftedOn (Engine.drafted_of_build hround.built)
  obtain rfl := Except.ok.inj (hpreferred.symm.trans hd.preferred)
  exact ⟨hd.timestamp, UInt64.not_le.1 hd.early⟩

/-- What tells the blocks of rounds apart does so in the first round and in those after it. -/
theorem CollisionFree.of_round
    (hfree : CollisionFree ((h.blocks ++ block :: blocks).map (·.bytes))) :
    (h.name block).CollisionFree ∧
    CollisionFree ((((h.verify block).accept block).blocks ++ blocks).map (·.bytes)) := by
  constructor <;> refine hfree.mono (List.map_subset _ fun b hb => ?_)
  · simp only [History.blocks, History.name, List.mem_append, List.mem_cons] at hb ⊢
    tauto
  · simp only [History.blocks, History.verify, History.accept, List.mem_append,
      List.mem_cons] at hb ⊢
    tauto

/-- The blocks of `Rounds` come one after the other on `h.chain`. -/
theorem Reach.rounds_advance (hreach : Reach g h e) (hrounds : e.Rounds clock blocks e')
    (hfree : CollisionFree ((h.blocks ++ blocks).map (·.bytes))) :
    (∃ h', Reach g h' e' ∧ h'.chain = blocks.reverse ++ h.chain) ∧
    (e.lastAccepted :: blocks).IsChain (fun p b => b.Extends p) ∧
    e'.lastAccepted = (e.lastAccepted :: blocks).getLast (List.cons_ne_nil _ _) ∧
    e'.lastAccepted.height.toNat = e.lastAccepted.height.toNat + blocks.length := by
  induction hrounds generalizing h with
  | nil => exact ⟨⟨h, hreach, rfl⟩, .singleton _, rfl, rfl⟩
  | @cons e m e' block rest hround _ ih =>
    obtain ⟨hnamed, hrest⟩ := hfree.of_round
    obtain ⟨hreach', htip, hext, -⟩ := hreach.extends_of_round hnamed hround
    obtain ⟨⟨h', hlast, hchain⟩, hextend, htip', hheight⟩ := ih hreach' hrest
    -- what `ih` says of the state after the round starts at `block`, the tip there
    rw [htip] at hextend htip' hheight
    refine ⟨⟨h', hlast, ?_⟩, List.isChain_cons_cons.2 ⟨hext, hextend⟩, ?_, ?_⟩
    · rw [hchain, List.reverse_cons, List.append_assoc]
      rfl
    · rw [htip']
      exact (List.getLast_cons (List.cons_ne_nil _ _)).symm
    · rw [hheight, hext.2.1, List.length_cons]
      omega

/-- Each block of `Rounds` is later than the one before, and the last one is not too late. -/
theorem Reach.childTime_add_length_le (hreach : Reach g h e) (hrounds : e.Rounds clock blocks e')
    (hfree : CollisionFree ((h.blocks ++ blocks).map (·.bytes))) (hne : blocks ≠ []) :
    (Engine.childTime clock e.lastAccepted).toNat + blocks.length ≤
      (satAdd clock futureBound).toNat := by
  induction hrounds generalizing h with
  | nil => exact absurd rfl hne
  | @cons e m e' block rest hround _ ih =>
    obtain ⟨hnamed, hrest⟩ := hfree.of_round
    obtain ⟨hreach', htip, -⟩ := hreach.extends_of_round hnamed hround
    obtain ⟨htime, hearly⟩ := hreach.timestamp_of_round hnamed hround
    rw [UInt64.lt_iff_toNat_lt] at hearly
    rw [← htime, List.length_cons]
    by_cases hnil : rest = []
    · rw [hnil, List.length_nil]
      omega
    · -- the next block is built on this one, and so it is later: there is a second left for it
      have hlast := (satAdd clock futureBound).toNat_lt_size
      have hend : block.timestamp.toNat < UInt64.size - 1 := by omega
      have hchild := Engine.toNat_childTime clock hend
      have hnext := ih hreach' hrest hnil
      rw [htip] at hnext
      omega

/-- There are no more `Rounds` than seconds that a block may be ahead of the clock. -/
theorem Reach.length_rounds_le_ten (hreach : Reach g h e) (hrounds : e.Rounds clock blocks e')
    (hfree : CollisionFree ((h.blocks ++ blocks).map (·.bytes))) : blocks.length ≤ 10 := by
  by_cases hnil : blocks = []
  · rw [hnil]
    exact Nat.zero_le 10
  · have hbound := hreach.childTime_add_length_le hrounds hfree hnil
    have hchild := UInt64.le_iff_toNat_le.1 (Engine.le_childTime clock e.lastAccepted)
    rw [toNat_satAdd, show futureBound.toNat = 10 from rfl] at hbound
    omega

/-! ## How far it gets -/

/-- The answer of a `LastAttempt` counts the rounds, and the attempt leaves the tip alone. -/
theorem Engine.LastAttempt.of_ok {count n : Nat} {result : Except EngineError Nat × Engine}
    (hlast : m.LastAttempt clock count result) (hok : result.1 = .ok n) :
    n = count ∧ result.2.lastAccepted = m.lastAccepted := by
  cases hlast with
  | idle hbuild =>
    have htip := (Grows.build m clock).tip
    rw [hbuild] at htip
    exact ⟨(Except.ok.inj hok).symm, htip⟩
  | unbuilt | unaccepted | unpreferred => cases hok

/--
`finalizePending` ends by itself, after `Rounds` and a `LastAttempt`. Where it answers with a count,
this is the number of rounds, and no more than the transactions that were pending. Where the hash
tells the blocks of the run and of the rounds apart, it is no more than ten either, and the height
of `lastAccepted` has grown by it: each block of the rounds `Extends` the one before, and the first
of them the one that was accepted last before.
-/
theorem Reach.finalizePending_advances (hreach : Reach g h e) (clock : UInt64) :
    ∃ blocks m, e.Rounds clock blocks m ∧
      m.LastAttempt clock blocks.length (e.finalizePending clock) ∧
      ∀ n, (e.finalizePending clock).1 = .ok n →
        n = blocks.length ∧ n ≤ e.mempool.size ∧
        (CollisionFree ((h.blocks ++ blocks).map (·.bytes)) →
          n ≤ 10 ∧
          (e.finalizePending clock).2.lastAccepted.height.toNat =
            e.lastAccepted.height.toNat + n ∧
          (e.lastAccepted :: blocks).IsChain (fun p b => b.Extends p) ∧
          (e.finalizePending clock).2.lastAccepted =
            (e.lastAccepted :: blocks).getLast (List.cons_ne_nil _ _)) := by
  obtain ⟨blocks, m, hrounds, hlast⟩ := hreach.exists_rounds clock
  refine ⟨blocks, m, hrounds, hlast, fun n hok => ?_⟩
  obtain ⟨rfl, hsame⟩ := hlast.of_ok hok
  have hpool := hreach.length_rounds_le hrounds
  -- the count comes from the pool; the other clauses need the rounds to build proper blocks
  refine ⟨rfl, by omega, fun hfree => ?_⟩
  obtain ⟨-, hextend, htip, hheight⟩ := hreach.rounds_advance hrounds hfree
  exact ⟨hreach.length_rounds_le_ten hrounds hfree,
    (congrArg (·.height.toNat) hsame).trans hheight, hextend, hsame.trans htip⟩

/-- The pending `claim` becomes one block, `left`, and then there is nothing to build. -/
theorem Siblings.finalize_claim :
    let pending := (start.submit 50 claim).2
    (pending.finalizePending 50).1 = .ok 1 ∧
    (pending.finalizePending 50).2.lastAccepted = left ∧ left.Extends first := by
  have hreach : Reach genesis (.start first) (start.submit 50 claim).2 :=
    reach_start.submit 50 claim
  have hanswer : ((start.submit 50 claim).2.finalizePending 50).1 = .ok 1 := by decide +kernel
  obtain ⟨blocks, m, hrounds, -, hcount⟩ := hreach.finalizePending_advances 50
  obtain ⟨hone, -, hadvance⟩ := hcount 1 hanswer
  obtain ⟨block, rfl, round⟩ := hrounds.exists_round hone.symm
  obtain rfl := Except.ok.inj (builds_left.symm.trans round.built)
  obtain ⟨-, -, hchain, htip⟩ := hadvance collisionFree_left
  have hfirst : (start.submit 50 claim).2.lastAccepted = first :=
    (start.sameChain_submit 50 claim).lastAccepted
  rw [hfirst] at hchain
  rw [List.getLast_cons (List.cons_ne_nil _ _), List.getLast_singleton] at htip
  exact ⟨hanswer, htip, (List.isChain_cons_cons.1 hchain).1⟩

end LeaseChain
