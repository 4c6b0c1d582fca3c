import LeaseChain.Node
import LeaseChain.Proofs.Engine.Finalizing

/-!
# Threads on a node

Any number of threads submit transactions, one asks for blocks at times, and one finalizes. They
share an engine, which serves one request after the other, and a mailbox, which is not part of it.
Where a thread needs several turns, others can come in between: a submission puts the transaction
into the pool first and raises the signal after that, and the finalizer takes the signal out,
builds, accepts and prefers, each in a turn of its own. `SharedNode.Run` holds what can come of this
in any order.

A node that serves its requests one by one goes through such runs too: those in which nothing comes
in between.

## Key results

- `SharedNode.Step`, `SharedNode.Run`: the turns of the threads, in any order
- `SharedNode.run_submit`: the turns of a submission are `Engine.submit`
- `SharedNode.runsAlone_finalizeOnRequest`: those of the finalizer are `Node.finalizeOnRequest`
-/

namespace LeaseChain

/-- What the finalizer does in its next turn. -/
inductive Finalizer where
  /-- It takes out a signal, once there is one. -/
  | waiting
  /-- It tries to build a block, for the signal that it has taken out. -/
  | woken
  | accepting (id : Hash)
  | preferring (id : Hash)
  /-- It tries to build another block, after one that it finalized. -/
  | retrying
deriving DecidableEq

/-- What happens in a turn. -/
inductive Event where
  /-- A submission puts its transaction into the pool. -/
  | put (who : Nat) (tx : Transaction)
  /-- A submission passes, and the pool is full of better transactions. -/
  | outbid (who : Nat) (tx : Transaction)
  /-- A submission that passed raises the signal. -/
  | send (who : Nat)
  /-- The build loop raises the signal. -/
  | signal
  /-- The finalizer takes the signal out. -/
  | receive
  /-- The finalizer tries to build a block. -/
  | attempt
  /-- The finalizer accepts or prefers a block. -/
  | decide
  /-- A thread has the engine do something else. -/
  | request (request : Request)
  /-- Consensus is told what there is to tell. -/
  | tell
  /-- Time passes. -/
  | tick

/-- What only the finalizer does. -/
def Event.IsFinalizers : Event → Prop
  | .receive | .attempt | .decide | .tell => True
  | _ => False

namespace Finalizer

/-- The next turn of the finalizer. -/
def turn (node : Node) : Finalizer → Node × Finalizer
  | waiting =>
    let (signalled, mailbox) := node.mailbox.receive
    ({ node with mailbox }, if signalled then woken else waiting)
  | woken | retrying =>
    match node.engine.build node.clock with
    | (.ok block, engine) => ({ node with engine }, accepting block.id)
    | (.error _, engine) => ({ node with engine }, waiting)
  | accepting id =>
    match node.engine.accept id with
    | (.ok (), engine) => ({ node with engine }, preferring id)
    | (.error _, engine) => ({ node with engine }, waiting)
  | preferring id =>
    match node.engine.prefer id with
    | (.ok (), engine) => ({ node with engine }, retrying)
    | (.error _, engine) => ({ node with engine }, waiting)

/-- The finalizer tries to build a block in its next turn. -/
def IsTrying (finalizer : Finalizer) : Prop := finalizer = woken ∨ finalizer = retrying

/-- A finalizer that is trying is not `waiting`, so its turn needs no signal. -/
theorem IsTrying.ne_waiting {finalizer : Finalizer} (h : finalizer.IsTrying) :
    finalizer ≠ .waiting := by
  rcases h with rfl | rfl <;> nofun

/-- All that `IsTrying` takes the same `turn`: it differs in what the counter stands at. -/
theorem IsTrying.turn_eq {finalizer : Finalizer} (h : finalizer.IsTrying) (node : Node) :
    finalizer.turn node = woken.turn node := by
  rcases h with rfl | rfl <;> rfl

/-- What happens in the next turn of the finalizer. -/
def event : Finalizer → Event
  | waiting => .receive
  | woken | retrying => .attempt
  | accepting _ | preferring _ => .decide

/-- Each of the finalizer's own turns `IsFinalizers`. -/
theorem isFinalizers_of_eq {finalizer : Finalizer} {event : Event}
    (hevent : event = finalizer.event) : event.IsFinalizers := by
  subst hevent
  cases finalizer <;> trivial

end Finalizer

/-- The requests of other threads, which neither submit nor raise the signal. -/
def Request.IsApart : Request → Prop
  | .parse _ | .verify _ | .accept _ | .reject _ | .prefer _ | .build | .prune | .takeFresh => True
  | _ => False

/-- A node and how far the threads that share it have got. -/
structure SharedNode where
  node : Node
  /-- The submissions that have passed and not raised the signal yet. -/
  unsent : List Nat
  finalizer : Finalizer

/-- Raises the signal. -/
def Node.signal (node : Node) : Node := (node.serve fun e _ => ((), e.signalPending)).2

namespace SharedNode

/-- A submission that has passed is put into the pool, if there is room for it. -/
def enqueue (s : SharedNode) (who : Nat) (tx : Transaction) : SharedNode :=
  { s with node := { s.node with engine := s.node.engine.enqueue tx }, unsent := who :: s.unsent }

/-- The finalizer has its turn. -/
def finalize (s : SharedNode) : SharedNode :=
  let (node, finalizer) := s.finalizer.turn s.node
  { s with node, finalizer }

/-- The turns that threads can have. A submission that does not pass changes nothing. -/
inductive Step : SharedNode → Event → SharedNode → Prop where
  | put {s : SharedNode} {who : Nat} {tx : Transaction} (hfree : who ∉ s.unsent)
      (hpasses : s.node.engine.checkAdmission s.node.clock tx = .ok ())
      (hstays : (s.node.engine.mempool.add tx).1 = true) : Step s (.put who tx) (s.enqueue who tx)
  | outbid {s : SharedNode} {who : Nat} {tx : Transaction} (hfree : who ∉ s.unsent)
      (hpasses : s.node.engine.checkAdmission s.node.clock tx = .ok ())
      (hstays : (s.node.engine.mempool.add tx).1 = false) :
      Step s (.outbid who tx) (s.enqueue who tx)
  | send {s : SharedNode} {who : Nat} (hpassed : who ∈ s.unsent) :
      Step s (.send who) { s with node := s.node.signal, unsent := s.unsent.erase who }
  | signal {s : SharedNode} : Step s .signal { s with node := s.node.signal }
  | finalize {s : SharedNode} {event : Event} (hevent : event = s.finalizer.event)
      (hready : s.finalizer = .waiting → s.node.mailbox.isFull = true) : Step s event s.finalize
  | request {s : SharedNode} {request : Request} (hapart : request.IsApart) :
      Step s (.request request)
        { s with node := { s.node with engine := s.node.engine.after s.node.clock request } }
  | tell {s : SharedNode} : Step s .tell { s with node := s.node.deliver }
  | tick {s : SharedNode} (clock : UInt64) :
      Step s .tick { s with node := { s.node with clock } }

/-- Turns one after the other, with what happened in them, the newest first. -/
inductive Run (start : SharedNode) : List Event → SharedNode → Prop where
  | nil : Run start [] start
  | step {s s' : SharedNode} {event : Event} {events : List Event} (hrun : Run start events s)
      (hstep : Step s event s') : Run start (event :: events) s'

variable {s m s' : SharedNode} {event : Event} {events later : List Event}

/-- A `Step` is a `Run` of one event. -/
theorem Step.run (hstep : Step s event s') : Run s [event] s' := .step .nil hstep

theorem Run.trans (hrun : Run s events m) (hlater : Run m later s') :
    Run s (later ++ events) s' := by
  -- induction on the later run, whose steps are added to the earlier one
  induction hlater with
  | nil => exact hrun
  | step _ hstep ih => exact .step ih hstep

/-! ## Nothing in between -/

/-- A submission that passes admission has two turns, `put` and `send`. -/
theorem run_submit {who : Nat} {tx : Transaction} (hfree : who ∉ s.unsent)
    (hpasses : s.node.engine.checkAdmission s.node.clock tx = .ok ()) :
    ∃ events, Run s (.send who :: events)
      { s with node := (s.node.serve fun e clock => e.submit clock tx).2 } := by
  have hsubmit : s.node.engine.submit s.node.clock tx =
      (.ok tx.id, (s.node.engine.enqueue tx).signalPending) := by
    rw [Engine.submit, hpasses]
  -- the two turns together leave the node where the whole submission leaves it
  have hturns : { s with node := (s.node.serve fun e clock => e.submit clock tx).2 } =
      { s.enqueue who tx with
        node := (s.enqueue who tx).node.signal
        unsent := (s.enqueue who tx).unsent.erase who } := by
    simp only [Node.serve, Node.signal, hsubmit, enqueue, List.erase_cons_head]
  rw [hturns]
  have hsend : who ∈ (s.enqueue who tx).unsent := List.mem_cons_self
  -- the pool has room or has none; in both cases the signal is raised next
  cases hstays : (s.node.engine.mempool.add tx).1 with
  | true => exact ⟨_, (Step.put hfree hpasses hstays).run.step (.send hsend)⟩
  | false => exact ⟨_, (Step.outbid hfree hpasses hstays).run.step (.send hsend)⟩

/-- A run in which the finalizer is alone. -/
def RunsAlone (s s' : SharedNode) : Prop :=
  ∃ events, Run s events s' ∧ ∀ event ∈ events, event.IsFinalizers

/-- Where the finalizer `RunsAlone` on both runs it does so on the two after each other. -/
theorem RunsAlone.trans (hruns : RunsAlone s m) (hlater : RunsAlone m s') : RunsAlone s s' := by
  obtain ⟨events, hrun, halone⟩ := hruns
  obtain ⟨later, hlater, halone'⟩ := hlater
  refine ⟨later ++ events, hrun.trans hlater, fun event hevent => ?_⟩
  rcases List.mem_append.1 hevent with hevent | hevent
  · exact halone' event hevent
  · exact halone event hevent

/-- No turn at all is a run alone. -/
theorem runsAlone_refl (s : SharedNode) : RunsAlone s s := ⟨[], .nil, fun _ h => nomatch h⟩

/-- To `tell` what there is to tell is a run of one turn, which is the finalizer's. -/
theorem runsAlone_tell (s : SharedNode) : RunsAlone s { s with node := s.node.deliver } :=
  ⟨[.tell], Step.tell.run, List.forall_mem_singleton.2 trivial⟩

/-- A turn of the finalizer, where it has one, is a run on which it `RunsAlone`. -/
theorem runsAlone_finalize (hready : s.finalizer = .waiting → s.node.mailbox.isFull = true) :
    RunsAlone s s.finalize :=
  ⟨[s.finalizer.event], (Step.finalize rfl hready).run,
    List.forall_mem_singleton.2 (Finalizer.isFinalizers_of_eq rfl)⟩

section Turns

variable {node : Node} {unsent : List Nat} {finalizer : Finalizer} {e : Engine} {block : Block}
  {blocks : List Block}

/-- A turn of a finalizer that does not wait, named by what `Finalizer.turn` gives. -/
theorem runsAlone_turn {node' : Node} {finalizer' : Finalizer} (hwaits : finalizer ≠ .waiting)
    (hturn : finalizer.turn node = (node', finalizer')) :
    RunsAlone ⟨node, unsent, finalizer⟩ ⟨node', unsent, finalizer'⟩ := by
  have hfinalize : finalize ⟨node, unsent, finalizer⟩ = ⟨node', unsent, finalizer'⟩ := by
    rw [finalize, hturn]
  exact hfinalize ▸ runsAlone_finalize fun h => absurd h hwaits

/-- A finalizer that `IsTrying` and builds a block is `accepting` it next. -/
theorem runsAlone_built (htrying : finalizer.IsTrying)
    (hbuild : node.engine.build node.clock = (.ok block, e)) :
    RunsAlone ⟨node, unsent, finalizer⟩ ⟨{ node with engine := e }, unsent, .accepting block.id⟩ :=
  runsAlone_turn htrying.ne_waiting (by rw [htrying.turn_eq, Finalizer.turn, hbuild])

/-- A finalizer that has accepted a block is `preferring` it next. -/
theorem runsAlone_accepted (haccept : node.engine.accept block.id = (.ok (), e)) :
    RunsAlone ⟨node, unsent, .accepting block.id⟩
      ⟨{ node with engine := e }, unsent, .preferring block.id⟩ :=
  runsAlone_turn nofun (by simp only [Finalizer.turn, haccept])

/-- A `Round` of a finalizer that `IsTrying` takes three turns. -/
theorem runsAlone_round (htrying : finalizer.IsTrying)
    (hround : node.engine.Round node.clock block e) :
    RunsAlone ⟨node, unsent, finalizer⟩ ⟨{ node with engine := e }, unsent, .retrying⟩ := by
  rcases hbuild : node.engine.build node.clock with ⟨answer, built⟩
  rcases haccept : built.accept block.id with ⟨answer', accepted⟩
  -- what a round says about the three answers, put in terms of the states in between
  obtain ⟨hbuilt, haccepted, hpreferred⟩ := hround
  rw [hbuild] at hbuilt haccepted hpreferred
  simp only [haccept] at haccepted hpreferred
  subst hbuilt haccepted
  have hfirst : RunsAlone ⟨node, unsent, finalizer⟩
      ⟨{ node with engine := built }, unsent, .accepting block.id⟩ :=
    runsAlone_built htrying hbuild
  have hsecond : RunsAlone ⟨{ node with engine := built }, unsent, .accepting block.id⟩
      ⟨{ node with engine := accepted }, unsent, .preferring block.id⟩ :=
    runsAlone_accepted haccept
  have hthird : RunsAlone ⟨{ node with engine := accepted }, unsent, .preferring block.id⟩
      ⟨{ node with engine := e }, unsent, .retrying⟩ :=
    runsAlone_turn nofun (by simp only [Finalizer.turn, hpreferred])
  exact (hfirst.trans hsecond).trans hthird

/-- `Rounds` one after the other end where the finalizer `IsTrying` once more. -/
theorem runsAlone_rounds {first last : Engine} (htrying : finalizer.IsTrying)
    (hrounds : first.Rounds node.clock blocks last) :
    ∃ finalizer', finalizer'.IsTrying ∧
      RunsAlone ⟨{ node with engine := first }, unsent, finalizer⟩
        ⟨{ node with engine := last }, unsent, finalizer'⟩ := by
  -- induction on the rounds: each one ends in `retrying`, from which the next one starts
  induction hrounds generalizing finalizer with
  | nil => exact ⟨finalizer, htrying, runsAlone_refl _⟩
  | @cons e m e' block blocks round _ ih =>
    have hround : RunsAlone ⟨{ node with engine := e }, unsent, finalizer⟩
        ⟨{ node with engine := m }, unsent, .retrying⟩ :=
      runsAlone_round htrying round
    obtain ⟨finalizer', htrying', hrest⟩ := ih (.inr rfl)
    exact ⟨finalizer', htrying', hround.trans hrest⟩

/-- The `LastAttempt` ends where the finalizer waits again, whatever is in its way. -/
theorem runsAlone_lastAttempt {count : Nat} {result : Except EngineError Nat × Engine}
    (htrying : finalizer.IsTrying)
    (hlast : node.engine.LastAttempt node.clock count result) :
    RunsAlone ⟨node, unsent, finalizer⟩ ⟨{ node with engine := result.2 }, unsent, .waiting⟩ := by
  -- one case for each way in which a `LastAttempt` ends; every failure leads to `waiting`
  cases hlast with
  | idle hbuild | unbuilt hbuild =>
    exact runsAlone_turn htrying.ne_waiting (by rw [htrying.turn_eq, Finalizer.turn, hbuild])
  | unaccepted hbuild haccept =>
    exact (runsAlone_built htrying hbuild).trans
      (runsAlone_turn nofun (by simp only [Finalizer.turn, haccept]))
  | @unpreferred block cause built accepted e' hbuild haccept hprefer =>
    have hsecond : RunsAlone ⟨{ node with engine := built }, unsent, .accepting block.id⟩
        ⟨{ node with engine := accepted }, unsent, .preferring block.id⟩ :=
      runsAlone_accepted haccept
    exact ((runsAlone_built htrying hbuild).trans hsecond).trans
      (runsAlone_turn nofun (by simp only [Finalizer.turn, hprefer]))

/-- Once it is `woken`, the finalizer goes through the turns of `finalizePending`. -/
theorem runsAlone_finalizePending {g : Genesis} {h : History} (hreach : Reach g h node.engine) :
    RunsAlone ⟨node, unsent, .woken⟩
      ⟨{ node with engine := (node.engine.finalizePending node.clock).2 }, unsent, .waiting⟩ := by
  -- all the rounds, and then the attempt that ends them
  obtain ⟨blocks, m, hrounds, hlast⟩ := hreach.exists_rounds node.clock
  have hturns : ∃ finalizer : Finalizer, finalizer.IsTrying ∧ RunsAlone ⟨node, unsent, .woken⟩
      ⟨{ node with engine := m }, unsent, finalizer⟩ := runsAlone_rounds (.inl rfl) hrounds
  obtain ⟨finalizer, htrying, hturns⟩ := hturns
  have hend : RunsAlone ⟨{ node with engine := m }, unsent, finalizer⟩
      ⟨{ node with engine := (node.engine.finalizePending node.clock).2 }, unsent, .waiting⟩ :=
    runsAlone_lastAttempt htrying hlast
  exact hturns.trans hend

/-- `finalizeOnRequest` is a run in which nothing comes between the finalizer's turns. -/
theorem runsAlone_finalizeOnRequest {g : Genesis} {h : History} (hreach : Reach g h node.engine)
    (hfull : node.mailbox.isFull = true) :
    RunsAlone ⟨node, unsent, .waiting⟩ ⟨node.finalizeOnRequest, unsent, .waiting⟩ := by
  -- the first turn takes out the signal, the last one tells consensus
  have hreceive : RunsAlone ⟨node, unsent, .waiting⟩
      ⟨{ node with mailbox := node.mailbox.receive.2 }, unsent, .woken⟩ := by
    have hfinalize : finalize ⟨node, unsent, .waiting⟩ =
        ⟨{ node with mailbox := node.mailbox.receive.2 }, unsent, .woken⟩ := by
      simp only [finalize, Finalizer.turn, Mailbox.receive, hfull, if_true]
    exact hfinalize ▸ runsAlone_finalize fun _ => hfull
  have hserved : node.finalizeOnRequest =
      { node with
        mailbox := node.mailbox.receive.2
        engine := (node.engine.finalizePending node.clock).2 : Node }.deliver := by
    simp only [Node.finalizeOnRequest, Mailbox.receive, hfull, if_true, Node.serve]
  rw [hserved]
  exact (hreceive.trans (runsAlone_finalizePending hreach)).trans (runsAlone_tell _)

end Turns

end SharedNode

end LeaseChain
