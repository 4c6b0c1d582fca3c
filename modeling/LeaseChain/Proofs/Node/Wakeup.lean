import LeaseChain.Proofs.Node.Interleaving

/-!
# No lost wake-up

The mailbox has room for one signal, and what is raised while it is full is dropped. That loses
nothing: a signal on its way leads to an attempt to build, and an attempt sees every transaction
that is in the pool by then, whichever submission raised the signal. What has to hold is that no
attempt comes between the transaction and the signal that is to tell of it without another signal
being left, and it holds because a submission raises its signal after its transaction is in the
pool.

## Key results

- `Mailbox.forward_eq`: any number of signals is one
- `SharedNode.Step.isSignalled`: only an attempt uses a signal up
- `SharedNode.Run.put_noticed`: a transaction without an attempt after it has a signal to come
- `SharedNode.Run.attempt_of_rest`: where all threads rest, there was such an attempt
-/

namespace LeaseChain

namespace Mailbox

/-- To `send` twice is to send once: the mailbox holds one signal at most. -/
theorem send_send (box : Mailbox) : box.send.send = box.send := by
  simp [send]

/-- `forward` raises the signal if there is one request for a block among the notices, or more. -/
theorem forward_eq (box : Mailbox) (notices : List Notice) :
    box.forward notices = if .pending ∈ notices then box.send else box := by
  rw [forward]
  -- induction on the notices: those after the first request for a block add nothing
  induction notices generalizing box with
  | nil => rfl
  | cons notice notices ih =>
    rw [List.foldl_cons, ih]
    by_cases hpending : notice = .pending
    · simp [hpending, send_send]
    · simp [hpending, Ne.symm hpending]

/-- `forward` neither closes the mailbox nor opens it. -/
theorem isOpen_forward (box : Mailbox) (notices : List Notice) :
    (box.forward notices).isOpen = box.isOpen := by
  rw [forward_eq]
  split <;> rfl

/-- `forward` does not take the signal out. -/
theorem isFull_forward {box : Mailbox} (hfull : box.isFull = true) (notices : List Notice) :
    (box.forward notices).isFull = true := by
  rw [forward_eq]
  split
  · simp [send, hfull]
  · exact hfull

/-- After `send` an open mailbox `isFull`. -/
theorem isFull_send {box : Mailbox} (hopen : box.isOpen = true) : box.send.isFull = true := by
  simp [send, hopen]

end Mailbox

/-- `Node.signal` sends one signal, whatever else there is to tell. -/
theorem Node.mailbox_signal (node : Node) : node.signal.mailbox = node.mailbox.send := by
  show node.mailbox.forward (node.engine.notices ++ [.pending]) = _
  rw [Mailbox.forward_eq, if_pos (List.mem_append_right _ List.mem_cons_self)]

/-- A `turn` of the finalizer takes signals out, and leaves the mailbox as it is otherwise. -/
theorem Finalizer.mailbox_turn (finalizer : Finalizer) (node : Node) :
    (finalizer.turn node).1.mailbox =
      if finalizer = waiting then node.mailbox.receive.2 else node.mailbox := by
  -- only the first turn touches the mailbox; in the others just the engine is asked
  cases finalizer with
  | waiting => rfl
  | woken | retrying =>
    simp only [turn]
    split <;> rfl
  | accepting id | preferring id =>
    simp only [turn]
    split <;> rfl

namespace SharedNode

variable {s s' start : SharedNode} {event : Event} {events newer older : List Event} {who : Nat}
  {tx : Transaction}

/-- A signal is in the mailbox, or the finalizer has taken it out and not yet tried to build. -/
def IsSignalled (s : SharedNode) : Prop :=
  s.node.mailbox.isFull = true ∨ s.finalizer = .woken

/-! ## Turns -/

/-- No `Step` closes the mailbox, or opens it. -/
theorem Step.isOpen (hstep : Step s event s') :
    s'.node.mailbox.isOpen = s.node.mailbox.isOpen := by
  cases hstep with
  | put | outbid | request | tick => rfl
  | send | signal => exact congrArg (·.isOpen) s.node.mailbox_signal
  | finalize =>
    show (s.finalizer.turn s.node).1.mailbox.isOpen = _
    rw [Finalizer.mailbox_turn]
    split <;> rfl
  | tell => exact s.node.mailbox.isOpen_forward _

/-- A submission's `send` leaves a signal, its own or one that it joins. -/
theorem Step.isSignalled_of_send (hopen : s.node.mailbox.isOpen = true)
    (hstep : Step s (.send who) s') : s'.IsSignalled := by
  cases hstep with
  | send =>
    left
    show s.node.signal.mailbox.isFull = true
    rw [s.node.mailbox_signal]
    exact Mailbox.isFull_send hopen
  | finalize hevent => exact False.elim (Finalizer.isFinalizers_of_eq hevent)

/-- `finalize` leaves a signal in the mailbox, or it takes one out and is to make an attempt. -/
theorem isSignalled_finalize (hready : s.finalizer = .waiting → s.node.mailbox.isFull = true)
    (htrying : s.finalizer ≠ .woken) (hsignalled : s.IsSignalled) : s.finalize.IsSignalled := by
  -- the turn that takes the signal out is the one that makes the finalizer `woken`
  by_cases hwaits : s.finalizer = .waiting
  · right
    show (s.finalizer.turn s.node).2 = .woken
    rw [hwaits]
    simp only [Finalizer.turn, Mailbox.receive, hready hwaits, if_true]
  · left
    show (s.finalizer.turn s.node).1.mailbox.isFull = true
    rw [Finalizer.mailbox_turn, if_neg hwaits]
    exact hsignalled.resolve_right htrying

/-- Only an `attempt` uses a signal up. -/
theorem Step.isSignalled (hstep : Step s event s') (hattempt : event ≠ .attempt)
    (hsignalled : s.IsSignalled) : s'.IsSignalled := by
  -- one case for each turn; only the finalizer's own could lose the signal
  cases hstep with
  | put | outbid | request | tick => exact hsignalled
  | send | signal =>
    refine hsignalled.imp_left fun hfull => ?_
    show s.node.signal.mailbox.isFull = true
    rw [s.node.mailbox_signal, Mailbox.send, hfull]
    rfl
  | finalize hevent hready =>
    refine isSignalled_finalize hready (fun hwoken => hattempt ?_) hsignalled
    rw [hevent, hwoken]
    rfl
  | tell => exact hsignalled.imp_left fun hfull => Mailbox.isFull_forward hfull _

/-- A submission that is `unsent` stays so, but for its own `send`. -/
theorem Step.mem_unsent (hstep : Step s event s') (hsend : event ≠ .send who)
    (hpassed : who ∈ s.unsent) : who ∈ s'.unsent := by
  cases hstep with
  | put | outbid => exact List.mem_cons_of_mem _ hpassed
  -- the one that is sent is another submission's
  | @send other =>
    have hne : who ≠ other := fun heq => hsend (congrArg Event.send heq.symm)
    exact (List.mem_erase_of_ne hne).2 hpassed
  | signal | finalize | request | tell | tick => exact hpassed

/-! ## Runs -/

/-- An open mailbox stays open on every `Run`. -/
theorem Run.isOpen (hrun : Run start events s) (hopen : start.node.mailbox.isOpen = true) :
    s.node.mailbox.isOpen = true := by
  induction hrun with
  | nil => exact hopen
  | step _ hstep ih => rw [hstep.isOpen, ih]

/-- A `Run` goes through the states after each part of its events. -/
theorem Run.split (hrun : Run start (newer ++ older) s) :
    ∃ m, Run start older m ∧ Run m newer s := by
  -- induction on the newer events, which the run has at its end
  induction newer generalizing s with
  | nil => exact ⟨s, hrun, .nil⟩
  | cons event newer ih =>
    cases hrun with
    | step hrun hstep =>
      obtain ⟨m, hfirst, hrest⟩ := ih hrun
      exact ⟨m, hfirst, hrest.step hstep⟩

/-- A run without an `attempt` keeps the signal: each of its steps does. -/
theorem Run.isSignalled (hrun : Run start events s) (hattempt : .attempt ∉ events)
    (hsignalled : start.IsSignalled) : s.IsSignalled := by
  induction hrun with
  | nil => exact hsignalled
  | step _ hstep ih =>
    have hlast := ih fun h => hattempt (List.mem_cons_of_mem _ h)
    exact hstep.isSignalled (fun h => hattempt (h ▸ List.mem_cons_self)) hlast

/-- On a run without its `send` a submission stays `unsent`: each of the steps leaves it so. -/
theorem Run.mem_unsent (hrun : Run start events s) (hsend : .send who ∉ events)
    (hpassed : who ∈ start.unsent) : who ∈ s.unsent := by
  induction hrun with
  | nil => exact hpassed
  | step _ hstep ih =>
    have hlast := ih fun h => hsend (List.mem_cons_of_mem _ h)
    exact hstep.mem_unsent (fun h => hsend (h ▸ List.mem_cons_self)) hlast

/-- From the moment a submission raised it, the signal is kept until there is an `attempt`. -/
theorem Run.isSignalled_of_send (hopen : start.node.mailbox.isOpen = true)
    (hrun : Run start (newer ++ older) s) (hattempt : .attempt ∉ newer)
    (hsend : .send who ∈ newer) : s.IsSignalled := by
  obtain ⟨later, earlier, rfl⟩ := List.append_of_mem hsend
  rw [List.append_assoc] at hrun
  obtain ⟨m, hraised, hlater⟩ := hrun.split
  cases hraised with
  | step hbefore hraise =>
    have hsignalled := hraise.isSignalled_of_send (hbefore.isOpen hopen)
    exact hlater.isSignalled (fun h => hattempt (List.mem_append_left _ h)) hsignalled

/--
A submission that has `put` its transaction into the pool is `unsent` until it has its `send`.
-/
theorem Run.mem_unsent_of_put (hrun : Run start (newer ++ .put who tx :: older) s)
    (hsend : .send who ∉ newer) : who ∈ s.unsent := by
  obtain ⟨m, hput, hlater⟩ := hrun.split
  cases hput with
  | step _ hstep =>
    have hpassed : who ∈ m.unsent := by
      cases hstep with
      | put => exact List.mem_cons_self
      | finalize hevent => exact False.elim (Finalizer.isFinalizers_of_eq hevent)
    exact hlater.mem_unsent hsend hpassed

/--
Where the finalizer has made no `attempt` since a submission `put` its transaction into the pool,
the mailbox `isFull`, or the submission is `unsent` and has yet to `send` its signal, or the
finalizer is `woken`: it has taken a signal out and has yet to make the attempt.
-/
theorem Run.put_noticed (hopen : start.node.mailbox.isOpen = true)
    (hrun : Run start (newer ++ .put who tx :: older) s) (hattempt : .attempt ∉ newer) :
    s.node.mailbox.isFull = true ∨ (who ∈ s.unsent ∧ .send who ∉ newer) ∨
      s.finalizer = .woken := by
  by_cases hsend : Event.send who ∈ newer
  · exact (hrun.isSignalled_of_send hopen hattempt hsend).imp_right .inr
  · exact .inr (.inl ⟨hrun.mem_unsent_of_put hsend, hsend⟩)

/--
Where the threads rest, with no signal to send or to take out, every transaction that a submission
`put` into the pool was followed by an `attempt` to build.
-/
theorem Run.attempt_of_rest (hopen : start.node.mailbox.isOpen = true)
    (hrun : Run start (newer ++ .put who tx :: older) s) (hwaits : s.finalizer = .waiting)
    (hempty : s.node.mailbox.isFull = false) (hsent : s.unsent = []) : .attempt ∈ newer := by
  by_contra hattempt
  by_cases hsend : Event.send who ∈ newer
  · rcases hrun.isSignalled_of_send hopen hattempt hsend with hfull | hwoken
    · rw [hempty] at hfull
      cases hfull
    · rw [hwaits] at hwoken
      cases hwoken
  · have hpassed := hrun.mem_unsent_of_put hsend
    rw [hsent] at hpassed
    cases hpassed

end SharedNode

namespace Siblings

/-- A node on which nothing has happened yet, at fifty seconds. -/
def quietNode : SharedNode := ⟨⟨start, 50, .empty, []⟩, [], .waiting⟩

/-- A run on which `claim` is submitted, and the finalizer takes the signal out. -/
theorem run_claim : ∃ s, SharedNode.Run quietNode [.receive, .send 0, .put 0 claim] s := by
  have hput : SharedNode.Step quietNode (.put 0 claim) (quietNode.enqueue 0 claim) :=
    .put (by decide) (by decide +kernel) (by decide +kernel)
  have hsend : SharedNode.Step (quietNode.enqueue 0 claim) (.send 0)
      ⟨(quietNode.enqueue 0 claim).node.signal, [], .waiting⟩ :=
    .send List.mem_cons_self
  have hfull : (quietNode.enqueue 0 claim).node.signal.mailbox.isFull = true := by
    rw [Node.mailbox_signal]
    rfl
  exact ⟨_, (hput.run.step hsend).step (.finalize rfl fun _ => hfull)⟩

/-- The signal of the claim is not in the mailbox any more, and the attempt is still to come. -/
theorem claim_noticed : ∃ s, SharedNode.Run quietNode [.receive, .send 0, .put 0 claim] s ∧
    (s.node.mailbox.isFull = true ∨
      (0 ∈ s.unsent ∧ .send 0 ∉ ([.receive, .send 0] : List Event)) ∨ s.finalizer = .woken) := by
  obtain ⟨s, hrun⟩ := run_claim
  have hsince : SharedNode.Run quietNode ([.receive, .send 0] ++ .put 0 claim :: []) s := hrun
  exact ⟨s, hrun, SharedNode.Run.put_noticed rfl hsince (by simp)⟩

end Siblings

end LeaseChain
