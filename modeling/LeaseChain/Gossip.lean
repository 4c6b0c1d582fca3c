import LeaseChain.Transaction.Basic
import LeaseChain.Wire.Frame

/-!
# Gossip

A node tells its peers of transactions in batches, each in a frame of its own. It has no network of
its own: it hands the frames over, and takes those of others as `Engine.receiveGossip` does.

## Key results

- `Gossip.flatten_batches`: the batches, one after the other, are the transactions in their order
-/

namespace LeaseChain

/-- Why a payload does not reach the peers. -/
inductive GossipError where
  /-- Nobody takes payloads any more. -/
  | receiverClosed
deriving DecidableEq

namespace GossipError

/-- The text shown for the error. -/
def message : GossipError → String
  | receiverClosed => "Transport error: gossip receiver closed"

end GossipError

/-- The other side of gossip. -/
inductive Peers where
  /-- There are none; a payload vanishes. -/
  | absent
  /-- Somebody takes the payloads, which wait here in order. -/
  | receiving (queue : List Bytes)
  /-- Whoever took the payloads is gone. -/
  | gone

namespace Peers

/-- Hands a payload over. -/
def send (peers : Peers) (payload : Bytes) : Except GossipError Unit × Peers :=
  match peers with
  | absent => (.ok (), absent)
  | receiving queue => (.ok (), receiving (queue ++ [payload]))
  | gone => (.error .receiverClosed, gone)

/-- The payloads that nobody has taken out yet. -/
def waiting : Peers → List Bytes
  | receiving queue => queue
  | absent | gone => []

end Peers

namespace Gossip

/-- Cuts a list into batches of the given size, of at least one; only the last may be shorter. -/
def batches {α : Type} (size : Nat) : List α → List (List α)
  | [] => []
  | a :: as => (a :: as.take (size - 1)) :: batches size (as.drop (size - 1))
termination_by as => as.length
decreasing_by simp only [List.length_drop, List.length_cons]; omega

theorem flatten_batches {α : Type} (size : Nat) (as : List α) :
    (batches size as).flatten = as := by
  fun_induction batches size as with
  | case1 => rfl
  | case2 a as ih => simp [ih]

/-- The batches that fit in a frame, each with its frame. A batch that does not fit is left out. -/
def parcels (framing : Framing) (size : Nat) (txs : List Transaction) :
    List (List Transaction × Bytes) :=
  (batches size txs).filterMap fun batch =>
    match framing.encode batch with
    | .ok payload => some (batch, payload)
    | .error _ => none

end Gossip

end LeaseChain
