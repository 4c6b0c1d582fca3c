import LeaseChain.Hash

/-!
# The boundary to consensus

Consensus drives the engine and learns of its events through notices. The request for a block goes
through a mailbox with room for one signal, so that any number of requests raised before the
receiver looks counts as one.
-/

namespace LeaseChain

/-- What the engine tells consensus. -/
inductive Notice where
  /-- There is pending work; a block should be asked for soon. -/
  | pending
  | accepted (id : Hash) (height : UInt64)
  | rejected (id : Hash)
deriving DecidableEq

/-- A mailbox with room for one signal. -/
structure Mailbox where
  /-- Whether somebody still receives. -/
  isOpen : Bool
  /-- Whether a signal is waiting. -/
  isFull : Bool
deriving DecidableEq

namespace Mailbox

/-- A mailbox with a receiver and without a signal. -/
def empty : Mailbox := ⟨true, false⟩

/-- Raises a signal, which joins one that is waiting, and is lost where nobody receives. -/
def send (box : Mailbox) : Mailbox := { box with isFull := box.isFull || box.isOpen }

/-- Takes the waiting signal out, and tells whether there was one. -/
def receive (box : Mailbox) : Bool × Mailbox := (box.isFull, { box with isFull := false })

/-- Drops the receiver, and a waiting signal with it. -/
def close (_ : Mailbox) : Mailbox := ⟨false, false⟩

/-- Passes the requests among notices on. -/
def forward (box : Mailbox) (notices : List Notice) : Mailbox :=
  notices.foldl (fun box notice => if notice = .pending then box.send else box) box

end Mailbox

end LeaseChain
