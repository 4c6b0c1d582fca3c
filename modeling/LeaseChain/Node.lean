import LeaseChain.Engine.Building

/-!
# Nodes

A node is an engine with a clock and a way to consensus. Whatever the engine has to tell consensus
is passed on right after the request that brought it about.
-/

namespace LeaseChain

/-- An engine with a clock and a way to consensus. -/
structure Node where
  engine : Engine
  /-- The time in seconds. -/
  clock : UInt64
  /-- Where requests for a block wait for whoever builds. -/
  mailbox : Mailbox
  /-- What consensus was told and has not looked at yet, oldest first. -/
  heard : List Notice

namespace Node

/-- Passes the notices of the engine on to consensus. -/
def deliver (node : Node) : Node :=
  let (notices, engine) := node.engine.takeNotices
  { node with
    engine
    mailbox := node.mailbox.forward notices
    heard := node.heard ++ notices }

/-- Puts a request to the engine. -/
def serve {α : Type} (node : Node) (request : Engine → UInt64 → α × Engine) : α × Node :=
  let (answer, engine) := request node.engine node.clock
  (answer, { node with engine }.deliver)

/-- What consensus was told since it last looked. -/
def listen (node : Node) : List Notice × Node := (node.heard, { node with heard := [] })

/-- Takes the request for a block out, if there is one, and serves it by building and accepting. -/
def finalizeOnRequest (node : Node) : Node :=
  let (requested, mailbox) := node.mailbox.receive
  let node := { node with mailbox }
  if requested then (node.serve fun e clock => e.finalizePending clock).2 else node

end Node

end LeaseChain
