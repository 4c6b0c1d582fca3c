import LeaseChain.Engine.Building
import LeaseChain.Engine.Opening
import LeaseChain.Proofs.Wire.Frames
import Mathlib.Data.List.Chain

/-!
# Runs of the engine

A run starts on an empty store and is a sequence of requests, each at a time of its own. `Request`
lists what can change the state; queries cannot. Opening the store again is a request too, and so is
that the medium starts to refuse commits. `Reach` relates the parameters of a chain to every state
that a run leads to, together with the `History` of the blocks on the way there.

## Key definitions

- `Engine.after`: the state after a request
- `Reach`: the reachable states with their histories
- `Block.Extends`, `History.Lineage`: how blocks stand on each other
-/

namespace LeaseChain

/-- What can change the state of the engine. -/
inductive Request where
  | parse (bytes : Bytes)
  | verify (block : Block)
  | accept (id : Hash)
  | reject (id : Hash)
  | prefer (id : Hash)
  | build
  | submit (tx : Transaction)
  | gossip (payload : Bytes)
  | prune
  | takeFresh
  | takeNotices
  | signal
  /-- The node stops, and starts again on its store. -/
  | reopen (g : Genesis) (settings : Settings)
  /-- The medium will refuse the next commits. -/
  | refuse (count : Nat)

/-- The blocks that exist are those with a frame. -/
def Request.WellFormed : Request → Prop
  | .verify block => block.IsFramed Engine.framing
  | _ => True

/-- The state after a request at a time. An engine whose store does not open stays as it was. -/
def Engine.after (e : Engine) (clock : UInt64) : Request → Engine
  | .parse bytes => (e.parse bytes).2
  | .verify block => (e.verify clock block).2
  | .accept id => (e.accept id).2
  | .reject id => (e.reject clock id).2
  | .prefer id => (e.prefer id).2
  | .build => (e.build clock).2
  | .submit tx => (e.submit clock tx).2
  | .gossip payload => (e.receiveGossip clock payload).2
  | .prune => (e.pruneMempool clock).2
  | .takeFresh => e.takeFresh.2
  | .takeNotices => e.takeNotices.2
  | .signal => e.signalPending
  | .reopen g settings =>
    match (Engine.start g settings e.store).1 with
    | .ok opened => opened
    | .error _ => e
  | .refuse count => { e with store := { e.store with refusals := count } }

/-- The blocks of a run, newest first. -/
structure History where
  /-- The block of height zero. -/
  first : Block
  /-- Those that were parsed, built or given for verification. -/
  named : List Block
  /-- Those that passed verification. -/
  verified : List Block
  /-- Those that were accepted after the first. -/
  accepted : List Block
deriving DecidableEq

namespace History

/-- The history of a run without requests. -/
def start (first : Block) : History := ⟨first, [], [], []⟩

/-- All blocks of a run. -/
def blocks (h : History) : List Block := h.first :: h.named

/-- The accepted blocks down to the first. -/
def chain (h : History) : List Block := h.accepted ++ [h.first]

/-- Notes a block. -/
def name (h : History) (block : Block) : History := { h with named := block :: h.named }

/-- Notes a block that passed verification. -/
def verify (h : History) (block : Block) : History :=
  { h with named := block :: h.named, verified := block :: h.verified }

/-- Notes that a block was accepted. -/
def accept (h : History) (block : Block) : History :=
  { h with accepted := block :: h.accepted }

/-- The history after a request. An accepted block is one that is committed, not one that was. -/
def record (h : History) (e : Engine) (clock : UInt64) : Request → History
  | .parse bytes =>
    match (e.parse bytes).1 with
    | .ok block => h.name block
    | .error _ => h
  | .verify block =>
    match (e.verify clock block).1 with
    | .ok () => h.verify block
    | .error _ => h.name block
  | .build =>
    match (e.build clock).1 with
    | .ok block => h.verify block
    | .error _ => h
  | .accept id =>
    match e.tracked[id]?, (e.accept id).1 with
    | some entry, .ok () => h.accept entry.block
    | _, _ => h
  | _ => h

/-- The history and the state after requests, each at its time. -/
def follow : List (UInt64 × Request) → History × Engine → History × Engine
  | [], run => run
  | (clock, request) :: requests, (h, e) =>
    follow requests (h.record e clock request, e.after clock request)

/-- The hash tells the blocks of the run apart. -/
def CollisionFree (h : History) : Prop := LeaseChain.CollisionFree (h.blocks.map (·.bytes))

/-- Every accepted block is a child of the one that was accepted before it. -/
def Linear (h : History) : Prop := h.chain.IsChain fun b p => b.parentId = p.id

/--
The blocks from one of the run to the first, through their parents. The first block ends a lineage
whatever it names as its parent.
-/
inductive Lineage (h : History) : List Block → Prop where
  | first : Lineage h [h.first]
  | child {b p : Block} {path : List Block} (hb : b ∈ h.blocks) (hne : b ≠ h.first)
      (hp : b.parentId = p.id) (hpath : Lineage h (p :: path)) : Lineage h (b :: p :: path)

end History

/-- A block stands on another: it names it as its parent, is one higher and later. -/
def Block.Extends (b p : Block) : Prop :=
  b.parentId = p.id ∧ b.height.toNat = p.height.toNat + 1 ∧ p.timestamp < b.timestamp

instance (b p : Block) : Decidable (b.Extends p) := by unfold Block.Extends; infer_instance

/-- The states that runs with the parameters `g` lead to, with their histories. -/
inductive Reach (g : Genesis) : History → Engine → Prop where
  /-- The first start, on an empty store. -/
  | start {settings : Settings} {refusals : Nat} {e : Engine} {store : Store}
      (h : Engine.start g settings ⟨∅, refusals⟩ = (.ok e, store)) :
      Reach g (.start e.lastAccepted) e
  | call {h : History} {e : Engine} (clock : UInt64) {request : Request}
      (hform : request.WellFormed) (hreach : Reach g h e) :
      Reach g (h.record e clock request) (e.after clock request)

/-- The engine at rest on the first block, right after the genesis state was written. -/
def Engine.atGenesis (g : Genesis) (credits : List (PublicKey × UInt64)) (first : Block) : Engine :=
  atRest g {} ⟨Table.apply ∅ (((((creditAll credits).put (StoreKey.block first.id) first.bytes).put
    StoreKey.lastAccepted first.id.bytes).put StoreKey.genesis g.toDocument).put
    StoreKey.initialized [1]), 0⟩ first

/-- `Engine.start` on an empty store gives `atGenesis`. -/
theorem Engine.start_atGenesis {g : Genesis} {credits : List (PublicKey × UInt64)} {first : Block}
    (hvalid : g.validate = .ok ()) (hfirst : Block.first Engine.framing g = .ok first)
    (hcredits : g.credits = .ok credits) :
    Engine.start g {} ⟨∅, 0⟩ =
      (.ok (Engine.atGenesis g credits first), (Engine.atGenesis g credits first).store) := by
  have hempty : ¬(∅ : Table Bytes).contains StoreKey.initialized = true := by simp
  -- on an empty store `Engine.start` writes the genesis state, which is the engine of `atGenesis`
  rw [Engine.start, if_neg hempty, Engine.genesisState, hvalid, hfirst, hcredits]
  rfl

/-- `Reach` starts at `atGenesis`. -/
theorem Reach.atGenesis {g : Genesis} {credits : List (PublicKey × UInt64)} {first : Block}
    (hvalid : g.validate = .ok ()) (hfirst : Block.first Engine.framing g = .ok first)
    (hcredits : g.credits = .ok credits) :
    Reach g (.start first) (Engine.atGenesis g credits first) :=
  .start (Engine.start_atGenesis hvalid hfirst hcredits)

/-- `Reach` goes on along `History.follow`. -/
theorem Reach.follow {g : Genesis} {h : History} {e : Engine} (hreach : Reach g h e)
    {requests : List (UInt64 × Request)}
    (hform : ∀ request ∈ requests, request.2.WellFormed) :
    Reach g (History.follow requests (h, e)).1 (History.follow requests (h, e)).2 := by
  -- induction on the requests, with the state after the first one in place of `e`
  induction requests generalizing h e with
  | nil => exact hreach
  | cons request requests ih =>
    obtain ⟨hfirst, hrest⟩ := List.forall_mem_cons.1 hform
    exact ih (hreach.call request.1 hfirst) hrest

/-- `Reach` goes on with `submit`, which adds nothing to the history. -/
theorem Reach.submit {g : Genesis} {h : History} {e : Engine} (hreach : Reach g h e)
    (clock : UInt64) (tx : Transaction) : Reach g h (e.submit clock tx).2 :=
  @Reach.call g h e clock (.submit tx) trivial hreach

/-! ## Two siblings

A chain without fees, on which a key claims a name, in two blocks of different times on the first
one. The key is the neutral point: the signature of that point and zero fits every message under it.
-/

namespace Siblings

/-- The encoding of the neutral point. -/
def keyBytes : Bytes := 1 :: List.replicate 31 0

/-- Anyone can sign for this key. -/
def key : PublicKey := ⟨keyBytes, rfl, by decide +kernel⟩

/-- The default parameters, with a price of nothing. -/
def genesis : Genesis := { minPrice := 0 }

/-- A hash that is given by its digits. -/
def hash (n : Nat) : Hash := ⟨Bytes.ofNatBE 32 n, by simp [Bytes.ofNatBE]⟩

/-- The frame of a block's contents, which is empty where there is none. -/
def frame (content : BlockContent) : Bytes :=
  match Engine.framing.encode content with
  | .ok bytes => bytes
  | .error _ => []

/-- The block of height zero. -/
def first : Block where
  content := ⟨Hash.zero, 0, 0, 1, 0, []⟩
  bytes := frame ⟨Hash.zero, 0, 0, 1, 0, []⟩
  id := hash 0x785accb4db43b1e0e5aeb00db18b89f5e77a87fe7c9fe39d0fd593eef5db2777
  id_eq := by decide +kernel

/-- The name `foo` is claimed, with a reference to the first block. -/
def claim : Transaction where
  unsigned := ⟨⟨key, first.id, 0, 0⟩, .claim "foo"⟩
  signature := ⟨keyBytes ++ List.replicate 32 0, rfl⟩
  digest := hash 0x1ea6b257dee3dc6facd65c90807a0cf5538cc9d6f610b82b383238c95d69811f
  id := hash 0x7eacdaefa103bf2e67576a7fc6a218c24ccbb0e2db86170109ba5f973f633ee2
  digest_eq := by decide +kernel
  id_eq := by decide +kernel

/-- The claim in a block of fifty seconds. -/
def left : Block where
  content := ⟨first.id, 50, 1, 1, 0, [claim]⟩
  bytes := frame ⟨first.id, 50, 1, 1, 0, [claim]⟩
  id := hash 0x0c7424527c2025d1052e51736a636102664a042af231ed872eb33ec84731f9f7
  id_eq := by decide +kernel

/-- The same claim in a block of sixty seconds. -/
def right : Block where
  content := ⟨first.id, 60, 1, 1, 0, [claim]⟩
  bytes := frame ⟨first.id, 60, 1, 1, 0, [claim]⟩
  id := hash 0x40cfa17c8f5433d0b6bd9033b7dd4661f25747bbf8e205469b5b179d6c857143
  id_eq := by decide +kernel

theorem isFramed_first : first.IsFramed Engine.framing := Block.isFramed_iff.2 (by decide +kernel)

theorem isFramed_left : left.IsFramed Engine.framing := Block.isFramed_iff.2 (by decide +kernel)

theorem isFramed_right : right.IsFramed Engine.framing := Block.isFramed_iff.2 (by decide +kernel)

/-- The engine on the first block. -/
def start : Engine :=
  Engine.atRest genesis {} ⟨Table.apply ∅ (((((∅ : Changes).put (StoreKey.block first.id)
    first.bytes).put StoreKey.lastAccepted first.id.bytes).put StoreKey.genesis
    genesis.toDocument).put StoreKey.initialized [1]), 0⟩ first

/-- Starting on an empty store with `genesis` gives `start`. -/
theorem started : Engine.start genesis {} ⟨∅, 0⟩ = (.ok start, start.store) := by
  have hfirst : Block.first Engine.framing genesis = .ok first :=
    Block.ofContent_eq_ok_iff.2 ⟨rfl, isFramed_first⟩
  have hstart : start = Engine.atGenesis genesis [] first := by
    rw [start, Engine.atGenesis, Engine.creditAll, List.foldl_nil]
  rw [hstart]
  exact Engine.start_atGenesis rfl hfirst rfl

/-- `Reach` holds of `start`, so that runs go on from it. -/
theorem reach_start : Reach genesis (.start first) start := .start started

/-- Both blocks are verified, and the left one is accepted. -/
def forked : History × Engine :=
  History.follow [(100, .verify left), (100, .verify right), (100, .accept left.id)]
    (.start first, start)

/--
The run to `forked` has the blocks that it verifies in their frames, and so it is one of `Reach`.
-/
theorem reach_forked : Reach genesis forked.1 forked.2 := by
  refine reach_start.follow fun request hrequest => ?_
  simp only [List.mem_cons, List.not_mem_nil, or_false] at hrequest
  rcases hrequest with rfl | rfl | rfl
  · exact isFramed_left
  · exact isFramed_right
  · trivial

/-- Both siblings were named and verified, and only `left` was accepted. -/
theorem history_forked : forked.1 = ⟨first, [right, left], [right, left], [left]⟩ := by
  decide +kernel

theorem collisionFree_forked : forked.1.CollisionFree := by
  rw [history_forked]
  exact CollisionFree.of_ids (·.id_eq) (by decide +kernel)

end Siblings

end LeaseChain
