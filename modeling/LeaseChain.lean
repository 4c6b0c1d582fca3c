import LeaseChain.Engine.Query
import LeaseChain.Main
import LeaseChain.Transaction.Mining
import LeaseChain.Proofs.ForStd.Except
import LeaseChain.Proofs.Wire.Lawful
import LeaseChain.Proofs.Wire.Records
import LeaseChain.Proofs.Wire.Frames
import LeaseChain.Proofs.Wire.Canonical
import LeaseChain.Proofs.Work
import LeaseChain.Proofs.Transaction.Mining
import LeaseChain.Proofs.Hex
import LeaseChain.Proofs.Json.Text
import LeaseChain.Proofs.Json.Layout
import LeaseChain.Proofs.Genesis.Document
import LeaseChain.Proofs.Store.Total
import LeaseChain.Proofs.Ledger.Footprint
import LeaseChain.Proofs.Ledger.Record
import LeaseChain.Proofs.Ledger.Outcome
import LeaseChain.Proofs.Ledger.Isolation
import LeaseChain.Proofs.Ledger.Independence
import LeaseChain.Proofs.Ledger.Run
import LeaseChain.Proofs.Ledger.Accounting
import LeaseChain.Proofs.Ledger.Rent
import LeaseChain.Proofs.Ledger.LiveWrites
import LeaseChain.Proofs.Ledger.Supply
import LeaseChain.Proofs.Ledger.Nesting
import LeaseChain.Proofs.Ledger.Charges
import LeaseChain.Proofs.Mempool.Ranking
import LeaseChain.Proofs.Mempool.Arrival
import LeaseChain.Proofs.FeeMarket
import LeaseChain.Proofs.Block.Effect
import LeaseChain.Proofs.Block.Legible
import LeaseChain.Proofs.Engine.Run
import LeaseChain.Proofs.Engine.Tracked
import LeaseChain.Proofs.Engine.Transition
import LeaseChain.Proofs.Engine.Opening
import LeaseChain.Proofs.Engine.Coherence
import LeaseChain.Proofs.Engine.Layers
import LeaseChain.Proofs.Engine.Bookkeeping
import LeaseChain.Proofs.Engine.Lineage
import LeaseChain.Proofs.Engine.Lookback
import LeaseChain.Proofs.Engine.Pedigree
import LeaseChain.Proofs.Engine.Acceptance
import LeaseChain.Proofs.Engine.Finality
import LeaseChain.Proofs.Engine.Rebasing
import LeaseChain.Proofs.Engine.Branches
import LeaseChain.Proofs.Engine.Replay
import LeaseChain.Proofs.Engine.Reverification
import LeaseChain.Proofs.Engine.Pool
import LeaseChain.Proofs.Engine.ReplayProtection
import LeaseChain.Proofs.Engine.Building
import LeaseChain.Proofs.Engine.Retention
import LeaseChain.Proofs.Engine.Rebuilding
import LeaseChain.Proofs.Engine.Disposal
import LeaseChain.Proofs.Engine.Networks
import LeaseChain.Proofs.Engine.Supply
import LeaseChain.Proofs.Engine.Allocations
import LeaseChain.Proofs.Engine.Payment
import LeaseChain.Proofs.Engine.Resuming
import LeaseChain.Proofs.Engine.Pending
import LeaseChain.Proofs.Engine.Failures
import LeaseChain.Proofs.Engine.Preference
import LeaseChain.Proofs.Engine.Finalizing
import LeaseChain.Proofs.Node.Interleaving
import LeaseChain.Proofs.Node.Wakeup
import LeaseChain.Proofs.Engine.Readability
import LeaseChain.Proofs.Engine.PlainAnswers
import LeaseChain.Proofs.Engine.Target
import LeaseChain.Proofs.Engine.Window
import LeaseChain.Proofs.Gossip
