import QuorumChain.Block
import QuorumChain.Block.Identity
import QuorumChain.BuildPolicy
import QuorumChain.Bytes
import QuorumChain.Bytes.Hex
import QuorumChain.Clock
import QuorumChain.Clock.Binary64
import QuorumChain.Clock.Ticker
import QuorumChain.Cluster
import QuorumChain.Config
import QuorumChain.Counter
import QuorumChain.Crypto.Blake3
import QuorumChain.Crypto.Ed25519
import QuorumChain.Crypto.Edwards25519
import QuorumChain.Crypto.Field25519
import QuorumChain.Crypto.Sha512
import QuorumChain.Crypto.Standard
import QuorumChain.Crypto.Suite
import QuorumChain.Database
import QuorumChain.Engine
import QuorumChain.Engine.Failing
import QuorumChain.Executor
import QuorumChain.Fault
import QuorumChain.Intent
import QuorumChain.Json.Forms
import QuorumChain.Json.Indented
import QuorumChain.Json.Printer
import QuorumChain.Json.Reader
import QuorumChain.Json.Value
import QuorumChain.Ledger
import QuorumChain.Main
import QuorumChain.Message
import QuorumChain.Network
import QuorumChain.Peer
import QuorumChain.Peer.Set
import QuorumChain.Power
import QuorumChain.Proofs.Block.Commitment
import QuorumChain.Proofs.Block.Overlap
import QuorumChain.Proofs.Block.Witness
import QuorumChain.Proofs.Bytes
import QuorumChain.Proofs.Bytes.Hex
import QuorumChain.Proofs.Change
import QuorumChain.Proofs.Cluster.Agreement
import QuorumChain.Proofs.Cluster.Safety
import QuorumChain.Proofs.Cluster.World
import QuorumChain.Proofs.Counter
import QuorumChain.Proofs.Database.Audit
import QuorumChain.Proofs.Database.Custody
import QuorumChain.Proofs.Json.Forms
import QuorumChain.Proofs.Json.Printed
import QuorumChain.Proofs.Ledger.Basic
import QuorumChain.Proofs.Ledger.Chain
import QuorumChain.Proofs.Ledger.Collector
import QuorumChain.Proofs.Ledger.Delivery
import QuorumChain.Proofs.Ledger.Pending
import QuorumChain.Proofs.Ledger.Replay
import QuorumChain.Proofs.Ledger.Staging
import QuorumChain.Proofs.Ledger.Support
import QuorumChain.Proofs.Pacing
import QuorumChain.Proofs.Peer.Contents
import QuorumChain.Proofs.Peer.Set
import QuorumChain.Proofs.Plain
import QuorumChain.Proofs.Quorum
import QuorumChain.Proofs.Validator.Announce
import QuorumChain.Proofs.Validator.AtHand
import QuorumChain.Proofs.Validator.Certificate
import QuorumChain.Proofs.Validator.Coupling
import QuorumChain.Proofs.Validator.Decision
import QuorumChain.Proofs.Validator.Demand
import QuorumChain.Proofs.Validator.Level
import QuorumChain.Proofs.Validator.Lock
import QuorumChain.Proofs.Validator.Outbox
import QuorumChain.Proofs.Validator.Part
import QuorumChain.Proofs.Validator.Path
import QuorumChain.Proofs.Validator.Recorded
import QuorumChain.Proofs.Validator.Release
import QuorumChain.Proofs.Validator.Requests
import QuorumChain.Proofs.Validator.Run
import QuorumChain.Proofs.Validator.Settings
import QuorumChain.Proofs.Validator.Step
import QuorumChain.Proofs.Validator.Survival
import QuorumChain.Proofs.Validator.Watch
import QuorumChain.Proofs.View.Basic
import QuorumChain.Proofs.View.Climb
import QuorumChain.Proofs.View.Coherence
import QuorumChain.Proofs.View.Continuity
import QuorumChain.Proofs.View.Due
import QuorumChain.Proofs.View.Effect
import QuorumChain.Proofs.View.Knowledge
import QuorumChain.Proofs.View.Move
import QuorumChain.Proofs.View.Prepared
import QuorumChain.Proofs.View.Refusal
import QuorumChain.Proofs.View.Reports
import QuorumChain.Proofs.View.Rest
import QuorumChain.Proofs.View.Room
import QuorumChain.Proofs.View.Rounds
import QuorumChain.Proofs.View.Run
import QuorumChain.Proofs.View.Waiting
import QuorumChain.Proofs.Wire.Charges
import QuorumChain.Proofs.Wire.Forms
import QuorumChain.Proofs.Wire.Lawful
import QuorumChain.Proofs.Wire.Reading
import QuorumChain.Proofs.Wire.Varint
import QuorumChain.Simulation
import QuorumChain.Status
import QuorumChain.Text
import QuorumChain.Validator
import QuorumChain.Validator.Event
import QuorumChain.Validator.Host
import QuorumChain.Validator.Requests
import QuorumChain.Validator.Timers
import QuorumChain.View
import QuorumChain.View.Event
import QuorumChain.View.Recompute
import QuorumChain.Wire.Codec
import QuorumChain.Wire.Forms
