import Mmn.Table
import Mmn.Runs
import Mmn.Quorum
import Mmn.Encoding
import Mmn.Transaction
import Mmn.Poh
import Mmn.Recorder
import Mmn.Block
import Mmn.Ledger
import Mmn.Execution
import Mmn.Supply
import Mmn.Consensus
import Mmn.Mempool
import Mmn.Node
import Mmn.Network
import Mmn.Validator
import Mmn.System
import Mmn.Steps
import Mmn.Pipeline
import Mmn.Authorisation
import Mmn.Agreement
import Mmn.Replay
import Mmn.Determinism
import Mmn.Interleaving
import Mmn.BlockHash
import Mmn.Origin
import Mmn.HashChain
import Mmn.Certificate
import Mmn.Collecting
import Mmn.Delivery
import Mmn.Serialization
import Mmn.Memo
import Mmn.ZkVerify
import Mmn.Clock
import Mmn.Flush
import Mmn.Term
import Mmn.Custody
import Mmn.Pool
import Mmn.Accounting
import Mmn.Emission
import Mmn.Proposal
import Mmn.Latest
import Mmn.Operations
import Mmn.Flag
import Mmn.Effect
import Mmn.Restart
import Mmn.Highest
import Mmn.LockTable
import Mmn.SlotLocks
import Mmn.Sequencer
import Mmn.Arrival
import Mmn.Gaps
import Mmn.Lineage
import Mmn.RoundTrip
import Mmn.Versions
import Mmn.Commitment
import Mmn.Refinement
import Mmn.Stream
import Mmn.ContentChecks
import Mmn.Fifo
import Mmn.Follower
import Mmn.Idle
import Mmn.PoolOrder
import Mmn.Recording
import Mmn.ZkSender
import Mmn.Database
import Mmn.Filler
import Mmn.Finalization
import Mmn.Persistence
import Mmn.Batches
import Mmn.Client
import Mmn.Deadline
import Mmn.Intervals
import Mmn.JsonValue
import Mmn.Queries
import Mmn.Refusals
import Mmn.Schedule
import Mmn.Sending
import Mmn.StatusEvents
import Mmn.Tracking
import Mmn.Work
import Mmn.EncodedReads
import Mmn.Genesis
import Mmn.RateLimit
import Mmn.Reads
import Mmn.SlotHashes
import Mmn.Ticks
import Mmn.Abuse
import Mmn.EventBus
import Mmn.Ready
import Mmn.Startup
import Mmn.Subscriptions
import Mmn.Capacity
import Mmn.Checkpoint
import Mmn.HandOver
import Mmn.SyncHolders
import Mmn.Expiry
import Mmn.Nonces
