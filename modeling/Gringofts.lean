import Gringofts.App.Accepted
import Gringofts.App.Chronicle
import Gringofts.App.CommandLoop
import Gringofts.App.ControlSafety
import Gringofts.App.CtrlState
import Gringofts.App.Delivery
import Gringofts.App.EventApplyLoop
import Gringofts.App.EventStore
import Gringofts.App.FetchBundles
import Gringofts.App.KeyRotation
import Gringofts.App.Ledger
import Gringofts.App.LogSync
import Gringofts.App.Promises
import Gringofts.App.Readiness
import Gringofts.App.ReconfigureCommand
import Gringofts.App.Replay
import Gringofts.App.Service
import Gringofts.App.SplitPlan
import Gringofts.App.Transition
import Gringofts.Lib.Agree
import Gringofts.Lib.Decimal
import Gringofts.Lib.Majority
import Gringofts.Lib.Outcome
import Gringofts.Lib.Region
import Gringofts.Lib.Replication.History
import Gringofts.Lib.Replication.Invariant
import Gringofts.Lib.Replication.Preservation
import Gringofts.Lib.Replication.State
import Gringofts.Lib.Rounds
import Gringofts.Lib.Simulation
import Gringofts.Lib.Table
import Gringofts.Lib.TaskQueue
import Gringofts.Raft.Calls
import Gringofts.Raft.Clients
import Gringofts.Raft.Cluster
import Gringofts.Raft.CommitAdvance
import Gringofts.Raft.Evolution
import Gringofts.Raft.Membership
import Gringofts.Raft.Merge
import Gringofts.Raft.Node
import Gringofts.Raft.Office
import Gringofts.Raft.Overlap
import Gringofts.Raft.Peers
import Gringofts.Raft.Provenance
import Gringofts.Raft.Quorum
import Gringofts.Raft.RaftCore
import Gringofts.Raft.Reconfiguration
import Gringofts.Raft.Refinement.Election
import Gringofts.Raft.Refinement.Follow
import Gringofts.Raft.Refinement.Lead
import Gringofts.Raft.Refinement.Relation
import Gringofts.Raft.Refinement.Simulation
import Gringofts.Raft.Refinement.StepDown
import Gringofts.Raft.Repair.CatchUp
import Gringofts.Raft.Repair.Exchange
import Gringofts.Raft.Repair.Follower
import Gringofts.Raft.Repair.Leader
import Gringofts.Raft.Repair.Truncated
import Gringofts.Raft.Repair.Untruncated
import Gringofts.Raft.Repair.Windows
import Gringofts.Raft.ReplyLoop
import Gringofts.Raft.Safety
import Gringofts.Raft.Views
import Gringofts.Storage.BatchRead
import Gringofts.Storage.ByteLayout
import Gringofts.Storage.Content
import Gringofts.Storage.CrashPoints
import Gringofts.Storage.Disk
import Gringofts.Storage.Hmac
import Gringofts.Storage.InMemoryLog
import Gringofts.Storage.Layout
import Gringofts.Storage.Lockstep
import Gringofts.Storage.Log
import Gringofts.Storage.Operations
import Gringofts.Storage.Recovery
import Gringofts.Storage.Segment
import Gringofts.Storage.SegmentLife
import Gringofts.Storage.SegmentLog
import Gringofts.Storage.SegmentSpec
import Gringofts.Storage.Sound
import Gringofts.Storage.Suffix
import Gringofts.Storage.Tidy
import Gringofts.Storage.TornWrite
import Gringofts.Storage.Bounds
import Gringofts.Storage.Discard
import Gringofts.Raft.Dialogue
import Gringofts.App.SplitEpochs
import Gringofts.App.SplitOrder
import Gringofts.App.CtrlCodec
import Gringofts.App.Snapshot
import Gringofts.App.FileUtil
import Gringofts.App.MpscQueue
import Gringofts.App.SqliteStore
import Gringofts.App.Linear
import Gringofts.App.Migration
