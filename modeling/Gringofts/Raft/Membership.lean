import Gringofts.Lib.Table
import Gringofts.Storage.Log
import Mathlib.Algebra.Group.Nat.Defs

/-!
# Cluster membership

`ClusterInfo` is the configuration a node is started or reconfigured with, `ClusterMemberShip`
what `RaftCore::initClusterConf` makes of it: the peers, everybody's initial role, and the sets
that joint consensus and in-sync learners need.

A question about a node that the configuration does not know is not answered by the code:
`std::map::at` throws. The model keeps that as a failed assertion.

## Main definitions

* `RaftRole`, `InitialRaftRole` — the role of a node, and the role it is configured with
* `ClusterInfo`, `ClusterMemberShip`, `Peer`
* `initClusterConf` — from the one to the other
* `isVoter`, `isLearner`, `isPreFollower`
-/

namespace Gringofts

/-- `RaftRole`. -/
inductive RaftRole
  | leader
  | follower
  | candidate
  | syncer
  | preCandidate
  | learner
  | preFollower
  deriving DecidableEq, Repr

/-- `app::protos::InitialRaftRole`. The enumeration is open: a number without a name is kept. -/
inductive InitialRaftRole
  | voter
  | preFollower
  | learner
  | unnamed (number : ℕ)
  deriving DecidableEq, Repr

/-- The role that `initClusterConf` records for an initial role: whatever is neither a pre-follower
nor a learner is a voter. -/
def InitialRaftRole.toRaftRole : InitialRaftRole → RaftRole
  | .preFollower => .preFollower
  | .learner => .learner
  | _ => .follower

/-- What stops a node: one constructor for each assertion of the modelled code, and one for each
lookup that throws. -/
inductive Assertion
  /-- `mInitialRoles.at(id)` throws. -/
  | unknownMember (id : ℕ)
  /-- `it != mPeers.end()` -/
  | unknownPeer (id : ℕ)
  /-- `mSelfInfo.mId != kBadID` -/
  | badSelfId
  /-- An element of an empty vector is read. -/
  | emptyQuorum
  /-- `mLog->getTerm(index, &term)` in `termOfLogEntryAt` -/
  | termOfLogEntryAt (index : ℕ)
  /-- `startIndex == lastIndex + 1` in `getEntries` -/
  | startIndex
  /-- `mLeaderId == request.leader_id()` -/
  | leaderId
  /-- `entry.index() == ++index` -/
  | entryIndex
  /-- `entry.index() > mCommitIndex` -/
  | truncateCommitted
  /-- `mLog->appendEntries(entries)` -/
  | appendEntries
  /-- `mLastIndex + 1 + i == entry.index()` in `Segment::appendEntries` -/
  | segmentIndex
  /-- `mCommitIndex <= mLog->getLastLogIndex()` -/
  | commitIndex
  /-- `mRaftRole == RaftRole::Leader` in `handleAppendEntriesResponse` -/
  | stillLeader
  /-- `peer.mMatchIndex <= response.match_index()` -/
  | matchIndex
  /-- `peer.mMatchIndex + 1 < peer.mNextIndex` -/
  | nextIndex
  /-- `currentTerm <= newTerm` in `stepDown` -/
  | stepDownTerm
  /-- `prevRole == RaftRole::Candidate || prevRole == RaftRole::PreCandidate` in `stepDown` -/
  | stepDownRole
  /-- `mLeaderId == 0` in `stepDown` -/
  | stepDownLeaderId
  /-- `syncRequest.mStartIndex == mLog->getLastLogIndex() + 1` -/
  | syncStartIndex
  /-- `!syncRequest.mEntries.empty()` -/
  | syncEntries
  /-- `mLog->getLastLogIndex() == syncRequest.mEndIndex` -/
  | syncEndIndex
  /-- `firstIndexKept <= mCommitIndex` in `truncatePrefix` -/
  | truncatePrefix
  deriving DecidableEq, Repr

/-- A computation of a node: its durable states are logs. -/
abbrev Act (α : Type) := Outcome Log Assertion α

/-! ## Configuration -/

/-- `ClusterInfo::Node`. -/
structure ClusterInfo.Node where
  hostName : String
  portForRaft : ℕ
  initialRole : InitialRaftRole
  deriving DecidableEq

/-- `ClusterInfo`. -/
structure ClusterInfo where
  clusterId : ℕ
  /-- The nodes by their id. -/
  nodes : Table ClusterInfo.Node
  /-- Empty when there is no joint group. -/
  oldJointMembers : IdSet
  /-- Empty when there is no joint group. -/
  newJointMembers : IdSet
  insyncLearners : IdSet

/-- `Peer`. Its id is its key in the table of peers. -/
structure Peer where
  address : String
  requestVoteDone : Bool := false
  haveVote : Bool := false
  matchIndex : ℕ := 0
  nextIndex : ℕ := 1
  suppressBulkData : Bool := true
  lastAERequestTime : ℕ := 0
  nextAERequestTime : ℕ := 0
  lastRVRequestTime : ℕ := 0
  nextRVRequestTime : ℕ := 0
  lastResponseTime : ℕ := 0
  deriving DecidableEq

/-- `RaftCore::ClusterMemberShip`. -/
structure ClusterMemberShip where
  selfId : ℕ
  selfAddress : String
  peers : Table Peer
  /-- The address that the client for each peer was made for. -/
  clients : Table String
  initialRoles : Table RaftRole
  oldMembers : IdSet
  newMembers : IdSet
  insyncLearners : IdSet

/-- `host + ":" + port`. -/
def ClusterInfo.Node.address (n : ClusterInfo.Node) : String :=
  n.hostName ++ ":" ++ toString n.portForRaft

/-- What `initClusterConf` makes of a configuration, for the node `self` with the id `selfId`. -/
def ClusterInfo.memberShip (info : ClusterInfo) (selfId : ℕ) (self : ClusterInfo.Node) :
    ClusterMemberShip where
  selfId := selfId
  selfAddress := self.address
  peers := (info.nodes.erase selfId).map fun _ n => { address := n.address }
  clients := (info.nodes.erase selfId).map fun _ n => n.address
  initialRoles := info.nodes.map fun _ n => n.initialRole.toRaftRole
  oldMembers := info.oldJointMembers
  newMembers := info.newJointMembers
  insyncLearners := info.insyncLearners

/-- `initClusterConf`. Fails when the node is not part of the configuration, or is called `0`. -/
def initClusterConf (info : ClusterInfo) (selfId : ℕ) : Act ClusterMemberShip := do
  let self ← Outcome.ofOption .badSelfId (info.nodes.find? selfId)
  Outcome.check (selfId ≠ 0) .badSelfId
  pure (info.memberShip selfId self)

namespace ClusterMemberShip

/-- The key that `isVoter` and `isLearner` look up for the id in a message, which has 64 bits where
the keys of `mInitialRoles` have 32. The ids of a configuration have 32 as well. -/
def roleKey (id : ℕ) : ℕ := id % 2 ^ 32

variable (m : ClusterMemberShip)

/-- `mInitialRoles.at(id)`. -/
def initialRole (id : ℕ) : Act RaftRole :=
  Outcome.ofOption (.unknownMember id) (m.initialRoles.find? id)

/-- `isVoter`. -/
def isVoter (id : ℕ) : Act Bool := do return (← m.initialRole id) = .follower

/-- `isLearner`. -/
def isLearner (id : ℕ) : Act Bool := do return (← m.initialRole id) = .learner

/-- `isPreFollower`. -/
def isPreFollower (id : ℕ) : Act Bool := do return (← m.initialRole id) = .preFollower

/-- Neither joint set is empty: `Cold` and `Cnew` co-exist. -/
def isJoint : Bool := !m.oldMembers.isEmpty && !m.newMembers.isEmpty

/-- The ids of the peers and of the node itself. -/
def nodeIds : IdSet := m.peers.keys.insert m.selfId

end ClusterMemberShip

end Gringofts
