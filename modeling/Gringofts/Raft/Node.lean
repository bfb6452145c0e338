import Gringofts.Raft.Membership
import Mathlib.Data.List.Sort

/-!
# A node, its messages and its quorums

The data members of `RaftCore` and the small functions of its header: the majority index, the
vote count and the time since a majority was last heard of.

## Time

A step reads the clock and may draw a random election timeout; both come in as a `Clock`. Nothing
is assumed about them: clocks may jump, and a timeout may have any length.

## What a step sends

A step leaves what it hands to the network and to the clients in `outbox`. The field is no part
of the source's state; it is emptied before each step.

## Main definitions

* `RaftConfig`, `Clock` — the configurable variables, and what a step reads of the time
* `AppendEntriesRequest`, `AppendEntriesResponse`, `RequestVoteRequest`, `RequestVoteResponse`
* `Node` — the state of a `RaftCore`
* `Node.getMajorityIndex`, `Node.checkVotePass`, `Node.getMajorityTimeElapse`
-/

namespace Gringofts

/-- The configurable variables. `initConfigurableVars` asserts that the three limits are not
zero. -/
structure RaftConfig where
  maxBatchSize : ℕ
  maxLenInBytes : ℕ
  maxDecrStep : ℕ
  preVoteEnabled : Bool
  heartBeatIntervalInMillis : ℕ
  maxElectionTimeoutInMillis : ℕ
  /-- In seconds. -/
  initialElectionTimeout : ℕ
  /-- The size of a serialised entry. -/
  byteSize : LogEntry → ℕ
  latestSecKeyVersion : ℕ
  maxBatchSize_pos : 0 < maxBatchSize
  maxLenInBytes_pos : 0 < maxLenInBytes
  maxDecrStep_pos : 0 < maxDecrStep

/-- What a step reads of the time: the current time and a random election timeout, both in
nanoseconds. -/
structure Clock where
  now : ℕ
  interval : ℕ

/-! ## Messages -/

/-- `AppendEntries::Request`. -/
structure AppendEntriesRequest where
  term : ℕ
  leaderId : ℕ
  prevLogIndex : ℕ
  prevLogTerm : ℕ
  entries : List LogEntry
  commitIndex : ℕ
  deriving DecidableEq

/-- `AppendEntries::Response`. -/
structure AppendEntriesResponse where
  term : ℕ
  success : Bool
  id : ℕ
  savedTerm : ℕ
  savedPrevLogIndex : ℕ
  lastLogIndex : ℕ
  matchIndex : ℕ
  deriving DecidableEq

/-- `RequestVote::Request`. -/
structure RequestVoteRequest where
  term : ℕ
  candidateId : ℕ
  lastLogIndex : ℕ
  lastLogTerm : ℕ
  prevote : Bool
  deriving DecidableEq

/-- `RequestVote::Response`. -/
structure RequestVoteResponse where
  term : ℕ
  voteGranted : Bool
  id : ℕ
  savedTerm : ℕ
  prevote : Bool
  deriving DecidableEq

/-- What a step hands to the network and to the clients. -/
inductive Output
  /-- An AE request to a peer. -/
  | appendEntries (dst : ℕ) (request : AppendEntriesRequest)
  /-- An RV or RPV request to a peer. -/
  | requestVote (dst : ℕ) (request : RequestVoteRequest)
  /-- `fillResultAndReply` on a client's handle. -/
  | reply (handle : ℕ) (code : ℕ) (message : String) (leaderId : ℕ)
  deriving DecidableEq

/-! ## State -/

/-- The state of a `RaftCore`. -/
structure Node where
  members : ClusterMemberShip
  role : RaftRole
  /-- The leader hint; `0` is nobody. -/
  leaderId : ℕ
  electionTimePoint : ℕ
  commitIndex : ℕ
  beginIndex : ℕ
  log : Log
  /-- The indices that clients wait for, with the handle to answer on, if there is one. -/
  pendingClientRequests : List (ℕ × Option ℕ)
  /-- What the current step has sent so far. -/
  outbox : List Output

namespace Node

variable (n : Node)

/-- The node's own id. -/
def selfId : ℕ := n.members.selfId

/-- What is known of a peer. -/
def peer? (id : ℕ) : Option Peer := n.members.peers.find? id

/-- Change what is known of one peer. -/
def modifyPeer (id : ℕ) (f : Peer → Peer) : Node :=
  { n with members := { n.members with peers := n.members.peers.modify id f } }

/-- Change what is known of every peer. -/
def mapPeers (f : Peer → Peer) : Node :=
  { n with members := { n.members with peers := n.members.peers.map fun _ p => f p } }

/-- Hand something to the network or to a client. -/
def send (o : Output) : Node := { n with outbox := n.outbox ++ [o] }

/-- A durable write. -/
def write (l : Log) : Act Node := do
  Outcome.persist l
  pure { n with log := l }

/-- `updateElectionTimePoint`. -/
def updateElectionTimePoint (clk : Clock) : Node :=
  { n with electionTimePoint := clk.now + clk.interval }

/-- `termOfLogEntryAt`. -/
def termOfLogEntryAt (index : ℕ) : Act ℕ :=
  Outcome.ofOption (.termOfLogEntryAt index) (n.log.getTerm index)

/-! ## Quorums -/

/-- `mPeers.find(id)`, which is asserted to find something. -/
def peerAt (id : ℕ) : Act Peer := Outcome.ofOption (.unknownPeer id) (n.peer? id)

/-- The loop shared by the three functions that look for a majority value: one value for each
member of the set that has the wanted role. -/
def collect (role : RaftRole) (value : ℕ → Act ℕ) : List ℕ → Act (List ℕ)
  | [] => pure []
  | id :: ids => do
    if (← n.members.initialRole id) ≠ role then
      collect role value ids
    else
      let x ← value id
      let xs ← collect role value ids
      pure (x :: xs)

/-- What a member of a quorum contributes: the node itself `self`, a peer what is known of it. -/
def contribution (self : ℕ) (value : Peer → ℕ) (id : ℕ) : Act ℕ :=
  if n.selfId = id then pure self else do return value (← n.peerAt id)

/-- The element in the middle of the values in decreasing order. -/
def middle (xs : List ℕ) : Act ℕ :=
  Outcome.ofOption .emptyQuorum ((xs.insertionSort (· ≥ ·))[xs.length / 2]?)

/-- `getMajorityIndexofVoters`. -/
def getMajorityIndexofVoters (ids : IdSet) : Act ℕ := do
  middle (← n.collect .follower (n.contribution n.log.lastIndex Peer.matchIndex) ids.elems)

/-- `getMajorityIndexofLearners`. The node itself is looked up among its peers like the
others. -/
def getMajorityIndexofLearners (ids : IdSet) : Act ℕ := do
  middle (← n.collect .learner (fun id => do return (← n.peerAt id).matchIndex) ids.elems)

/-- `getMajorityIndex`. -/
def getMajorityIndex : Act ℕ := do
  if n.members.isJoint then
    let old ← n.getMajorityIndexofVoters n.members.oldMembers
    let new ← n.getMajorityIndexofVoters n.members.newMembers
    pure (min old new)
  else if n.members.insyncLearners.isEmpty then
    n.getMajorityIndexofVoters n.members.nodeIds
  else
    let voters ← n.getMajorityIndexofVoters n.members.nodeIds
    let learners ← n.getMajorityIndexofLearners n.members.insyncLearners
    pure (min voters learners)

/-- Has a member voted for this node, as far as it knows? It has itself. -/
def hasVote (id : ℕ) : Act Bool :=
  if n.selfId = id then pure true else do return (← n.peerAt id).haveVote

/-- The loop of `checkQuorumVoteofInput`: the votes, and the members that do not count. -/
def countVotes : List ℕ → Act (ℕ × ℕ)
  | [] => pure (0, 0)
  | id :: ids => do
    if ← n.members.isLearner id then
      let (voteNum, nonVoterNum) ← countVotes ids
      pure (voteNum, nonVoterNum + 1)
    else
      let vote ← n.hasVote id
      let (voteNum, nonVoterNum) ← countVotes ids
      pure (if vote then voteNum + 1 else voteNum, nonVoterNum)

/-- `getMajorityNumber`. -/
def getMajorityNumber (totalNum : ℕ) : ℕ := totalNum / 2 + 1

/-- `checkQuorumVoteofInput`. -/
def checkQuorumVoteofInput (ids : IdSet) : Act Bool := do
  let (voteNum, nonVoterNum) ← n.countVotes ids.elems
  pure (getMajorityNumber (ids.elems.length - nonVoterNum) ≤ voteNum)

/-- `checkVotePass`. -/
def checkVotePass : Act Bool := do
  if n.members.isJoint then
    if ← n.checkQuorumVoteofInput n.members.oldMembers then
      n.checkQuorumVoteofInput n.members.newMembers
    else
      pure false
  else
    n.checkQuorumVoteofInput n.members.nodeIds

/-- `getMajorityTimeElapseofInput`. The difference wraps around, as the clock may have been set
back. -/
def getMajorityTimeElapseofInput (clk : Clock) (ids : IdSet) : Act ℕ := do
  let t ← middle (← n.collect .follower (n.contribution clk.now Peer.lastResponseTime) ids.elems)
  pure ((2 ^ 64 + clk.now - t) % 2 ^ 64)

/-- `getMajorityTimeElapse`. -/
def getMajorityTimeElapse (clk : Clock) : Act ℕ := do
  if n.members.isJoint then
    let old ← n.getMajorityTimeElapseofInput clk n.members.oldMembers
    let new ← n.getMajorityTimeElapseofInput clk n.members.newMembers
    pure (max old new)
  else
    n.getMajorityTimeElapseofInput clk n.members.nodeIds

end Node

end Gringofts
