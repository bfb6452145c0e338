import Gringofts.Raft.Node

/-!
# The steps of `RaftCore`

Each function of the main loop and each message handler, as the source computes it: the state of
the node is passed along, a durable write is recorded where the source makes it, and an assertion
that fails stops the step.

## Order of durable writes

`stepDown`, `becomeCandidate` and `electionTimeout` raise the term and set the vote in two writes.
A crash can fall between them, and what the node then comes back with is the first of the two.

## Main definitions

* `Node.appendEntries`, `Node.requestVote` — sending
* `Node.handleAppendEntriesRequest`, `Node.handleAppendEntriesResponse`,
  `Node.handleRequestVoteRequest`, `Node.handleRequestVoteResponse`,
  `Node.handleClientRequests`, `Node.handleSyncRequest`, `Node.handleReconfigureRequest`
* `Node.advanceCommitIndex`, `Node.becomeCandidate`, `Node.becomeLeader`,
  `Node.electionTimeout`, `Node.leadershipTimeout`, `Node.stepDown`, `Node.truncatePrefix`
* `Event`, `Node.handle` — everything that can happen at a node
-/

namespace Gringofts

open Outcome

/-! ## Requests from outside -/

/-- `ClientRequest`: an entry, and the handle to answer on, if there is one. -/
structure ClientRequest where
  entry : LogEntry
  handle : Option ℕ
  deriving DecidableEq

/-- What is remembered of a request until its entry is committed. -/
def ClientRequest.pending (c : ClientRequest) : ℕ × Option ℕ := (c.entry.index, c.handle)

/-- `SyncRequest`. The finishing request carries the index the cluster begins at. -/
structure SyncRequest where
  entries : List LogEntry
  startIndex : ℕ
  endIndex : ℕ
  finishMeta : Option ℕ

/-! ## Appending to the log -/

/-- The loop of `Segment::appendEntries`: the entries reach the disk one after the other, and
each has to carry the next index. -/
def appendAll : Log → List LogEntry → Act Log
  | l, [] => pure l
  | l, e :: es =>
    if h : e.index = l.lastIndex + 1 then do
      persist (l.appendEntry e h)
      appendAll (l.appendEntry e h) es
    else fail .segmentIndex

/-- `SegmentLog::appendEntries`: refused when the first entry does not carry the next index. -/
def Log.appendEntries (l : Log) (es : List LogEntry) : Act (Log × Bool) :=
  match es with
  | [] => pure (l, true)
  | e :: _ =>
    if e.index ≠ l.lastIndex + 1 then pure (l, false)
    else do
      let l ← appendAll l es
      pure (l, true)

namespace Node

variable (cfg : RaftConfig) (clk : Clock) (n : Node)

/-! ## Stepping down -/

/-- Answer every pending client request on its handle. -/
def replyPending (code : ℕ) (message : String) : List (ℕ × Option ℕ) → List Output
  | [] => []
  | (_, some handle) :: ps => .reply handle code message n.leaderId :: replyPending code message ps
  | (_, none) :: ps => replyPending code message ps

/-- What follows the loss of leadership: the waiting clients are turned away and the election
timer runs again. -/
def dropPending : Node :=
  updateElectionTimePoint
    { n with
      outbox := n.outbox ++ n.replyPending 301 "LeaderStepDown" n.pendingClientRequests
      pendingClientRequests := [] } clk

/-- The part of `stepDown` that concerns the term: a higher one is adopted, and in the same term
only somebody who is standing may step down. -/
def adoptTerm (prevRole : RaftRole) (newTerm : ℕ) : Act Node :=
  if n.log.currentTerm < newTerm then do
    let n ← write { n with leaderId := 0 } (n.log.setCurrentTerm newTerm)
    n.write (n.log.setVoteFor 0)
  else do
    check (prevRole = .candidate ∨ prevRole = .preCandidate) .stepDownRole
    check (n.leaderId = 0) .stepDownLeaderId
    pure n

/-- The role after stepping down. -/
def demotedRole : RaftRole :=
  if n.role ≠ .learner ∧ n.role ≠ .preFollower then .follower else n.role

/-- `stepDown`. -/
def stepDown (newTerm : ℕ) : Act Node := do
  check (n.log.currentTerm ≤ newTerm) .stepDownTerm
  let m ← adoptTerm { n with role := n.demotedRole } n.role newTerm
  pure (if n.role = .leader then m.dropPending clk else m)

/-! ## Sending -/

/-- `std::numeric_limits<uint64_t>::max()`, which switches a timer off. -/
def never : ℕ := 2 ^ 64 - 1

/-- The term sent along with the previous index, and whether bulk data is suppressed from now
on: an index outside the log is sent with term `0`. -/
def prevLogTermFor (p : Peer) : Act (ℕ × Bool) :=
  if p.nextIndex - 1 < n.log.firstIndex - 1 ∨ n.log.lastIndex < p.nextIndex - 1 then
    pure (0, true)
  else do
    let prevLogTerm ← n.termOfLogEntryAt (p.nextIndex - 1)
    pure (prevLogTerm, p.suppressBulkData)

/-- The entries sent to a peer. -/
def entriesFor (segmentLast : ℕ → ℕ) (p : Peer) (suppress : Bool) : Act (List LogEntry) :=
  if suppress then pure []
  else if n.log.lastIndex < p.nextIndex then do
    check (p.nextIndex = n.log.lastIndex + 1) .startIndex
    pure []
  else
    pure (n.log.getEntries cfg.byteSize p.nextIndex cfg.maxLenInBytes cfg.maxBatchSize
      (segmentLast p.nextIndex))

/-- The part of the loop of `appendEntries` that builds the request for a peer. -/
def buildAppendEntries (segmentLast : ℕ → ℕ) (p : Peer) : Act (AppendEntriesRequest × Bool) := do
  let (prevLogTerm, suppress) ← n.prevLogTermFor p
  let entries ← n.entriesFor cfg segmentLast p suppress
  pure
    ({ term := n.log.currentTerm
       leaderId := n.selfId
       prevLogIndex := p.nextIndex - 1
       prevLogTerm := prevLogTerm
       entries := entries
       commitIndex := min n.commitIndex (p.nextIndex - 1 + entries.length) }, suppress)

/-- The loop of `appendEntries` over the peers. -/
def appendEntriesTo (segmentLast : ℕ → ℕ) : List ℕ → Node → Act Node
  | [], n => pure n
  | id :: ids, n => do
    let p ← n.peerAt id
    if clk.now < p.nextAERequestTime then
      appendEntriesTo segmentLast ids n
    else
      let (request, suppress) ← n.buildAppendEntries cfg segmentLast p
      appendEntriesTo segmentLast ids
        ((n.send (.appendEntries id request)).modifyPeer id fun p =>
          { p with
            suppressBulkData := suppress
            nextAERequestTime := never
            lastAERequestTime := clk.now })

/-- `appendEntries`. The argument says where the segment of an index ends. -/
def appendEntries (segmentLast : ℕ → ℕ) : Act Node :=
  if n.role ≠ .leader then pure n
  else appendEntriesTo cfg clk segmentLast n.members.peers.keys.elems n

/-- The loop of `requestVote` over the peers. -/
def requestVoteTo : List ℕ → Node → Act Node
  | [], n => pure n
  | id :: ids, n => do
    let p ← n.peerAt id
    if !(← n.members.isVoter id) then
      requestVoteTo ids n
    else if p.requestVoteDone ∨ clk.now < p.nextRVRequestTime then
      requestVoteTo ids n
    else
      let lastLogTerm ← n.termOfLogEntryAt n.log.lastIndex
      let request : RequestVoteRequest :=
        { term := n.log.currentTerm
          candidateId := n.selfId
          lastLogIndex := n.log.lastIndex
          lastLogTerm := lastLogTerm
          prevote := n.role = .preCandidate }
      requestVoteTo ids
        ((n.send (.requestVote id request)).modifyPeer id fun p =>
          { p with nextRVRequestTime := never, lastRVRequestTime := clk.now })

/-- `requestVote`. -/
def requestVote : Act Node :=
  if n.role ≠ .candidate ∧ n.role ≠ .preCandidate then pure n
  else requestVoteTo clk n.members.peers.keys.elems n

/-! ## Receiving an AE request -/

/-- Step down for an AE request: its term is higher, or the node is standing in that very
term. -/
def stepDownForLeader (r : AppendEntriesRequest) : Act Node :=
  if n.log.currentTerm < r.term ∨
      (r.term = n.log.currentTerm ∧ (n.role = .candidate ∨ n.role = .preCandidate)) then
    n.stepDown clk r.term
  else pure n

/-- Take the sender for the leader, or find that it is. -/
def hail (leaderId : ℕ) : Act Node :=
  if n.leaderId = 0 then pure { n with leaderId := leaderId }
  else do
    check (n.leaderId = leaderId) .leaderId
    pure n

/-- The consistency check of an AE request. An index below the window passes without a look at
the term. -/
def logIsOk (prevLogIndex prevLogTerm : ℕ) : Act Bool :=
  if prevLogIndex < n.log.firstIndex then pure true
  else if prevLogIndex ≤ n.log.lastIndex then do
    let t ← n.termOfLogEntryAt prevLogIndex
    pure (t = prevLogTerm)
  else pure false

/-- The loop over the entries of an AE request: what is already there is skipped, the first
conflict cuts the log, and what remains is to be appended. -/
def mergeEntries (commitIndex : ℕ) : ℕ → List LogEntry → Log → Act (Log × List LogEntry)
  | _, [], l => pure (l, [])
  | index, e :: es, l => do
    check (e.index = index + 1) .entryIndex
    if e.index < l.firstIndex then
      mergeEntries commitIndex (index + 1) es l
    else if e.index ≤ l.lastIndex then do
      let t ← ofOption (.termOfLogEntryAt e.index) (l.getTerm e.index)
      if e.term = t then
        mergeEntries commitIndex (index + 1) es l
      else do
        check (commitIndex < e.index) .truncateCommitted
        persist (l.truncateSuffix (e.index - 1))
        let (l, rest) ← mergeEntries commitIndex (index + 1) es (l.truncateSuffix (e.index - 1))
        pure (l, e :: rest)
    else do
      let (l, rest) ← mergeEntries commitIndex (index + 1) es l
      pure (l, e :: rest)

/-- Bring the entries of an AE request into the log. -/
def applyEntries (r : AppendEntriesRequest) : Act Node := do
  let (l, es) ← mergeEntries n.commitIndex r.prevLogIndex r.entries n.log
  let (l, ok) ← l.appendEntries es
  check (ok = true) .appendEntries
  pure { n with log := l }

/-- Follow the leader's commit index. -/
def followCommit (r : AppendEntriesRequest) : Act Node :=
  if n.commitIndex < r.commitIndex then do
    check (r.commitIndex ≤ n.log.lastIndex) .commitIndex
    pure { n with commitIndex := r.commitIndex }
  else pure n

/-- The AE response before the request is looked at. -/
def rejectAppendEntries (r : AppendEntriesRequest) (term : ℕ) : AppendEntriesResponse where
  term := term
  success := false
  id := n.selfId
  savedTerm := r.term
  savedPrevLogIndex := r.prevLogIndex
  lastLogIndex := n.log.lastIndex
  matchIndex := 0

/-- The AE response to a request that was accepted. -/
def acceptAppendEntries (r : AppendEntriesRequest) : AppendEntriesResponse where
  term := r.term
  success := true
  id := n.selfId
  savedTerm := r.term
  savedPrevLogIndex := r.prevLogIndex
  lastLogIndex := n.log.lastIndex
  matchIndex := r.prevLogIndex + r.entries.length

/-- Accept an AE request whose term and sender are right: check its place in the log, then
apply it. -/
def acceptOrReject (r : AppendEntriesRequest) : Act (Node × AppendEntriesResponse) := do
  if !(← n.logIsOk r.prevLogIndex r.prevLogTerm) then
    pure (n, n.rejectAppendEntries r r.term)
  else
    let n ← n.applyEntries r
    let n ← n.followCommit r
    pure (n.updateElectionTimePoint clk, n.acceptAppendEntries r)

/-- `handleAppendEntriesRequest`. No response stands for the status `CANCELLED`. -/
def handleAppendEntriesRequest (r : AppendEntriesRequest) :
    Act (Node × Option AppendEntriesResponse) := do
  if !(← n.members.isVoter (ClusterMemberShip.roleKey r.leaderId)) then
    pure (n, none)
  else if r.term < n.log.currentTerm then
    pure (n, some (n.rejectAppendEntries r n.log.currentTerm))
  else if n.role = .syncer then
    pure (n, none)
  else
    let n ← n.stepDownForLeader clk r
    let n ← (n.updateElectionTimePoint clk).hail r.leaderId
    let (n, response) ← n.acceptOrReject clk r
    pure (n, some response)

/-! ## Receiving an AE response -/

/-- Where to look next for a peer whose log does not reach into the leader's. -/
def restartIndex (l : Log) (lastLogIndex : ℕ) : ℕ :=
  if lastLogIndex < l.firstIndex then l.lastIndex + 1 else min lastLogIndex l.lastIndex + 1

/-- Where to look next for a peer whose storage was rolled back. -/
def rolledBackIndex (l : Log) (lastLogIndex : ℕ) : ℕ :=
  if lastLogIndex = 0 ∧ l.firstIndex = 1 then lastLogIndex + 1 else restartIndex l lastLogIndex

/-- Where to look next for a peer that rejected: right after its last entry, or half the way back
to what is known to match, within the limit. -/
def decreasedIndex (p : Peer) (lastLogIndex : ℕ) : ℕ :=
  if lastLogIndex + 1 < p.nextIndex then lastLogIndex + 1
  else p.nextIndex - min ((p.nextIndex - p.matchIndex) / 2) cfg.maxDecrStep

/-- A peer after an AE response that is neither stale nor a duplicate. -/
def peerAfterResponse (r : AppendEntriesResponse) (p : Peer) : Act Peer :=
  if r.success then do
    check (p.matchIndex ≤ r.matchIndex) .matchIndex
    pure { p with
      matchIndex := r.matchIndex, nextIndex := r.matchIndex + 1, suppressBulkData := false }
  else if r.lastLogIndex < p.matchIndex then
    -- the peer's storage was rolled back
    pure { p with
      nextIndex := rolledBackIndex n.log r.lastLogIndex, matchIndex := 0,
      suppressBulkData := true }
  else if p.nextIndex ≤ n.log.firstIndex then
    -- the leader's storage was truncated
    pure { p with
      nextIndex := restartIndex n.log r.lastLogIndex, matchIndex := 0, suppressBulkData := true }
  else do
    check (p.matchIndex + 1 < p.nextIndex) .nextIndex
    pure { p with nextIndex := decreasedIndex cfg p r.lastLogIndex }

/-- `handleAppendEntriesResponse`. -/
def handleAppendEntriesResponse (r : AppendEntriesResponse) : Act Node :=
  if n.log.currentTerm ≠ r.savedTerm then pure n
  else do
    check (n.role = .leader) .stillLeader
    if n.log.currentTerm < r.term then
      n.stepDown clk r.term
    else
      match n.peer? r.id with
      | none => pure n
      | some p =>
        if r.savedPrevLogIndex ≠ p.nextIndex - 1 then pure n
        else do
          let p' ← n.peerAfterResponse cfg r p
          pure (n.modifyPeer r.id fun _ => p')

/-- Nanoseconds in a millisecond. -/
def nanosPerMilli : ℕ := 1000 * 1000

/-- The part of `receiveMessage` for an AE response: the switch is turned on again, and only a
response that came back in good order is handled. -/
def receiveAppendEntriesResponse (peerId : ℕ) (response : Option AppendEntriesResponse) :
    Act Node :=
  match n.peer? peerId with
  | none => pure n
  | some _ =>
    let n := n.modifyPeer peerId fun p =>
      { p with
        nextAERequestTime :=
          max (p.lastAERequestTime + cfg.heartBeatIntervalInMillis * nanosPerMilli) clk.now }
    match response with
    | some r =>
      handleAppendEntriesResponse cfg clk
        (n.modifyPeer peerId fun p => { p with lastResponseTime := clk.now }) r
    | none => pure (n.modifyPeer peerId fun p => { p with suppressBulkData := true })

/-! ## Voting -/

/-- Step down for an RV request of a higher term; a prevote never makes a node step down. -/
def stepDownForVote (r : RequestVoteRequest) : Act Node :=
  if r.prevote = false ∧ n.log.currentTerm < r.term then n.stepDown clk r.term else pure n

/-- Has the node heard of no leader for a while? -/
def noLeader : Prop :=
  n.role = .candidate ∨ n.role = .preCandidate ∨
    ((n.role = .follower ∨ n.role = .preFollower) ∧ n.electionTimePoint ≤ clk.now)

instance : Decidable (n.noLeader clk) := inferInstanceAs (Decidable (_ ∨ _))

/-- The RV response of a node. -/
def voteResponse (r : RequestVoteRequest) (term : ℕ) (granted : Bool) : RequestVoteResponse where
  term := term
  voteGranted := granted
  id := n.selfId
  savedTerm := r.term
  prevote := r.prevote

/-- Decide on an RV request whose term is right: compare the logs, then look at the vote or, for
a prevote, at the timer. -/
def decideVote (r : RequestVoteRequest) (term : ℕ) : Act (Node × RequestVoteResponse) := do
  let lastLogTerm ← n.termOfLogEntryAt n.log.lastIndex
  if ¬ (lastLogTerm < r.lastLogTerm ∨
      (r.lastLogTerm = lastLogTerm ∧ n.log.lastIndex ≤ r.lastLogIndex)) then
    pure (n, n.voteResponse r term false)
  else if r.prevote = false ∧ (n.log.voteFor = 0 ∨ n.log.voteFor = r.candidateId) then
    let n ← n.write (n.log.setVoteFor r.candidateId)
    pure (n.updateElectionTimePoint clk, n.voteResponse r term true)
  else
    pure (n, n.voteResponse r term (r.prevote = true ∧ n.noLeader clk))

/-- `handleRequestVoteRequest`. No response stands for the status `CANCELLED`. -/
def handleRequestVoteRequest (r : RequestVoteRequest) :
    Act (Node × Option RequestVoteResponse) := do
  if n.role = .syncer ∨ n.role = .learner then
    pure (n, none)
  else if ← n.members.isLearner (ClusterMemberShip.roleKey r.candidateId) then
    pure (n, none)
  else if r.prevote = false ∧ r.term < n.log.currentTerm then
    pure (n, some (n.voteResponse r n.log.currentTerm false))
  else
    let m ← n.stepDownForVote clk r
    -- the term of the response is adjusted exactly when the node steps down
    let (m, response) ← m.decideVote clk r
      (if r.prevote = false ∧ n.log.currentTerm < r.term then r.term else n.log.currentTerm)
    pure (m, some response)

/-- `handleRequestVoteResponse`. -/
def handleRequestVoteResponse (r : RequestVoteResponse) : Act Node :=
  if n.log.currentTerm ≠ r.savedTerm ∨ (r.prevote = false ∧ n.role ≠ .candidate) ∨
      (r.prevote = true ∧ n.role ≠ .preCandidate) then
    pure n
  else if n.log.currentTerm < r.term then
    n.stepDown clk r.term
  else
    pure (n.modifyPeer r.id fun p =>
      { p with requestVoteDone := true, haveVote := p.haveVote || r.voteGranted })

/-- The part of `receiveMessage` for an RV response. -/
def receiveRequestVoteResponse (peerId : ℕ) (response : Option RequestVoteResponse) : Act Node :=
  match n.peer? peerId with
  | none => pure n
  | some _ =>
    let n := n.modifyPeer peerId fun p =>
      { p with
        nextRVRequestTime :=
          max (p.lastRVRequestTime + cfg.heartBeatIntervalInMillis * nanosPerMilli) clk.now }
    match response with
    | some r =>
      handleRequestVoteResponse clk
        (n.modifyPeer peerId fun p => { p with lastResponseTime := clk.now }) r
    | none => pure n

/-! ## Elections -/

/-- Stand in the next term: two durable writes, first the term, then the vote. -/
def standForElection : Act Node := do
  let n ← write { n with role := .candidate, leaderId := 0 }
    (n.log.setCurrentTerm (n.log.currentTerm + 1))
  n.write (n.log.setVoteFor n.selfId)

/-- Start a round of RV or RPV requests. -/
def scheduleVotes : Node :=
  (n.updateElectionTimePoint clk).mapPeers fun p =>
    { p with requestVoteDone := false, haveVote := false, nextRVRequestTime := clk.now }

/-- `becomeCandidate`. -/
def becomeCandidate : Act Node := do
  if n.role ≠ .preCandidate then
    pure n
  else if ← n.checkVotePass then
    let n ← n.standForElection
    pure (n.scheduleVotes clk)
  else
    pure n

/-- `electionTimeout`. -/
def electionTimeout : Act Node := do
  if n.role = .leader ∨ n.role = .syncer ∨ n.role = .learner ∨ n.role = .preFollower then
    pure n
  else if clk.now < n.electionTimePoint then
    pure n
  else if cfg.preVoteEnabled then
    pure (scheduleVotes clk { n with role := .preCandidate, leaderId := 0 })
  else
    let n ← n.standForElection
    pure (n.scheduleVotes clk)

/-- The entry a new leader appends. -/
def noopEntry : LogEntry where
  term := n.log.currentTerm
  index := n.log.lastIndex + 1
  noop := true
  checksum := clk.now
  payload := []
  secretKeyVersion := cfg.latestSecKeyVersion
  specialTag := none

/-- `becomeLeader`. -/
def becomeLeader : Act Node := do
  if n.role ≠ .candidate then
    pure n
  else if ← n.checkVotePass then
    let m := { n with role := .leader, leaderId := n.selfId }
    let m := m.mapPeers fun p =>
      { p with
        nextIndex := n.log.lastIndex + 1
        matchIndex := 0
        suppressBulkData := true
        nextAERequestTime := clk.now }
    m.write (n.log.appendEntry (n.noopEntry cfg clk) rfl)
  else
    pure n

/-- `leadershipTimeout`. -/
def leadershipTimeout : Act Node :=
  if n.role ≠ .leader then pure n
  else do
    let timeElapse ← n.getMajorityTimeElapse clk
    if timeElapse < cfg.maxElectionTimeoutInMillis * nanosPerMilli then
      pure n
    else
      n.stepDown clk (n.log.currentTerm + 1)

/-! ## Committing -/

/-- The pending requests that a commit index answers, and the others. Only the front of the list
is looked at. -/
def splitPending (commitIndex : ℕ) :
    List (ℕ × Option ℕ) → List (ℕ × Option ℕ) × List (ℕ × Option ℕ)
  | [] => ([], [])
  | p :: ps =>
    if commitIndex < p.1 then ([], p :: ps)
    else (p :: (splitPending commitIndex ps).1, (splitPending commitIndex ps).2)

/-- Raise the commit index to `majorityIndex` and answer the clients that waited for it. -/
def commitTo (majorityIndex : ℕ) : Act Node := do
  let n := { n with commitIndex := majorityIndex }
  check (n.commitIndex ≤ n.log.lastIndex) .commitIndex
  let (done, rest) := splitPending n.commitIndex n.pendingClientRequests
  pure
    { n with
      outbox := n.outbox ++ n.replyPending 200 "Success" done
      pendingClientRequests := rest }

/-- `advanceCommitIndex`. -/
def advanceCommitIndex : Act Node := do
  if n.role ≠ .leader then
    pure n
  else
    let majorityIndex ← n.getMajorityIndex
    if majorityIndex ≤ n.commitIndex then
      pure n
    else
      let t ← n.termOfLogEntryAt majorityIndex
      if t ≠ n.log.currentTerm then
        pure n
      else
        n.commitTo majorityIndex

/-- `truncatePrefix`. -/
def truncatePrefix (firstIndexKept : ℕ) : Act Node := do
  check (firstIndexKept ≤ n.commitIndex) .truncatePrefix
  n.write (n.log.truncatePrefix firstIndexKept)

/-! ## Clients -/

/-- The requests whose entry carries the current term and the next index, one after the
other. -/
def selectRequests (currentTerm : ℕ) : ℕ → List ClientRequest → List ClientRequest
  | _, [] => []
  | lastLogIndex, c :: cs =>
    if c.entry.term = currentTerm ∧ c.entry.index = lastLogIndex + 1 then
      c :: selectRequests currentTerm (lastLogIndex + 1) cs
    else selectRequests currentTerm lastLogIndex cs

/-- `handleClientRequests`. The result of the append is not looked at. -/
def handleClientRequests (cs : List ClientRequest) : Act Node :=
  if n.role ≠ .leader then
    pure { n with
      outbox := n.outbox ++
        n.replyPending 301 "NotLeaderAnyMore" (cs.map ClientRequest.pending) }
  else do
    let selected := selectRequests n.log.currentTerm n.log.lastIndex cs
    let (l, _) ← n.log.appendEntries (selected.map ClientRequest.entry)
    pure { n with
      log := l
      pendingClientRequests :=
        n.pendingClientRequests ++ selected.map ClientRequest.pending }

/-! ## Synchronising and reconfiguring -/

/-- `handleSyncRequest`. -/
def handleSyncRequest (r : SyncRequest) : Act Node := do
  if n.role ≠ .syncer then
    pure n
  else match r.finishMeta with
    | some beginIndex => do
      let role ← n.members.initialRole n.selfId
      pure (updateElectionTimePoint { n with role := role, beginIndex := beginIndex } clk)
    | none => do
      check (r.startIndex = n.log.lastIndex + 1) .syncStartIndex
      let last ← ofOption .syncEntries r.entries.getLast?
      let (l, ok) ← n.log.appendEntries r.entries
      check (ok = true) .appendEntries
      check (l.lastIndex = r.endIndex) .syncEndIndex
      let n ← write { n with log := l } (l.setCurrentTerm last.term)
      pure { n with commitIndex := n.log.lastIndex }

/-- The peers after a switch: what is known of a peer is kept, and a new one is started like
after an election. -/
def inheritPeers (members : ClusterMemberShip) : Table Peer :=
  members.peers.map fun id p =>
    match n.peer? id with
    | some old => old
    | none =>
      { p with
        nextIndex := n.log.lastIndex + 1
        matchIndex := 0
        suppressBulkData := true
        nextAERequestTime := clk.now }

/-- The role after a switch. -/
def switchedRole (members : ClusterMemberShip) : Act RaftRole := do
  if ← members.isLearner members.selfId then pure .learner
  else if ← members.isPreFollower members.selfId then pure .preFollower
  else if n.role ≠ .leader then pure .follower
  else pure .leader

/-- `configurationSwitch`. -/
def configurationSwitch (members : ClusterMemberShip) : Act Node := do
  check (members.selfId ≠ 0) .badSelfId
  let role ← n.switchedRole members
  let m := { n with members := { members with peers := n.inheritPeers clk members }, role := role }
  pure (if role ≠ n.role ∧ n.role = .leader then dropPending clk { m with leaderId := 0 } else m)

/-- `handleReconfigureRequest`. -/
def handleReconfigureRequest (selfId : ℕ) (info : ClusterInfo) : Act Node :=
  if n.role = .syncer then pure n
  else do
    let members ← initClusterConf info selfId
    n.configurationSwitch clk members

/-! ## Starting -/

/-- The constructor: a node with the given durable log. Everything else is fresh, the commit
index included. -/
def start (role : RaftRole) (members : ClusterMemberShip) (log : Log) : Node where
  members := members
  role := role
  leaderId := 0
  electionTimePoint := clk.now + cfg.initialElectionTimeout * 1000 * nanosPerMilli
  commitIndex := 0
  beginIndex := 1
  log := log
  pendingClientRequests := []
  outbox := []

end Node

/-! ## Everything that can happen at a node -/

/-- A step of the main loop, a message, or a call from outside. A response that is missing
stands for a call that ended with an error. -/
inductive Event
  | appendEntries (clk : Clock) (segmentLast : ℕ → ℕ)
  | requestVote (clk : Clock)
  | appendEntriesRequest (clk : Clock) (r : AppendEntriesRequest)
  | appendEntriesResponse (clk : Clock) (peerId : ℕ) (r : Option AppendEntriesResponse)
  | requestVoteRequest (clk : Clock) (r : RequestVoteRequest)
  | requestVoteResponse (clk : Clock) (peerId : ℕ) (r : Option RequestVoteResponse)
  | clientRequests (cs : List ClientRequest)
  | syncRequest (clk : Clock) (r : SyncRequest)
  | reconfigureRequest (clk : Clock) (selfId : ℕ) (info : ClusterInfo)
  | advanceCommitIndex
  | becomeCandidate (clk : Clock)
  | becomeLeader (clk : Clock)
  | electionTimeout (clk : Clock)
  | leadershipTimeout (clk : Clock)
  | truncatePrefix (firstIndexKept : ℕ)

/-- The answer to a remote call. -/
inductive Answer
  | appendEntries (r : AppendEntriesResponse)
  | requestVote (r : RequestVoteResponse)
  deriving DecidableEq

/-- One event at a node: the state after it, and the answer if the event was a call that is
answered. -/
def Node.handle (cfg : RaftConfig) (n : Node) (ev : Event) : Act (Node × Option Answer) :=
  let n := { n with outbox := [] }
  let silent (act : Act Node) : Act (Node × Option Answer) := do
    let n ← act
    pure (n, none)
  match ev with
  | .appendEntries clk segmentLast => silent (n.appendEntries cfg clk segmentLast)
  | .requestVote clk => silent (n.requestVote clk)
  | .appendEntriesRequest clk r => do
    let (n, response) ← n.handleAppendEntriesRequest clk r
    pure (n, response.map Answer.appendEntries)
  | .appendEntriesResponse clk peerId r =>
    silent (n.receiveAppendEntriesResponse cfg clk peerId r)
  | .requestVoteRequest clk r => do
    let (n, response) ← n.handleRequestVoteRequest clk r
    pure (n, response.map Answer.requestVote)
  | .requestVoteResponse clk peerId r => silent (n.receiveRequestVoteResponse cfg clk peerId r)
  | .clientRequests cs => silent (n.handleClientRequests cs)
  | .syncRequest clk r => silent (n.handleSyncRequest clk r)
  | .reconfigureRequest clk selfId info => silent (n.handleReconfigureRequest clk selfId info)
  | .advanceCommitIndex => silent n.advanceCommitIndex
  | .becomeCandidate clk => silent (n.becomeCandidate clk)
  | .becomeLeader clk => silent (n.becomeLeader cfg clk)
  | .electionTimeout clk => silent (n.electionTimeout cfg clk)
  | .leadershipTimeout clk => silent (n.leadershipTimeout cfg clk)
  | .truncatePrefix firstIndexKept => silent (n.truncatePrefix firstIndexKept)

end Gringofts
