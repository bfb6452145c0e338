import Gringofts.App.EventApplyLoop
import Gringofts.Raft.ReplyLoop

/-!
# From a command to an entry of the log

The application of one node, as far as it turns commands into entries. The command loop finds out
whether its node is leader (`RaftCommandEventStore::detectTransition`). When the node has become
leader, the loop waits until the apply loop has caught up and takes its state over. Then it
processes commands, each on the state that the one before has left, and numbers them. A command
with events goes through the persist queue, a batch and the queue of Raft. A task for the reply loop
is pushed first, and one for a command without events as well.

## Threads

Each function below takes a thread to its next access to something that another thread may change.
One event of Raft is one step, with three exceptions. A leader that steps down changes its role
before its term, so its role may be read as that of a follower while the term is the old one. A
candidate that wins changes its role before it appends its `noop`, so its last index may be read as
the one before. And the log may be read in the course of an event (`Cluster.Visible`). A term that
was read in the course of an event is there to stay, so the command loop may as well have read it
after the event.

## The state a command was processed on

`PersistEntry.basis` and `ReplyTask.basis` are there to be reasoned about. Nothing reads them.

## Main definitions

* `LogStore.refresh`, `LogStore.detectTransition`
* `LoopPhase.waitTillLeaderIsReadyOrStepDown`
* `App.processCommand`, `App.commandLoop` — the command loop
* `App.dequeue`, `App.maySendBatch` — the persist loop
* `App.replyTask` — the reply loop
-/

namespace Gringofts

variable {σ ε : Type}

/-! ## Entries -/

/-- How an entry is written and read. What `dequeue` writes is read back. -/
structure EntryCodec (ε : Type) extends EntryDecoder ε where
  /-- Serialise a command and its events, and encrypt them with a version of the key. -/
  encode : ℕ → Bundle ε → List UInt8
  decode_encode : ∀ (e : LogEntry) (b : Bundle ε),
    e.payload = encode e.secretKeyVersion b → toEntryDecoder.decode e = some b

/-- A command, as far as it matters here: its tag, and the events it gives in the state in which it
is processed. -/
structure Command (ε : Type) where
  specialTag : Option SpecialTag
  events : List ε

/-- `PersistEntry`: a command that has been processed, and what its entry is made of. -/
structure PersistEntry (σ ε : Type) where
  term : ℕ
  /-- The id of the command. -/
  index : ℕ
  secretKeyVersion : ℕ
  specialTag : Option SpecialTag
  events : List ε
  /-- The state the command was processed on. -/
  basis : σ

namespace PersistEntry

variable (codec : EntryCodec ε) (p : PersistEntry σ ε)

/-- The entry that `dequeue` completes. -/
def entry : LogEntry where
  term := p.term
  index := p.index
  noop := false
  checksum := 0
  payload := codec.encode p.secretKeyVersion ⟨p.index, p.events⟩
  secretKeyVersion := p.secretKeyVersion
  specialTag := p.specialTag

/-- The request handed over to Raft, with no handle to answer on. -/
def request : ClientRequest := ⟨p.entry codec, none⟩

end PersistEntry

/-! ## Transitions -/

/-- The term and the role that `RaftLogStore` has last seen, and those that
`RaftCommandEventStore` has last checked. -/
structure LogStore where
  logStoreTerm : ℕ
  logStoreRole : RaftRole
  lastCheckedTerm : ℕ
  lastCheckedRole : RaftRole

/-- `es::Transition`. -/
inductive Transition
  | oldLeaderToNewLeader
  | leaderToFollower
  | followerToLeader
  | oldFollowerToNewFollower
  | sameLeader
  | sameFollower
  deriving DecidableEq

namespace LogStore

/-- Before the first `refresh`. -/
def start : LogStore := ⟨0, .follower, 0, .follower⟩

variable (s : LogStore)

/-- The end of `refresh`, when a term and a role have been read that belong together. That a leader
is none any more in the same term is ignored. -/
def refresh (term1 : ℕ) (role : RaftRole) : LogStore :=
  if s.logStoreTerm = term1 ∧ s.logStoreRole = .leader ∧ role ≠ .leader then s
  else { s with logStoreTerm := term1, logStoreRole := role }

/-- The table of `detectTransition`. There is no transition where an assertion fails. -/
def transition? : Option Transition :=
  if s.lastCheckedTerm ≠ s.logStoreTerm then
    if s.lastCheckedTerm < s.logStoreTerm then
      some (if s.lastCheckedRole = .leader then
          if s.logStoreRole = .leader then .oldLeaderToNewLeader else .leaderToFollower
        else if s.logStoreRole = .leader then .followerToLeader else .oldFollowerToNewFollower)
    else none
  else if s.lastCheckedRole = .leader then
    if s.logStoreRole = .leader then some .sameLeader else none
  else some (if s.logStoreRole = .leader then .followerToLeader else .sameFollower)

/-- `detectTransition`, when the term and the role have been read. -/
def detectTransition (term1 : ℕ) (role : RaftRole) : Option (LogStore × Transition) :=
  (s.refresh term1 role).transition?.map fun t =>
    ({ s.refresh term1 role with
        lastCheckedTerm := (s.refresh term1 role).logStoreTerm
        lastCheckedRole := (s.refresh term1 role).logStoreRole }, t)

end LogStore

/-! ## The command loop -/

/-- Where the command loop is. -/
inductive LoopPhase (σ ε : Type)
  /-- A command is there, and `refresh` is about to read the term. -/
  | refresh
  /-- It has read the term. -/
  | term1 (term1 : ℕ)
  /-- It has read the role. -/
  | role (term1 : ℕ) (role : RaftRole)
  /-- The node has become leader. `waitTillLeaderIsReadyOrStepDown` is about to read the term. -/
  | waiting
  /-- The term is the expected one. -/
  | sameTerm
  /-- It has read the last index. -/
  | lastIndex (lastIndex : ℕ)
  /-- It has read the commit index. -/
  | commitIndex (lastIndex commitIndex : ℕ)
  /-- It has read the loaded index. -/
  | loadedIndex (lastIndex commitIndex loadedIndex : ℕ)
  /-- It is about to read an entry. -/
  | scanning (lastIndex index : ℕ)
  /-- It has returned the last index. -/
  | ready (lastIndex : ℕ)
  /-- The command is to be processed. -/
  | accepting
  /-- The command has been processed and its task has been pushed. -/
  | persisting (p : PersistEntry σ ε)

/-- The next step of `waitTillLeaderIsReadyOrStepDown`, at a node whose log is found to be `l`. -/
def LoopPhase.waitTillLeaderIsReadyOrStepDown (n : Node) (l : Log) (store : EventStore ε)
    (expectedTerm : ℕ) : LoopPhase σ ε → Option (LoopPhase σ ε)
  | .waiting => some (if l.currentTerm ≠ expectedTerm then .refresh else .sameTerm)
  | .sameTerm => some (.lastIndex l.lastIndex)
  | .lastIndex last => some (.commitIndex last n.commitIndex)
  | .commitIndex last commit => some (.loadedIndex last commit store.loadedIndex)
  | .loadedIndex last commit loaded =>
    some (if loaded ≠ commit ∨ commit ≠ last then .waiting
      else .scanning last (store.appliedIndex + 1))
  | .scanning last index =>
    if last < index then some .waiting
    else (n.readEntry l index).map fun e =>
      if e.noop = false then .waiting
      else if index = last ∧ e.term = expectedTerm then .ready last
      else .scanning last (index + 1)
  | _ => none

/-- `RaftReplyLoop::Task`, and where the thread is that works on it. -/
structure ReplyTask (σ ε : Type) where
  index : ℕ
  term : ℕ
  events : List ε
  /-- The state the command was processed on. -/
  basis : σ
  phase : ReplyPhase

/-- The application of a node. -/
structure App (σ ε : Type) where
  logStore : LogStore
  appStateMachine : σ
  lastCommandId : ℕ
  phase : LoopPhase σ ε
  persistQueue : List (PersistEntry σ ε)
  batch : List (PersistEntry σ ε)
  /-- The batches in the queue of Raft. -/
  clientRequests : List (List (PersistEntry σ ε))
  tasks : List (ReplyTask σ ε)
  eventApplyLoop : EventApplyLoop σ ε

namespace App

variable (m : StateMachine σ ε) (n : Node) (l : Log)

/-- The application of a node that has just been started, with its apply loop. -/
def start (loop : EventApplyLoop σ ε) : App σ ε where
  logStore := .start
  appStateMachine := m.clearState
  lastCommandId := 0
  phase := .refresh
  persistQueue := []
  batch := []
  clientRequests := []
  tasks := []
  eventApplyLoop := loop

variable (app : App σ ε)

/-- `processCommand`, with the part of `persistAsync` up to `pushTask`. A command without events is
given the id of the command before. -/
def processCommand (keyVersion : ℕ) (command : Command ε) : App σ ε :=
  if command.events.isEmpty then
    { app with
      tasks := app.tasks ++ [{
        index := app.lastCommandId
        term := app.logStore.lastCheckedTerm
        events := []
        basis := app.appStateMachine
        phase := .begin }]
      phase := .refresh }
  else
    { app with
      appStateMachine := command.events.foldl m.applyEvent app.appStateMachine
      lastCommandId := app.lastCommandId + 1
      tasks := app.tasks ++ [{
        index := app.lastCommandId + 1
        term := app.logStore.lastCheckedTerm
        events := command.events
        basis := app.appStateMachine
        phase := .begin }]
      phase := .persisting {
        term := app.logStore.logStoreTerm
        index := app.lastCommandId + 1
        secretKeyVersion := keyVersion
        specialTag := command.specialTag
        events := command.events
        basis := app.appStateMachine } }

/-- The next step of the command loop. When the role is read, a leader that is stepping down may be
taken for a follower, and when the last index is read, the `noop` may be missing. -/
def commandLoop (keyVersion : ℕ) (between : Bool) (command : Command ε) : Option (App σ ε) :=
  match app.phase with
  | .refresh => some { app with phase := .term1 n.log.currentTerm }
  | .term1 term1 =>
    some { app with
      phase := .role term1 (if between ∧ n.role = .leader then .follower else n.role) }
  | .role term1 role =>
    if n.log.currentTerm ≠ term1 then some { app with phase := .refresh }
    else (app.logStore.detectTransition term1 role).map fun (logStore, transition) =>
      { app with
        logStore := logStore
        phase := match transition with
          | .oldLeaderToNewLeader => .waiting
          | .followerToLeader => .waiting
          | .sameLeader => .accepting
          -- the command is rejected
          | .leaderToFollower => .refresh
          | .oldFollowerToNewFollower => .refresh
          | .sameFollower => .refresh }
  | .ready lastIndex =>
    (app.eventApplyLoop.swapStateAndTeardown app.appStateMachine).map fun (state, loop) =>
      { app with
        lastCommandId := lastIndex
        appStateMachine := state
        eventApplyLoop := loop
        phase := .accepting }
  | .accepting => some (app.processCommand m keyVersion command)
  | .persisting p => some { app with persistQueue := app.persistQueue ++ [p], phase := .refresh }
  | phase =>
    let found := match phase with
      | .waiting => n.log
      | .sameTerm => if between then n.log.truncateSuffix (n.log.lastIndex - 1) else l
      | _ => l
    (phase.waitTillLeaderIsReadyOrStepDown n found app.eventApplyLoop.store
      app.logStore.lastCheckedTerm).map fun phase => { app with phase := phase }

/-- `dequeue`. -/
def dequeue : Option (App σ ε) :=
  match app.persistQueue with
  | [] => none
  | p :: ps => some { app with persistQueue := ps, batch := app.batch ++ [p] }

/-- `maySendBatch`, when the batch is large enough or old enough. -/
def maySendBatch : Option (App σ ε) :=
  if app.batch.isEmpty then none
  else some { app with batch := [], clientRequests := app.clientRequests ++ [app.batch] }

/-- The next step of the thread that works on task `k`, at a node whose log is found to be `l`. -/
def replyTask (k : ℕ) : Option (App σ ε) := do
  let task ← app.tasks[k]?
  let phase ← n.waitTillCommittedOrQuit l task.index task.term task.phase
  some { app with tasks := app.tasks.set k { task with phase := phase } }

/-- A step of the apply loop, or of one of its threads. -/
def withLoop (loop : Option (EventApplyLoop σ ε)) : Option (App σ ε) :=
  loop.map fun loop => { app with eventApplyLoop := loop }

/-- The commands on their way into the log, in the order in which they were processed. -/
def pending : List (PersistEntry σ ε) :=
  app.clientRequests.flatten ++ (app.batch ++ (app.persistQueue ++
    match app.phase with
    | .persisting p => [p]
    | _ => []))

end App

end Gringofts
