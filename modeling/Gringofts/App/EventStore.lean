import Gringofts.Lib.TaskQueue
import Gringofts.Raft.Node

/-!
# Reading the committed log

`ReadonlyRaftCommandEventStore`: committed entries are loaded from Raft, decrypted and decoded, and
handed out one bundle at a time. Entries of a new leader (`noop`) and commands without events are
left out.

There are two ways to load. In synchronous mode the thread that asks for the next bundle loads the
entries itself. In asynchronous mode a load thread puts them into a queue of tasks, several threads
decrypt them, and the thread that asks takes the front off when it is done.

## Threads

Each function below takes one thread to its next access to something that another thread may
change: an atomic variable, the queue under its lock, or Raft. What a thread keeps for itself in
between is in its own state (`Loader`, `Worker`, `Consumer`). So any interleaving of the threads is
a sequence of these steps.

## Main definitions

* `EntryDecoder.decryptEntries` — `decryptEntries`
* `EventStore` — the store with its threads
* `EventStore.loadEntriesThreadMain`, `EventStore.decryptEntriesThreadMain`,
  `EventStore.loadNextCommandEvents` — the next step of a thread
* `EventStore.setCurrentOffset`, `EventStore.init`, `EventStore.teardown`
-/

namespace Gringofts

/-! ## Bundles -/

/-- `CommandEvents`: a command, of which the id is all that is used, and its events. -/
structure Bundle (ε : Type) where
  commandId : ℕ
  events : List ε
  deriving DecidableEq

/-- How the payload of an entry is read: `CryptoUtil`, and the decoders. Nothing is returned where
an assertion fails. -/
structure EntryDecoder (ε : Type) where
  /-- Is encryption turned on? -/
  enabled : Bool
  /-- Decrypt with a version of the key. -/
  decrypt : ℕ → List UInt8 → Option (List UInt8)
  /-- Parse a payload and decode the command and the events. -/
  parse : List UInt8 → Option (Bundle ε)

namespace EntryDecoder

variable {ε : Type} (d : EntryDecoder ε)

/-- The key an entry was encrypted with: without a version (`kInvalidSecKeyVersion`) it is the
oldest one (`kOldestSecKeyVersion`). -/
def keyVersion (e : LogEntry) : ℕ := if e.secretKeyVersion = 0 then 1 else e.secretKeyVersion

/-- The payload of an entry in the clear. -/
def payload (e : LogEntry) : Option (List UInt8) :=
  if d.enabled then d.decrypt (keyVersion e) e.payload else some e.payload

/-- The command and the events of an entry. -/
def decode (e : LogEntry) : Option (Bundle ε) := (d.payload e).bind d.parse

/-- `decryptEntries`. -/
def decryptEntries : List LogEntry → Option (List (Bundle ε))
  | [] => some []
  | e :: es =>
    if e.noop then decryptEntries es
    else do
      let b ← d.decode e
      let bs ← decryptEntries es
      some (if b.events.isEmpty then bs else b :: bs)

end EntryDecoder

/-! ## What is read of Raft -/

/-- What `RaftInterface` shows of the log to other threads. -/
structure RaftView where
  log : Log
  commitIndex : ℕ

/-- What a node shows. -/
def Node.view (n : Node) : RaftView := ⟨n.log, n.commitIndex⟩

/-- `RaftCore::getEntries`: only committed entries may be asked for. -/
def RaftView.getEntries (cfg : RaftConfig) (v : RaftView) (start size segmentLast : ℕ) :
    Option (List LogEntry) :=
  if start + size - 1 ≤ v.commitIndex then
    some (v.log.getEntries cfg.byteSize start cfg.maxLenInBytes size segmentLast)
  else none

/-! ## The store -/

/-- Where the load thread is. -/
inductive Loader
  | idle
  /-- The queue was short enough. -/
  | sized
  /-- `commitIndex` was read and is ahead. -/
  | bounded (commitIndex : ℕ)
  /-- Entries have been read. -/
  | fetched (entries : List LogEntry)
  /-- They are counted in `mLoadedIndex`. -/
  | counted (entries : List LogEntry)

/-- Where the thread is that has called `loadNextCommandEvents`. -/
inductive Consumer (ε : Type)
  | idle
  /-- There was no bundle in the cache. -/
  | loading
  /-- The queue was not empty. -/
  | sized
  /-- The pointer to the front was read. -/
  | peeked (k : ℕ)
  /-- The front is done. -/
  | checked (k : ℕ)
  /-- The front was taken off. -/
  | popped (k : ℕ)
  /-- `commitIndex` was read and is ahead. -/
  | bounded (commitIndex : ℕ)
  /-- Entries have been read. -/
  | fetched (entries : List LogEntry)
  /-- They have been decrypted. -/
  | decrypted (size : ℕ) (bundles : List (Bundle ε))
  /-- They are counted in `mLoadedIndex`. -/
  | counted (bundles : List (Bundle ε))
  /-- `tryLoadBundles` has returned, or was not called. -/
  | returning

/-- `ReadonlyRaftCommandEventStore`. -/
structure EventStore (ε : Type) where
  asyncLoad : Bool
  /-- `mRunning`: do the threads run? -/
  running : Bool
  loadedIndex : ℕ
  appliedIndex : ℕ
  applyingIndex : ℕ
  cachedBundles : List (Bundle ε)
  taskQueue : TaskQueue (List LogEntry) (Bundle ε)
  loader : Loader
  consumer : Consumer ε

namespace EventStore

variable {ε : Type} (cfg : RaftConfig) (d : EntryDecoder ε) (v : RaftView)

/-- `kMaxQueueSize`. -/
def maxQueueSize : ℕ := 30

/-- The constructor, for a store that will have so many decrypt threads. -/
def start (asyncLoad : Bool) (threads : ℕ) : EventStore ε where
  asyncLoad := asyncLoad
  running := false
  loadedIndex := 0
  appliedIndex := 0
  applyingIndex := 0
  cachedBundles := []
  taskQueue := .start threads
  loader := .idle
  consumer := .idle

variable (s : EventStore ε)

/-- `setCurrentOffset`, which asserts that nothing has been read yet. -/
def setCurrentOffset (offset : ℕ) : Option (EventStore ε) :=
  if s.appliedIndex = 0 ∧ s.loadedIndex = 0 then
    some { s with appliedIndex := offset, loadedIndex := offset }
  else none

/-- `init`: the threads are started. -/
def init : EventStore ε := { s with running := true }

/-- `teardown`: the threads have ended, and nothing is left of what they did. -/
def teardown : EventStore ε := start s.asyncLoad s.taskQueue.workers.length

/-- The next step of the load thread, `loadEntriesThreadMain`. -/
def loadEntriesThreadMain (segmentLast : ℕ) : Option (EventStore ε) :=
  if s.asyncLoad ∧ s.running then
    match s.loader with
    | .idle =>
      some { s with loader := if maxQueueSize ≤ s.taskQueue.size then .idle else .sized }
    | .sized =>
      some { s with
        loader := if v.commitIndex ≤ s.loadedIndex then .idle else .bounded v.commitIndex }
    | .bounded commitIndex => do
      let entries ← v.getEntries cfg (s.loadedIndex + 1) (commitIndex - s.loadedIndex) segmentLast
      some { s with loader := .fetched entries }
    | .fetched entries =>
      some { s with loadedIndex := s.loadedIndex + entries.length, loader := .counted entries }
    | .counted entries =>
      some { s with taskQueue := s.taskQueue.push entries, loader := .idle }
  else none

/-- The next step of decrypt thread `j`, `decryptEntriesThreadMain`. -/
def decryptEntriesThreadMain (j : ℕ) : Option (EventStore ε) :=
  if s.asyncLoad ∧ s.running then do
    let q ← s.taskQueue.workerStep d.decryptEntries j
    some { s with taskQueue := q }
  else none

/-- The next step of `trySyncLoadBundles`, up to the point where the cache is filled. -/
def trySyncLoadBundles (segmentLast : ℕ) : Option (EventStore ε) :=
  match s.consumer with
  | .loading =>
    some { s with
      consumer := if v.commitIndex ≤ s.loadedIndex then .returning else .bounded v.commitIndex }
  | .bounded commitIndex => do
    let entries ← v.getEntries cfg (s.loadedIndex + 1) (commitIndex - s.loadedIndex) segmentLast
    some { s with consumer := .fetched entries }
  | .fetched entries => do
    let bundles ← d.decryptEntries entries
    some { s with consumer := .decrypted entries.length bundles }
  | .decrypted size bundles =>
    some { s with loadedIndex := s.loadedIndex + size, consumer := .counted bundles }
  | .counted bundles => some { s with cachedBundles := bundles, consumer := .returning }
  | _ => none

/-- The next step of `tryAsyncLoadBundles`. -/
def tryAsyncLoadBundles : Option (EventStore ε) :=
  match s.consumer with
  | .loading => some { s with consumer := if s.taskQueue.size = 0 then .returning else .sized }
  | .sized => some { s with consumer := .peeked s.taskQueue.popped }
  | .peeked k => do
    let t ← s.taskQueue.tasks[k]?
    some { s with consumer := if t.flag = .done then .checked k else .returning }
  | .checked k => some { s with taskQueue := s.taskQueue.pop, consumer := .popped k }
  | .popped k => do
    let t ← s.taskQueue.tasks[k]?
    -- the two lists are swapped
    some { s with
      cachedBundles := t.output
      taskQueue := s.taskQueue.setOutput k s.cachedBundles
      consumer := .returning }
  | _ => none

/-- The next step of `tryLoadBundles`. -/
def tryLoadBundles (segmentLast : ℕ) : Option (EventStore ε) :=
  if s.asyncLoad then s.tryAsyncLoadBundles else s.trySyncLoadBundles cfg d v segmentLast

/-- The next step of `loadNextCommandEvents`, and what it returns if it does. -/
def loadNextCommandEvents (segmentLast : ℕ) :
    Option (EventStore ε × Option (Option (Bundle ε))) :=
  match s.consumer with
  | .idle =>
    some ({ s with
      appliedIndex := max s.appliedIndex s.applyingIndex
      consumer := if s.cachedBundles.isEmpty then .loading else .returning }, none)
  | .returning =>
    match s.cachedBundles with
    | [] => some ({ s with consumer := .idle }, some none)
    | b :: bs =>
      some ({ s with cachedBundles := bs, applyingIndex := b.commandId, consumer := .idle },
        some (some b))
  | _ => (s.tryLoadBundles cfg d v segmentLast).map fun s => (s, none)

end EventStore

end Gringofts
