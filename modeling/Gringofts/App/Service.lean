import Gringofts.App.Readiness

/-!
# A replicated application

A cluster, and on each of its nodes an application: the command loop, the persist loop, the reply
loop, the apply loop and the threads of its store (`App`). They meet in two places. Raft takes the
requests of clients from a queue that the persist loop fills. And the threads of the application
read what Raft has written, at any moment.

## Main definitions

* `App.serve` — Raft takes a batch of requests
* `App.step` — a step of a thread of the application
* `Service`, `Service.step`, `Service.Reachable` — the whole, and its runs
-/

namespace Gringofts

variable {σ ε : Type}

namespace App

/-- Raft takes the requests of clients from the front of its queue. -/
def serve (codec : EntryCodec ε) (app : App σ ε) : Input → Option (App σ ε)
  | .own (.clientRequests cs) =>
    match app.clientRequests with
    | [] => none
    | batch :: rest =>
      if cs = batch.map (PersistEntry.request codec) then
        some { app with clientRequests := rest }
      else none
  | _ => some app

/-- Whose step it is. A thread finds the log that the node has, or one in the course of an event. -/
inductive Action (σ ε : Type)
  | commandLoop (found : Option (Input × ℕ)) (between : Bool) (keyVersion : ℕ)
      (command : Command ε)
  | dequeue
  | maySendBatch
  | loop (found : Option (Input × ℕ)) (move : EventApplyLoop.Move σ)
  | replyTask (found : Option (Input × ℕ)) (k : ℕ)

/-- A step of the application of node `i`. -/
def step (S : Setup) (m : StateMachine σ ε) (codec : EntryCodec ε) (c : Cluster) (i : ℕ)
    (app : App σ ε) : Action σ ε → Option (App σ ε)
  | .commandLoop found between keyVersion command => do
    let l ← c.glimpse S i found
    app.commandLoop m (c.nodes i) l keyVersion between command
  | .dequeue => app.dequeue
  | .maySendBatch => app.maySendBatch
  | .loop found mv => do
    let l ← c.glimpse S i found
    app.withLoop (app.eventApplyLoop.move m (S.config i) codec.toEntryDecoder
      ⟨l, (c.nodes i).commitIndex⟩ mv)
  | .replyTask found k => do
    let l ← c.glimpse S i found
    app.replyTask (c.nodes i) l k

end App

/-- A cluster with its past, and the applications of its nodes. -/
structure Service (σ ε : Type) where
  chronicle : Chronicle
  app : ℕ → App σ ε

namespace Service

/-- Whose step it is. -/
inductive Action (σ ε : Type)
  /-- Raft takes a step in which the node goes on running. -/
  | raft (act : Gringofts.Action)
  /-- A node stops, and starts again with a new application. -/
  | restart (act : Gringofts.Action) (asyncLoad : Bool) (threads : ℕ) (snapshot : Option (ℕ × σ))
  | app (i : ℕ) (act : App.Action σ ε)

/-- What Raft does in a step. -/
def Action.raft? : Action σ ε → Option Gringofts.Action
  | .raft act => some act
  | .restart act _ _ _ => some act
  | .app _ _ => none

variable (S : Setup) (m : StateMachine σ ε) (codec : EntryCodec ε)

/-- **One step.** -/
def step (w : Service σ ε) : Action σ ε → Option (Service σ ε)
  | .raft act =>
    if act.isCrash then none
    else do
      let c ← w.chronicle.step S act
      let app ← (w.app act.node).serve codec act.input
      some ⟨c, Function.update w.app act.node app⟩
  | .restart act asyncLoad threads snapshot =>
    if act.isCrash then do
      let c ← w.chronicle.step S act
      let _ ← (w.app act.node).serve codec act.input
      let loop ← (EventApplyLoop.start m asyncLoad threads).recoverSelf m snapshot
      some ⟨c, Function.update w.app act.node (App.start m loop)⟩
    else none
  | .app i act =>
    if i ∈ S.info.nodes.keys then
      ((w.app i).step S m codec w.chronicle.cluster i act).map fun app =>
        { w with app := Function.update w.app i app }
    else none

/-- A snapshot that is recovered from is right. -/
def Action.Right (known : List LogEntry) : Action σ ε → Prop
  | .restart _ _ _ snapshot =>
    ∀ x, snapshot = some x → EventApplyLoop.RightSnapshot m codec.toEntryDecoder known x
  | .app _ (.loop _ mv) => mv.Right m codec.toEntryDecoder known
  | _ => True

/-- **The runs.** Each application is started with a right snapshot, or with none. -/
inductive Reachable : Service σ ε → Prop
  | start {app : ℕ → App σ ε}
      (happ : ∀ i, ∃ asyncLoad threads snapshot loop,
        (∀ x, snapshot = some x → EventApplyLoop.RightSnapshot m codec.toEntryDecoder [] x) ∧
        (EventApplyLoop.start m asyncLoad threads).recoverSelf m snapshot = some loop ∧
        app i = App.start m loop) :
      Reachable ⟨Chronicle.init S, app⟩
  | step {w w' : Service σ ε} {act : Action σ ε} (h : Reachable w)
      (hright : act.Right m codec w.chronicle.known) (hs : w.step S m codec act = some w') :
      Reachable w'

end Service

end Gringofts
