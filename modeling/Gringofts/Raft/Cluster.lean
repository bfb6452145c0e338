import Gringofts.Raft.RaftCore

/-!
# A cluster of nodes

Nodes with one fixed configuration, and the network between them. Messages are never removed
from the network: one that is never delivered is lost, one that is delivered late is delayed, and
one may be delivered any number of times. A node may stop at any moment; it comes back with what
it had last written.

## Calls

The requests of a node are remote calls. Every request carries the number of its call, and a
response the number of the call it answers. `calls` lists the AE calls that have not come to an
end at the caller: a response ends a call, so does an error, and a caller that stops forgets its
calls. That a caller has at most one open call to a peer is not built into the model; it is an
assumption that a statement makes where it needs it.

## Main definitions

* `Setup` — the fixed configuration, and how the nodes are configured and started
* `Cluster`, `Cluster.step` — the state, and one step of it
* `Reachable`, `RunsTo`, `RunsUnder` — whole runs
-/

namespace Gringofts

/-- What a node is started as: `RaftCore` takes the role from its caller. A syncer takes no part
in consensus. -/
inductive BootRole
  | follower
  | preFollower
  | learner
  deriving DecidableEq

/-- The role as `RaftCore` knows it. -/
def BootRole.toRaftRole : BootRole → RaftRole
  | .follower => .follower
  | .preFollower => .preFollower
  | .learner => .learner

namespace ClusterInfo

variable (info : ClusterInfo)

/-- The role that is recorded for a node of the configuration. -/
def roleOf? (id : ℕ) : Option RaftRole :=
  (info.nodes.find? id).map fun n => n.initialRole.toRaftRole

/-- The node is part of the configuration and a voter. -/
def IsVoter (id : ℕ) : Prop := info.roleOf? id = some .follower

instance (id : ℕ) : Decidable (info.IsVoter id) := inferInstanceAs (Decidable (_ = _))

/-- **A well-formed configuration**: no node is called `0`, there is a voter, the joint sets,
where there are any, consist of nodes and each has a voter, and in-sync learners are learners. -/
structure WellFormed : Prop where
  zero_not_mem : 0 ∉ info.nodes.keys
  exists_voter : ∃ id, info.IsVoter id
  old_mem : ∀ id ∈ info.oldJointMembers, id ∈ info.nodes.keys
  new_mem : ∀ id ∈ info.newJointMembers, id ∈ info.nodes.keys
  old_voter : info.oldJointMembers.isEmpty = false → info.newJointMembers.isEmpty = false →
    ∃ id ∈ info.oldJointMembers, info.IsVoter id
  new_voter : info.oldJointMembers.isEmpty = false → info.newJointMembers.isEmpty = false →
    ∃ id ∈ info.newJointMembers, info.IsVoter id
  insync_learner : ∀ id ∈ info.insyncLearners, info.roleOf? id = some .learner

end ClusterInfo

/-- The fixed surroundings of a run: the configuration, the configurable variables of each node,
and what each node is first started as. -/
structure Setup where
  info : ClusterInfo
  wellFormed : info.WellFormed
  /-- `NodeId` has 32 bits. -/
  id_lt : ∀ id ∈ info.nodes.keys, id < 2 ^ 32
  config : ℕ → RaftConfig
  bootRole : ℕ → BootRole

/-- A message body. -/
inductive Message
  | appendEntriesRequest (r : AppendEntriesRequest)
  | appendEntriesResponse (r : AppendEntriesResponse)
  | requestVoteRequest (r : RequestVoteRequest)
  | requestVoteResponse (r : RequestVoteResponse)
  deriving DecidableEq

/-- A message on its way, with the number of the call it belongs to. -/
structure Envelope where
  src : ℕ
  dst : ℕ
  call : ℕ
  msg : Message
  deriving DecidableEq

/-- An AE call that has not come to an end at its caller. -/
structure Call where
  id : ℕ
  src : ℕ
  dst : ℕ
  deriving DecidableEq

/-- The nodes and the network. -/
structure Cluster where
  nodes : ℕ → Node
  /-- Everything ever sent, oldest first. -/
  net : List Envelope
  /-- The open AE calls. -/
  calls : List Call
  /-- The number of the next call. -/
  nextCall : ℕ

namespace Setup

variable (S : Setup)

/-- The membership of a node right after its start. -/
def membership (i : ℕ) : ClusterMemberShip where
  selfId := i
  selfAddress := ((S.info.nodes.find? i).map ClusterInfo.Node.address).getD ""
  peers := (S.info.nodes.erase i).map fun _ n => { address := n.address }
  clients := (S.info.nodes.erase i).map fun _ n => n.address
  initialRoles := S.info.nodes.map fun _ n => n.initialRole.toRaftRole
  oldMembers := S.info.oldJointMembers
  newMembers := S.info.newJointMembers
  insyncLearners := S.info.insyncLearners

/-- Start a node from a durable log. -/
def start (i : ℕ) (clk : Clock) (role : BootRole) (log : Log) : Node :=
  Node.start (S.config i) clk role.toRaftRole (S.membership i) log

/-- The cluster before anything has happened. -/
def init : Cluster where
  nodes i := S.start i ⟨0, 0⟩ (S.bootRole i) Log.empty
  net := []
  calls := []
  nextCall := 0

end Setup

/-! ## Steps -/

/-- The steps a node takes by itself, with nothing that comes from the network. A call that ends
with an error is one of them. -/
def Event.isLocal : Event → Bool
  | .appendEntriesRequest _ _ => false
  | .appendEntriesResponse _ _ r => r.isNone
  | .requestVoteRequest _ _ => false
  | .requestVoteResponse _ _ r => r.isNone
  | .syncRequest _ _ => false
  | .reconfigureRequest _ _ _ => false
  | _ => true

/-- Where the input of a step comes from: the node itself, or the `k`-th message of the
network. -/
inductive Input
  | own (ev : Event)
  | deliver (k : ℕ) (clk : Clock)

/-- **One step of the cluster**: a node handles an input, or it stops on the way, after so many
durable writes, and is started again. -/
inductive Action
  | run (i : ℕ) (inp : Input)
  | crash (i : ℕ) (inp : Input) (writes : ℕ) (role : BootRole) (clk : Clock)

/-- The node that takes the step. -/
def Action.node : Action → ℕ
  | .run i _ => i
  | .crash i _ _ _ _ => i

/-- What the node handles in the step. -/
def Action.input : Action → Input
  | .run _ inp => inp
  | .crash _ inp _ _ _ => inp

/-- The node stops in the step. -/
def Action.isCrash : Action → Bool
  | .run _ _ => false
  | .crash _ _ _ _ _ => true

/-- The event that a message is for its receiver. -/
def Envelope.event (e : Envelope) (clk : Clock) : Event :=
  match e.msg with
  | .appendEntriesRequest r => .appendEntriesRequest clk r
  | .appendEntriesResponse r => .appendEntriesResponse clk e.src (some r)
  | .requestVoteRequest r => .requestVoteRequest clk r
  | .requestVoteResponse r => .requestVoteResponse clk e.src (some r)

/-- The message that an answer is. -/
def Answer.message : Answer → Message
  | .appendEntries r => .appendEntriesResponse r
  | .requestVote r => .requestVoteResponse r

namespace Cluster

variable (c : Cluster)

/-- The event of an input at node `i`, and the message it came with. -/
def event? (i : ℕ) : Input → Option (Event × Option Envelope)
  | .own ev => if ev.isLocal then some (ev, none) else none
  | .deliver k clk =>
    match c.net[k]? with
    | some e => if e.dst = i then some (e.event clk, some e) else none
    | none => none

/-- Put what a node has sent on the network, numbering the calls. -/
def post (i : ℕ) : List Output → Cluster → Cluster
  | [], c => c
  | .appendEntries dst r :: os, c =>
    post i os
      { c with
        net := c.net ++ [⟨i, dst, c.nextCall, .appendEntriesRequest r⟩]
        calls := c.calls ++ [⟨c.nextCall, i, dst⟩]
        nextCall := c.nextCall + 1 }
  | .requestVote dst r :: os, c =>
    post i os
      { c with
        net := c.net ++ [⟨i, dst, c.nextCall, .requestVoteRequest r⟩]
        nextCall := c.nextCall + 1 }
  | .reply _ _ _ _ :: os, c => post i os c

/-- Send an answer back to where the request came from. -/
def answer (i : ℕ) (a : Option Answer) (origin : Option Envelope) : Cluster :=
  match a, origin with
  | some a, some e => { c with net := c.net ++ [⟨i, e.src, e.call, a.message⟩] }
  | _, _ => c

/-- The AE calls that an event at node `i` brings to an end: the one whose response arrives, and
with an error the oldest one to that peer. -/
def endCall (i : ℕ) (ev : Event) (origin : Option Envelope) : Cluster :=
  match ev, origin with
  | .appendEntriesResponse _ _ (some _), some e =>
    { c with calls := c.calls.filter fun call => call.id ≠ e.call }
  | .appendEntriesResponse _ peerId none, _ =>
    { c with calls := c.calls.eraseP fun call => call.src = i ∧ call.dst = peerId }
  | _, _ => c

/-- Replace a node. -/
def setNode (i : ℕ) (n : Node) : Cluster := { c with nodes := Function.update c.nodes i n }

/-- One step. There is none when the input is not there, and a step that fails an assertion can
only be a crash. -/
def step (S : Setup) : Action → Option Cluster
  | .run i inp =>
    if i ∈ S.info.nodes.keys then
      match c.event? i inp with
      | some (ev, origin) =>
        match ((c.nodes i).handle (S.config i) ev).value? with
        | some (n, a) =>
          some ((post i n.outbox ((c.endCall i ev origin).setNode i n)).answer i a origin)
        | none => none
      | none => none
    else none
  | .crash i inp k role clk =>
    if i ∈ S.info.nodes.keys then
      match c.event? i inp with
      | some (ev, _) =>
        match (((c.nodes i).log :: ((c.nodes i).handle (S.config i) ev).writes))[k]? with
        | some l =>
          some { c.setNode i (S.start i clk role l) with
            calls := c.calls.filter fun call => call.src ≠ i }
        | none => none
      | none => none
    else none

variable {S : Setup} {c c' : Cluster} {act : Action} {i : ℕ} {inp : Input} {ev : Event}
  {origin : Option Envelope}

/-- **What a step is.** A node handles an input without failing an assertion, or it is started
again from a state that was on its disk before or during the handling of an input. -/
theorem step_cases (h : c.step S act = some c') :
    (∃ i inp ev origin n a, act = .run i inp ∧ i ∈ S.info.nodes.keys ∧
      c.event? i inp = some (ev, origin) ∧
      ((c.nodes i).handle (S.config i) ev).result = .ok (n, a) ∧
      c' = (post i n.outbox ((c.endCall i ev origin).setNode i n)).answer i a origin) ∨
    (∃ i inp ev origin k role clk l, act = .crash i inp k role clk ∧ i ∈ S.info.nodes.keys ∧
      c.event? i inp = some (ev, origin) ∧
      l ∈ (c.nodes i).log :: ((c.nodes i).handle (S.config i) ev).writes ∧
      c' = { c.setNode i (S.start i clk role l) with
        calls := c.calls.filter fun call => call.src ≠ i }) := by
  cases act with
  | run i inp =>
    simp only [step] at h
    split at h
    · next hi =>
      split at h
      · next ev origin hev =>
        split at h
        · next n a hv =>
          rw [Outcome.value?_eq_some] at hv
          exact Or.inl ⟨i, inp, ev, origin, n, a, rfl, hi, hev, hv, (Option.some.inj h).symm⟩
        · cases h
      · cases h
    · cases h
  | crash i inp k role clk =>
    simp only [step] at h
    split at h
    · next hi =>
      split at h
      · next ev origin hev =>
        split at h
        · next l hl =>
          exact Or.inr ⟨i, inp, ev, origin, k, role, clk, l, rfl, hi, hev,
            List.mem_of_getElem? hl, (Option.some.inj h).symm⟩
        · cases h
      · cases h
    · cases h

/-- What is delivered is a message to the node. -/
theorem event?_deliver {k : ℕ} {clk : Clock} (h : c.event? i (.deliver k clk) = some (ev, origin)) :
    ∃ e ∈ c.net, e.dst = i ∧ ev = e.event clk ∧ origin = some e := by
  simp only [event?] at h
  split at h
  · next e he =>
    split at h
    · next hdst =>
      cases h
      exact ⟨e, List.mem_of_getElem? he, hdst, rfl, rfl⟩
    · cases h
  · cases h

/-- Where an event comes from. -/
theorem event?_cases (h : c.event? i inp = some (ev, origin)) :
    (ev.isLocal = true ∧ origin = none) ∨
      ∃ e clk, e ∈ c.net ∧ e.dst = i ∧ ev = e.event clk ∧ origin = some e := by
  cases inp with
  | own ev' =>
    simp only [event?] at h
    split at h
    · next hlocal =>
      cases h
      exact Or.inl ⟨hlocal, rfl⟩
    · cases h
  | deliver k clk =>
    obtain ⟨e, he, hdst, hev, horigin⟩ := event?_deliver h
    exact Or.inr ⟨e, clk, he, hdst, hev, horigin⟩

/-- The nodes of a cluster with a fixed configuration are never reconfigured. -/
theorem event?_ne_reconfigure (h : c.event? i inp = some (ev, origin)) (clk : Clock) (selfId : ℕ)
    (info : ClusterInfo) : ev ≠ .reconfigureRequest clk selfId info := by
  rintro rfl
  rcases event?_cases h with ⟨hlocal, -⟩ | ⟨⟨_, _, _, msg⟩, clk', -, -, hev, -⟩
  · cases hlocal
  · cases msg <;> cases hev

@[simp] theorem post_nodes (i : ℕ) (os : List Output) (c : Cluster) :
    (post i os c).nodes = c.nodes := by
  induction os generalizing c with
  | nil => rfl
  | cons o os ih => cases o <;> simp [post, ih]

@[simp] theorem answer_nodes (c : Cluster) (i : ℕ) (x : Option Answer) (o : Option Envelope) :
    (c.answer i x o).nodes = c.nodes := by
  unfold answer
  split <;> rfl

@[simp] theorem endCall_nodes (c : Cluster) (i : ℕ) (ev : Event) (o : Option Envelope) :
    (c.endCall i ev o).nodes = c.nodes := by
  unfold endCall
  split <;> rfl

@[simp] theorem endCall_net (c : Cluster) (i : ℕ) (ev : Event) (o : Option Envelope) :
    (c.endCall i ev o).net = c.net := by
  unfold endCall
  split <;> rfl

/-- Only a node of the cluster takes a step. -/
theorem step_mem (h : c.step S act = some c') : act.node ∈ S.info.nodes.keys := by
  rcases step_cases h with ⟨i, inp, ev, origin, n, x, rfl, hi, -⟩ |
    ⟨i, inp, ev, origin, k, role, clk, l, rfl, hi, -⟩
  · exact hi
  · exact hi

/-- The other nodes are left as they are. -/
theorem step_other (h : c.step S act = some c') {v : ℕ} (hv : v ≠ act.node) :
    c'.nodes v = c.nodes v := by
  rcases step_cases h with ⟨i, inp, ev, origin, n, x, rfl, -, -, -, rfl⟩ |
    ⟨i, inp, ev, origin, k, role, clk, l, rfl, -, -, -, rfl⟩
  · simp only [answer_nodes, post_nodes, setNode, endCall_nodes]
    exact Function.update_of_ne hv _ _
  · exact Function.update_of_ne hv _ _

/-- **What a step does to one node**: nothing, or it handles an event, or it starts again. -/
theorem step_node (h : c.step S act = some c') (v : ℕ) :
    c'.nodes v = c.nodes v ∨ ∃ inp ev origin, v ∈ S.info.nodes.keys ∧
      c.event? v inp = some (ev, origin) ∧
      ((∃ x, ((c.nodes v).handle (S.config v) ev).result = .ok (c'.nodes v, x)) ∨
        ∃ l role clk, l ∈ (c.nodes v).log :: ((c.nodes v).handle (S.config v) ev).writes ∧
          c'.nodes v = S.start v clk role l) := by
  rcases step_cases h with ⟨i, inp, ev, origin, m, x, rfl, hi, hev, hres, rfl⟩ |
    ⟨i, inp, ev, origin, k, role, clk, l, rfl, hi, hev, hl, rfl⟩
  · by_cases hv : v = i
    · subst hv
      exact Or.inr ⟨inp, ev, origin, hi, hev, Or.inl ⟨x, by simpa [setNode] using hres⟩⟩
    · exact Or.inl (by simp [setNode, hv])
  · by_cases hv : v = i
    · subst hv
      exact Or.inr ⟨inp, ev, origin, hi, hev, Or.inr ⟨l, role, clk, hl, by simp [setNode]⟩⟩
    · exact Or.inl (by simp [setNode, hv])

/-- A property of the durable log that every event keeps, also where it is interrupted, is kept by
every step. -/
theorem step_log {W : Log → Prop} {v : ℕ} (h : c.step S act = some c') (h0 : W (c.nodes v).log)
    (hW : ∀ inp ev origin, v ∈ S.info.nodes.keys → c.event? v inp = some (ev, origin) →
      ((c.nodes v).handle (S.config v) ev).Sat W (fun x => W x.1.log) fun _ => True) :
    W (c'.nodes v).log := by
  rcases step_node h v with heq | ⟨inp, ev, origin, hv, hev, ⟨x, hres⟩ | ⟨l, role, clk, hl, heq⟩⟩
  · rw [heq]
    exact h0
  · exact (hW inp ev origin hv hev).of_result hres
  · rw [heq]
    rcases List.mem_cons.mp hl with rfl | hl
    · exact h0
    · exact (hW inp ev origin hv hev).1 l hl

/-- A run through a list of steps. -/
def run (S : Setup) : List Action → Cluster → Option Cluster
  | [], c => some c
  | a :: as, c => (c.step S a).bind (run S as)

/-- A run through a list of steps, as long as they are allowed. -/
def runUnder (S : Setup) (allowed : Cluster → Action → Prop) [∀ c a, Decidable (allowed c a)] :
    List Action → Cluster → Option Cluster
  | [], c => some c
  | a :: as, c => if allowed c a then (c.step S a).bind (runUnder S allowed as) else none

end Cluster

/-- `c'` is reached from `c` by some run. -/
inductive RunsTo (S : Setup) (c : Cluster) : Cluster → Prop
  | refl : RunsTo S c c
  | tail {c' c'' : Cluster} {a : Action} (h : RunsTo S c c') (hs : c'.step S a = some c'') :
      RunsTo S c c''

/-- The cluster states that runs lead to. -/
def Reachable (S : Setup) (c : Cluster) : Prop := RunsTo S S.init c

/-- `c'` is reached from `c` by a run whose steps are all allowed where they are taken. -/
inductive RunsUnder (S : Setup) (allowed : Cluster → Action → Prop) (c : Cluster) : Cluster → Prop
  | refl : RunsUnder S allowed c c
  | tail {c' c'' : Cluster} {a : Action} (h : RunsUnder S allowed c c') (ha : allowed c' a)
      (hs : c'.step S a = some c'') : RunsUnder S allowed c c''

variable {S : Setup} {c c' : Cluster} {allowed : Cluster → Action → Prop}

theorem RunsUnder.runsTo (h : RunsUnder S allowed c c') : RunsTo S c c' := by
  induction h with
  | refl => exact .refl
  | tail _ _ hs ih => exact .tail ih hs

theorem runsUnder_of_runUnder [∀ c a, Decidable (allowed c a)] {as : List Action} {d : Cluster}
    (hd : RunsUnder S allowed d c) (h : c.runUnder S allowed as = some c') :
    RunsUnder S allowed d c' := by
  induction as generalizing c with
  | nil =>
    obtain rfl : c = c' := Option.some.inj h
    exact hd
  | cons a as ih =>
    rw [Cluster.runUnder] at h
    split at h
    · next ha =>
      obtain ⟨e, he, hrest⟩ := Option.bind_eq_some_iff.mp h
      exact ih (hd.tail ha he) hrest
    · cases h

theorem RunsTo.trans {c'' : Cluster} (h : RunsTo S c c') (h' : RunsTo S c' c'') :
    RunsTo S c c'' := by
  induction h' with
  | refl => exact h
  | tail _ hs ih => exact .tail ih hs

/-- A list of steps that can be taken is a run. -/
theorem runsTo_of_run {as : List Action} (h : c.run S as = some c') : RunsTo S c c' := by
  induction as generalizing c with
  | nil =>
    obtain rfl : c = c' := Option.some.inj h
    exact .refl
  | cons a as ih =>
    obtain ⟨d, hd, hrest⟩ := Option.bind_eq_some_iff.mp h
    exact RunsTo.trans (.tail .refl hd) (ih hrest)

end Gringofts
