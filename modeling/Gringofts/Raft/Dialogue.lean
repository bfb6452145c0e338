import Gringofts.Lib.Rounds
import Gringofts.Raft.Waiting

/-!
# A cluster and its clients

The requests that were submitted to a node, and the answers it has given, are no part of its state:
a handle that is answered is forgotten. To say that nobody is answered twice, the cluster is
extended by a record of both, for each node, from the beginning of the run. Nothing a node does
depends on the record.

A node that stops forgets who waits at it, and its clients lose their connections. What it was
handed in the step in which it stops is not recorded; nobody hears of it any more.

## Main definitions

* `Dialogue`, `Dialogue.step`, `Dialogue.Held` — a cluster with the record, and its runs
* `Node.Serves` — the record and the state of a node fit together

## Main results

* `Dialogue.Held.serves` — they do in every run
* `clients_answered_once` — the waiting requests are in order and within the window that is not
  committed, and answers are given once and are true
-/

namespace Gringofts

open Replication

variable {S : Setup} {c : Cluster} {i : ℕ} {inp : Input} {origin : Option Envelope}

/-! ## The record -/

/-- The requests that a step brings. -/
def Action.batch : Action → List ClientRequest
  | .run _ (.own ev) => ev.batch
  | _ => []

/-- A cluster, with the requests submitted to each node and the answers given by it. -/
structure Dialogue where
  cluster : Cluster
  submitted : ℕ → List ClientRequest
  /-- Handles and codes, oldest first. -/
  replied : ℕ → List (ℕ × ℕ)

namespace Dialogue

/-- Nobody has said anything. -/
def init (S : Setup) : Dialogue := ⟨S.init, fun _ => [], fun _ => []⟩

/-- A step of the cluster, which is recorded. -/
def step (S : Setup) (w : Dialogue) (act : Action) : Option Dialogue :=
  (w.cluster.step S act).map fun c =>
    { cluster := c
      submitted :=
        Function.update w.submitted act.node (w.submitted act.node ++ act.batch)
      replied :=
        Function.update w.replied act.node (w.replied act.node ++ (c.nodes act.node).replies) }

/-- A run through a list of steps. -/
def run (S : Setup) (acts : List Action) (w : Dialogue) : Option Dialogue :=
  acts.foldlM (fun w act => w.step S act) w

/-- The states that runs lead to. -/
inductive Held (S : Setup) : Dialogue → Prop
  | init : Held S (.init S)
  | step {w w' : Dialogue} {act : Action} (h : Held S w) (hs : w.step S act = some w') : Held S w'

variable {w w' : Dialogue} {act : Action}

theorem step_cluster (hs : w.step S act = some w') : w.cluster.step S act = some w'.cluster := by
  obtain ⟨c, hc, rfl⟩ := Option.map_eq_some_iff.mp hs
  exact hc

theorem Held.reachable (h : Held S w) : Reachable S w.cluster := by
  induction h with
  | init => exact .refl
  | step _ hs ih => exact ih.tail (step_cluster hs)

/-- The record is no restriction: every run of the cluster has one. -/
theorem exists_held (h : Reachable S c) : ∃ w, Held S w ∧ w.cluster = c := by
  induction h with
  | refl => exact ⟨.init S, .init, rfl⟩
  | tail _ hs ih =>
    obtain ⟨w, hw, rfl⟩ := ih
    exact ⟨_, hw.step (by rw [Dialogue.step, hs]; rfl), rfl⟩

theorem held_of_run {acts : List Action} (h : Held S w) (hr : w.run S acts = some w') :
    Held S w' :=
  foldlM_invariant hr h fun _ _ _ _ hw hs => hw.step hs

end Dialogue

/-! ## One step -/

namespace Node

variable {n m : Node} {submitted cs : List ClientRequest} {replied : List (ℕ × ℕ)}

/-- **A node serves its clients**: those who wait are in order, no handle has been answered or
waits more often than it was submitted, and what was answered with code `200` in the last step is
in the log and committed. -/
structure Serves (n : Node) (submitted : List ClientRequest) (replied : List (ℕ × ℕ)) : Prop where
  waits : n.Waits submitted
  count_le : ∀ handle, (replied.map Prod.fst).count handle +
    (handlesOf n.pendingClientRequests).count handle ≤
      (submitted.filterMap ClientRequest.handle).count handle
  committed : ∀ handle, (handle, 200) ∈ n.replies → ∃ c ∈ submitted, c.handle = some handle ∧
    n.log.getEntry c.entry.index = some c.entry ∧ c.entry.index ≤ n.commitIndex

theorem Serves.attends (h : n.Serves submitted replied) (hle : n.commitIndex ≤ n.log.lastIndex)
    (ha : n.Attends cs m) : m.Serves (submitted ++ cs) (replied ++ m.replies) where
  waits := h.waits.attends hle ha
  count_le handle := by
    have hbefore := h.count_le handle
    have hstep := ha.count_le handle
    rw [List.map_append, List.count_append, List.filterMap_append, List.count_append]
    omega
  committed handle hreply := by
    obtain ⟨c, hc, hrest⟩ := h.waits.committed ha hreply
    exact ⟨c, List.mem_append_left _ hc, hrest⟩

/-- A node that has just been started has no clients. -/
theorem Serves.start (h : n.Serves submitted replied) (i : ℕ) (clk : Clock) (role : BootRole)
    (l : Log) : (S.start i clk role l).Serves submitted replied where
  waits := waits_of_idle rfl submitted
  count_le handle := (Nat.le_add_right _ _).trans (h.count_le handle)
  committed _ hreply := by cases hreply

end Node

/-- A leader gets no AE request in its own name. -/
theorem Refines.leaderId_ne {a : State ℕ LogEntry} {clk : Clock} {r : AppendEntriesRequest}
    (h : Refines S c a) (hi : i ∈ S.info.nodes.keys)
    (hev : c.event? i inp = some (.appendEntriesRequest clk r, origin))
    (hrole : (c.nodes i).role = .leader) :
    (c.nodes i).leaderId ≠ 0 ∧ (c.nodes i).leaderId ≠ r.leaderId := by
  rw [((h.nodes i hi).leader hrole).2]
  constructor
  · rintro rfl
    exact S.wellFormed.zero_not_mem hi
  · rcases Cluster.event?_cases hev with ⟨hlocal, -⟩ | ⟨e, clk', he, rfl, heq, -⟩
    · cases hlocal
    · have hok := h.net e he
      obtain ⟨src, dst, call, msg⟩ := e
      cases msg with
      | appendEntriesRequest r' =>
        cases heq
        have hsrc : AppendEntriesOk S a src dst r := hok
        rw [hsrc.leaderId_eq]
        exact hsrc.ne.symm
      | appendEntriesResponse r' => cases heq
      | requestVoteRequest r' => cases heq
      | requestVoteResponse r' => cases heq

theorem Cluster.batch_eq {ev : Event} (h : c.event? i inp = some (ev, origin)) :
    (Action.run i inp).batch = ev.batch := by
  cases inp with
  | own ev' =>
    rw [event?] at h
    split at h
    · cases h
      rfl
    · cases h
  | deliver k clk =>
    obtain ⟨⟨_, _, _, msg⟩, -, -, rfl, -⟩ := event?_deliver h
    cases msg <;> rfl

namespace Dialogue

variable {w w' : Dialogue} {act : Action}

/-- **A step of a node that serves its clients** leaves it serving them. -/
theorem step_serves {a : S.Abstract} (href : Refines S w.cluster a.1)
    (hs : w.step S act = some w')
    (h : (w.cluster.nodes act.node).Serves (w.submitted act.node) (w.replied act.node)) :
    (w'.cluster.nodes act.node).Serves (w'.submitted act.node) (w'.replied act.node) := by
  obtain ⟨c, hc, rfl⟩ := Option.map_eq_some_iff.mp hs
  simp only [Function.update_self]
  rcases Cluster.step_cases hc with ⟨i, inp, ev, origin, n, x, rfl, hi, hev, hres, rfl⟩ |
    ⟨i, inp, ev, origin, k, role, clk, l, rfl, hi, hev, hl, rfl⟩
  · have hd := href.nodes i hi
    have hnode : (((Cluster.post i n.outbox ((w.cluster.endCall i ev origin).setNode i n)).answer
        i x origin).nodes i) = n := by
      simp [Cluster.setNode]
    have hattends := (Node.handle_attends (S.config i) hd.role_ne
      (Cluster.event?_ne_reconfigure hev) fun clk r heq hrole => by
        subst heq
        exact href.leaderId_ne hi hev hrole).of_result hres
    have hle : (w.cluster.nodes i).commitIndex ≤ (w.cluster.nodes i).log.lastIndex := by
      rw [hd.durable.lastIndex_eq]
      exact hd.commit_le.trans (a.2.committed_le i)
    rw [Cluster.batch_eq hev]
    change (Cluster.nodes _ i).Serves _ (_ ++ (Cluster.nodes _ i).replies)
    rw [hnode]
    exact h.attends hle hattends
  · have hnode : ({ w.cluster.setNode i (S.start i clk role l) with
        calls := w.cluster.calls.filter fun call => call.src ≠ i } : Cluster).nodes i =
        S.start i clk role l :=
      Function.update_self _ _ _
    change (Cluster.nodes _ i).Serves (_ ++ []) (_ ++ (Cluster.nodes _ i).replies)
    rw [hnode, List.append_nil]
    change (S.start i clk role l).Serves _ (_ ++ [])
    rw [List.append_nil]
    exact h.start i clk role l

/-- **In every run every node serves its clients.** -/
theorem Held.serves (h : Held S w) (i : ℕ) :
    (w.cluster.nodes i).Serves (w.submitted i) (w.replied i) := by
  induction h generalizing i with
  | init =>
    refine ⟨Node.waits_of_idle rfl [], fun handle => Nat.le_refl 0, fun handle hreply => ?_⟩
    cases hreply
  | @step w w' act hw hs ih =>
    obtain ⟨a, href⟩ := hw.reachable.refines
    by_cases hi : i = act.node
    · rw [hi]
      exact step_serves href hs (ih act.node)
    · -- the others are as they were, and so is their record
      have hother := Cluster.step_other (step_cluster hs) hi
      obtain ⟨c, hc, rfl⟩ := Option.map_eq_some_iff.mp hs
      simp only [Function.update_of_ne hi]
      change (c.nodes i).Serves _ _
      rw [hother]
      exact ih i

end Dialogue

/-- **Clients are answered once, and rightly.** In every run of a cluster with a fixed
configuration, at every node: the indices of the waiting requests rise strictly, lie above the
commit index and within the log, and nobody waits unless the node leads. A handle has been
answered at most as often as a request was submitted with it. And if the node has just answered
with code `200`, the very entry that was submitted with the handle is at its index, which is
committed. -/
theorem clients_answered_once {w : Dialogue} (h : w.Held S) (i : ℕ) :
    (w.cluster.nodes i).pendingClientRequests.Pairwise (fun p q => p.1 < q.1) ∧
      (∀ p ∈ (w.cluster.nodes i).pendingClientRequests,
        (w.cluster.nodes i).commitIndex < p.1 ∧ p.1 ≤ (w.cluster.nodes i).log.lastIndex) ∧
      ((w.cluster.nodes i).role ≠ .leader → (w.cluster.nodes i).pendingClientRequests = []) ∧
      (∀ handle, ((w.replied i).map Prod.fst).count handle ≤
        ((w.submitted i).filterMap ClientRequest.handle).count handle) ∧
      ∀ handle, (handle, 200) ∈ (w.cluster.nodes i).replies →
        ∃ c ∈ w.submitted i, c.handle = some handle ∧
          (w.cluster.nodes i).log.getEntry c.entry.index = some c.entry ∧
          c.entry.index ≤ (w.cluster.nodes i).commitIndex := by
  have hserves := h.serves i
  refine ⟨hserves.waits.sorted, fun p hp => ?_, hserves.waits.idle, fun handle => ?_,
    hserves.committed⟩
  · exact ⟨hserves.waits.commit_lt p hp, hserves.waits.le_last hp⟩
  · exact (Nat.le_add_right _ _).trans (hserves.count_le handle)

/-- Node `2` of three voters wins term `1`, takes a request on handle `7`, replicates it to node
`1` and commits it. -/
def Scenario.acknowledged : List Action :=
  stand 2 10 ++ [deliver 1 0 12, deliver 2 2 13, own 2 (.becomeLeader ⟨14, 1⟩),
    own 2 (.clientRequests [⟨⟨1, 2, false, 0, [], 0, none⟩, some 7⟩]),
    replicate 2 15, deliver 1 3 16, deliver 2 5 17, replicate 2 2000000, deliver 1 6 2000001,
    deliver 2 7 2000002, own 2 .advanceCommitIndex]

theorem clients_answered_once_seven :
    ∃ w : Dialogue, w.Held Scenario.threeVoters ∧
      (7, 200) ∈ (w.cluster.nodes 2).replies ∧ ((w.replied 2).map Prod.fst).count 7 = 1 ∧
      ∃ c ∈ w.submitted 2, c.handle = some 7 ∧
        (w.cluster.nodes 2).log.getEntry c.entry.index = some c.entry ∧
        c.entry.index ≤ (w.cluster.nodes 2).commitIndex := by
  have hrun : ((Dialogue.init Scenario.threeVoters).run Scenario.threeVoters
      Scenario.acknowledged).any (fun w => (7, 200) ∈ (w.cluster.nodes 2).replies ∧
        ((w.replied 2).map Prod.fst).count 7 = 1) = true := by
    decide +kernel
  obtain ⟨w, hw, hp⟩ := (Option.any_eq_true _ _).mp hrun
  obtain ⟨hreply, hcount⟩ := of_decide_eq_true hp
  have hheld := Dialogue.held_of_run .init hw
  exact ⟨w, hheld, hreply, hcount, (clients_answered_once hheld 2).2.2.2.2 7 hreply⟩

end Gringofts
