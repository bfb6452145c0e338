import Gringofts.Raft.Refinement.Follow
import Gringofts.Raft.Refinement.Lead

/-!
# The cluster refines the protocol

Every step of the cluster, crashes included, is a sequence of steps of the abstract protocol by
one node. So every reachable cluster is described by a state of the protocol that satisfies its
invariant, and along a run the history of that state grows.

## Main results

* `Cluster.step_refines` — one step
* `RunsTo.refines`, `Reachable.refines` — whole runs
-/

namespace Gringofts

open Replication

variable {S : Setup} {i : ℕ} {n : Node} {a : S.Abstract} {b : State ℕ LogEntry} {ev : Event}
  {c c' : Cluster} {origin : Option Envelope} {act : Action}

/-! ## One event -/

theorem Describes.clearOutbox (h : Describes S b i n) : Describes S b i { n with outbox := [] } :=
  { h with outbox := by simp }

/-- An event that answers nobody. -/
theorem silent_sim {act : Act Node} {A : Assertion → Prop}
    (h : (S.abstraction i).Sim a act (fun b m => Describes S b.1 i m) A) :
    (S.abstraction i).Sim a (act >>= fun m => pure (m, (none : Option Answer)))
      (fun b r => Describes S b.1 i r.1 ∧ r.2 = none) A :=
  .bind h fun _ _ _ hm => Abstraction.sim_pure ⟨hm, rfl⟩

/-- **The steps a node takes by itself** are simulated. -/
theorem Node.handle_local_sim (cfg : RaftConfig) (h : Describes S a.1 i n)
    (hi : i ∈ S.info.nodes.keys) (hev : ev.isLocal = true) :
    (S.abstraction i).Sim a (n.handle cfg ev)
      (fun b r => Describes S b.1 i r.1 ∧ r.2 = none) fun _ => True := by
  have h := h.clearOutbox
  cases ev with
  | appendEntries clk segmentLast => exact silent_sim (appendEntries_sim h hi cfg clk segmentLast)
  | requestVote clk => exact silent_sim (requestVote_sim h hi clk)
  | appendEntriesRequest clk r => cases hev
  | appendEntriesResponse clk peerId r =>
    obtain rfl : r = none := Option.isNone_iff_eq_none.mp hev
    exact silent_sim (receiveAppendEntriesResponse_sim cfg clk peerId peerId h (by simp))
  | requestVoteRequest clk r => cases hev
  | requestVoteResponse clk peerId r =>
    obtain rfl : r = none := Option.isNone_iff_eq_none.mp hev
    exact silent_sim (receiveRequestVoteResponse_sim cfg clk peerId peerId h (by simp))
  | clientRequests cs =>
    exact silent_sim ((handleClientRequests_sim h cs).weaken fun _ => False.elim)
  | syncRequest clk r => cases hev
  | reconfigureRequest clk selfId info => cases hev
  | advanceCommitIndex => exact silent_sim (advanceCommitIndex_sim h hi)
  | becomeCandidate clk =>
    exact silent_sim ((becomeCandidate_sim h hi clk).weaken fun _ => False.elim)
  | becomeLeader clk =>
    exact silent_sim ((becomeLeader_sim h hi cfg clk).weaken fun _ => False.elim)
  | electionTimeout clk =>
    exact silent_sim ((electionTimeout_sim h hi cfg clk).weaken fun _ => False.elim)
  | leadershipTimeout clk => exact silent_sim (leadershipTimeout_sim h cfg clk)
  | truncatePrefix k => exact silent_sim (truncatePrefix_sim h k)

/-- **Receiving a message** is simulated, and the answer is described. -/
theorem Node.handle_message_sim (cfg : RaftConfig) (h : Describes S a.1 i n) {e : Envelope}
    (clk : Clock) (hdst : e.dst = i) (he : MessageOk S a.1 e) :
    (S.abstraction i).Sim a (n.handle cfg (e.event clk))
      (fun b r => Describes S b.1 i r.1 ∧
        ∀ x, r.2 = some x → MessageOk S b.1 ⟨i, e.src, e.call, x.message⟩) fun _ => True := by
  have h := h.clearOutbox
  obtain ⟨src, dst, call, msg⟩ := e
  subst hdst
  cases msg with
  | appendEntriesRequest r =>
    refine .bind ((handleAppendEntriesRequest_sim clk h he).weaken fun _ => False.elim) ?_
    rintro b ⟨m, response⟩ - ⟨hm, hans⟩
    refine Abstraction.sim_pure ⟨hm, fun x hx => ?_⟩
    obtain ⟨y, hy, rfl⟩ := Option.map_eq_some_iff.mp hx
    exact hans y hy
  | appendEntriesResponse r =>
    refine (silent_sim (receiveAppendEntriesResponse_sim cfg clk src src h ?_)).imp
      fun b r _ hr => ⟨hr.1, by simp [hr.2]⟩
    rintro x hx
    cases hx
    exact he
  | requestVoteRequest r =>
    refine .bind (handleRequestVoteRequest_sim clk h he) ?_
    rintro b ⟨m, response⟩ - ⟨hm, hans⟩
    refine Abstraction.sim_pure ⟨hm, fun x hx => ?_⟩
    obtain ⟨y, hy, rfl⟩ := Option.map_eq_some_iff.mp hx
    exact hans y hy
  | requestVoteResponse r =>
    refine (silent_sim (receiveRequestVoteResponse_sim cfg clk src src h ?_)).imp
      fun b r _ hr => ⟨hr.1, by simp [hr.2]⟩
    rintro x hx
    cases hx
    exact he

/-! ## The cluster -/

/-- **The protocol describes the cluster.** -/
structure Refines (S : Setup) (c : Cluster) (a : State ℕ LogEntry) : Prop where
  inv : S.protocol.Inv a
  nodes : ∀ i ∈ S.info.nodes.keys, Describes S a i (c.nodes i)
  net : ∀ e ∈ c.net, MessageOk S a e

/-- A node that has just been started follows nobody and knows nothing. -/
theorem describes_start {l : Log} (h : Durable b i l) (clk : Clock) (role : BootRole) :
    Describes S b i (S.start i clk role l) := by
  refine .of_following ⟨rfl, rfl, rfl, rfl, rfl, ?_⟩ h (Nat.zero_le _) ?_ ?_
    (fun h0 => absurd rfl h0) (by simp [Setup.start, Node.start])
  · exact Table.keys_map _ _
  · cases role <;> simp [Setup.start, Node.start, BootRole.toRaftRole]
  · cases role <;> simp [Node.Following, Setup.start, Node.start, BootRole.toRaftRole]

theorem refines_init (S : Setup) : Refines S S.init (State.init ℕ LogEntry) where
  inv := Protocol.inv_init _
  nodes i _ := by
    refine describes_start ⟨rfl, rfl, rfl, Nat.le_refl _, Or.inl rfl⟩ _ _
  net := by simp [Setup.init]

namespace Cluster

/-- What is on the network after a step was there before, or the node has sent it. -/
theorem messageOk_post {os : List Output} (hos : ∀ o ∈ os, OutputOk S b i o)
    (hc : ∀ e ∈ c.net, MessageOk S b e) : ∀ e ∈ (post i os c).net, MessageOk S b e := by
  induction os generalizing c with
  | nil => exact hc
  | cons o os ih =>
    have hos' : ∀ o ∈ os, OutputOk S b i o := fun o ho => hos o (List.mem_cons_of_mem _ ho)
    have ho := hos o List.mem_cons_self
    have hnew : ∀ m : Envelope, MessageOk S b m → ∀ e ∈ c.net ++ [m], MessageOk S b e := by
      intro m hm e he
      rcases List.mem_append.mp he with he | he
      · exact hc e he
      · rw [List.mem_singleton.mp he]
        exact hm
    cases o with
    | appendEntries dst r => exact ih hos' (hnew _ ho)
    | requestVote dst r => exact ih hos' (hnew _ ho)
    | reply handle code message leaderId => exact ih hos' hc

theorem messageOk_answer {x : Option Answer}
    (hx : ∀ y e, x = some y → origin = some e → MessageOk S b ⟨i, e.src, e.call, y.message⟩)
    (hc : ∀ e ∈ c.net, MessageOk S b e) : ∀ e ∈ (c.answer i x origin).net, MessageOk S b e := by
  unfold answer
  split
  · next y e =>
    intro m hm
    rcases List.mem_append.mp hm with hm | hm
    · exact hc m hm
    · rw [List.mem_singleton.mp hm]
      exact hx y e rfl rfl
  · exact hc

/-- The event of an input is simulated, whether it comes from the node or from the network. -/
theorem handle_sim (hc : Refines S c a.1) (hi : i ∈ S.info.nodes.keys) {inp : Input}
    (hev : c.event? i inp = some (ev, origin)) :
    (S.abstraction i).Sim a ((c.nodes i).handle (S.config i) ev)
      (fun b r => Describes S b.1 i r.1 ∧ ∀ y e, r.2 = some y → origin = some e →
        MessageOk S b.1 ⟨i, e.src, e.call, y.message⟩) fun _ => True := by
  have hd := hc.nodes i hi
  rcases event?_cases hev with ⟨hlocal, rfl⟩ | ⟨e, clk, he, hdst, rfl, rfl⟩
  · refine (Node.handle_local_sim (S.config i) hd hi hlocal).imp fun b r _ hr => ⟨hr.1, ?_⟩
    rintro y e - ho
    cases ho
  · refine (Node.handle_message_sim (S.config i) hd clk hdst (hc.net e he)).imp
      fun b r _ hr => ⟨hr.1, ?_⟩
    rintro y e' hy ho
    cases ho
    exact hr.2 y hy

/-- **One step of the cluster** is a sequence of steps of the protocol, by the node that takes the
step. -/
theorem step_refines_node (hc : Refines S c a.1) (hs : c.step S act = some c') :
    ∃ b : S.Abstract, (S.abstraction act.node).reach a b ∧ Refines S c' b.1 := by
  rcases step_cases hs with ⟨i, inp, ev, origin, m, x, rfl, hi, hev, hres, rfl⟩ |
    ⟨i, inp, ev, origin, k, role, clk, l, rfl, hi, hev, hl, rfl⟩
  · have hsim := handle_sim hc hi hev
    obtain ⟨b, hab, hd, hans⟩ := Outcome.Sat.of_result hsim hres
    refine ⟨b, hab, b.2, fun j hj => ?_, ?_⟩
    · rw [answer_nodes, post_nodes]
      by_cases hji : j = i
      · subst hji
        simpa [setNode] using hd
      · simpa [setNode, hji] using (hc.nodes j hj).other a.2 hab hji
    · refine messageOk_answer hans (messageOk_post hd.outbox fun e he => ?_)
      refine (hc.net e ?_).grows (S.grows_of_reach hab)
      simpa [setNode] using he
  · -- whatever was last on disk is described
    have hdur : ∃ b : S.Abstract, (S.abstraction i).reach a b ∧ Durable b.1 i l := by
      rcases List.mem_cons.mp hl with rfl | hl
      · exact ⟨a, .refl _, (hc.nodes i hi).durable⟩
      · exact (handle_sim hc hi hev).1 l hl
    obtain ⟨b, hab, hd⟩ := hdur
    refine ⟨b, hab, b.2, fun j hj => ?_, fun e he => ?_⟩
    · by_cases hji : j = i
      · subst hji
        simpa [setNode] using describes_start hd clk role
      · simpa [setNode, hji] using (hc.nodes j hj).other a.2 hab hji
    · exact (hc.net e he).grows (S.grows_of_reach hab)

theorem step_refines (hc : Refines S c a.1) (hs : c.step S act = some c') :
    ∃ (i : ℕ) (b : S.Abstract), (S.abstraction i).reach a b ∧ Refines S c' b.1 :=
  ⟨act.node, step_refines_node hc hs⟩

end Cluster

/-- **Whole runs**: what describes the last state extends the history of what described the
first. -/
theorem RunsTo.refines (h : RunsTo S c c') (hc : Refines S c a.1) :
    ∃ b : S.Abstract, Grows a.1 b.1 ∧ Refines S c' b.1 := by
  induction h with
  | refl => exact ⟨a, a.2.grows_refl, hc⟩
  | tail _ hs ih =>
    obtain ⟨b, hab, hb⟩ := ih
    obtain ⟨i, d, hbd, hd⟩ := Cluster.step_refines hb hs
    exact ⟨d, hab.trans (S.grows_of_reach hbd), hd⟩

theorem Reachable.refines (h : Reachable S c) : ∃ a : S.Abstract, Refines S c a.1 := by
  obtain ⟨b, -, hb⟩ := RunsTo.refines (a := ⟨_, (refines_init S).inv⟩) h (refines_init S)
  exact ⟨b, hb⟩

end Gringofts
