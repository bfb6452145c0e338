import Gringofts.Raft.Calls

/-!
# Where entries come from

An entry comes into a log in three ways only: a new leader appends its `noop`, a leader appends what
a client has asked for, and a follower takes what a request of the leader brings
(`Event.brings`). Everything else a node does leaves the entries of its log alone; only the front of
the window may be cut off. What a leader sends is taken from its log. So a property that the entries
have when they are made is one that all entries have, in every log and in every request
(`Cluster.step_entries`).

The same case analysis shows that the commit index of a node does not fall while the node runs.

## Main definitions

* `Event.brings` — the entries that an event may bring into the log

## Main results

* `Node.handle_draws`, `Node.handle_sends` — what an event does
* `Cluster.step_entries`, `Cluster.step_commit_le` — what a step does
-/

namespace Gringofts

open Replication

variable {ev : Event} {l : Log} {c : Cluster} {i : ℕ} {m : Envelope} {r : AppendEntriesRequest}
  {origin : Option Envelope}

/-- The entries that an event may bring into the log of a node. -/
def Event.brings (cfg : RaftConfig) (n : Node) : Event → List LogEntry
  | .appendEntriesRequest _ r => r.entries
  | .clientRequests cs => if n.role = .leader then
      (Node.selectRequests n.log.currentTerm n.log.lastIndex cs).map ClientRequest.entry else []
  | .becomeLeader clk => if n.role = .candidate then [n.noopEntry cfg clk] else []
  | _ => []

namespace Node

variable {n : Node}

theorem Writes.draws {cfg : RaftConfig} (h : n.Writes cfg ev l) :
    n.log.Draws (ev.brings cfg n) l := by
  cases h with
  | registers h => exact h.draws _
  | obeys first_eq draws => exact draws
  | takes leader h =>
    rw [Event.brings, if_pos leader]
    exact h.draws
  | wins candidate =>
    rw [Event.brings, if_pos candidate]
    exact Log.draws_appendEntry rfl List.mem_cons_self
  | truncates hk => exact n.log.draws_truncatePrefix _ _

/-- **What is in the log after an event** was there before, or the event has brought it; and the
commit index has not fallen. -/
theorem handle_draws (cfg : RaftConfig) (hs : n.role ≠ .syncer)
    (hconf : ∀ clk selfId info, ev ≠ .reconfigureRequest clk selfId info) :
    (n.handle cfg ev).Sat (n.log.Draws (ev.brings cfg n))
      (fun x => n.log.Draws (ev.brings cfg n) x.1.log ∧ n.commitIndex ≤ x.1.commitIndex)
      fun _ => True := by
  have hbrings : ev.brings cfg { n with outbox := [] } = ev.brings cfg n := by
    cases ev <;> rfl
  refine (handle_sat cfg (fun _ _ _ => hs) hconf).mono (fun l hl => ?_) (fun x hx => ?_) fun _ => id
  · exact hbrings ▸ hl.draws
  · exact ⟨hbrings ▸ hx.writes.draws, hx.commit_le⟩

/-- **What a node sends is in its log.** -/
theorem handle_sends (cfg : RaftConfig) (hs : n.role ≠ .syncer)
    (hconf : ∀ clk selfId info, ev ≠ .reconfigureRequest clk selfId info) :
    (n.handle cfg ev).Sat (fun _ => True)
      (fun x => ∀ dst r, .appendEntries dst r ∈ x.1.outbox → r.entries ⊆ n.log.entries)
      fun _ => True := by
  refine (handle_sat cfg (fun _ _ _ => hs) hconf).mono (fun _ _ => trivial) ?_ fun _ => id
  intro x hx dst r ho
  rcases hx.mute_or with hmute | ⟨-, hd⟩
  · exact absurd (hmute dst r ho) List.not_mem_nil
  · exact ((hd.outbox dst r ho).resolve_left List.not_mem_nil).2.1

end Node

/-! ## Steps of a cluster -/

variable {S : Setup}

/-- The entries in the logs and in the requests on the network have a property. -/
structure Cluster.Holds (S : Setup) (c : Cluster) (G : LogEntry → Prop) : Prop where
  logs : ∀ i ∈ S.info.nodes.keys, ∀ e ∈ (c.nodes i).log.entries, G e
  net : ∀ m ∈ c.net, ∀ r, m.msg = .appendEntriesRequest r → ∀ e ∈ r.entries, G e

theorem Cluster.Holds.mono {G G' : LogEntry → Prop} (h : c.Holds S G) (hG : ∀ e, G e → G' e) :
    c.Holds S G' :=
  ⟨fun i hi e he => hG e (h.logs i hi e he), fun m hm r hr e he => hG e (h.net m hm r hr e he)⟩

namespace Cluster

/-- An AE request on the network was there before, or the node has handed it over. -/
theorem request_of_mem_post {os : List Output} (hm : m ∈ (post i os c).net)
    (hr : m.msg = .appendEntriesRequest r) : m ∈ c.net ∨ ∃ dst, .appendEntries dst r ∈ os := by
  induction os generalizing c with
  | nil => exact Or.inl hm
  | cons o os ih =>
    cases o with
    | appendEntries dst r' =>
      rcases ih hm with h | h
      · rcases List.mem_append.mp h with h | h
        · exact Or.inl h
        · rw [List.mem_singleton.mp h] at hr
          cases hr
          exact Or.inr ⟨dst, List.mem_cons_self⟩
      · exact Or.inr (h.imp fun _ => List.mem_cons_of_mem _)
    | requestVote dst r' =>
      rcases ih hm with h | h
      · rcases List.mem_append.mp h with h | h
        · exact Or.inl h
        · rw [List.mem_singleton.mp h] at hr
          cases hr
      · exact Or.inr (h.imp fun _ => List.mem_cons_of_mem _)
    | reply handle code message leaderId =>
      exact (ih hm).imp_right (Exists.imp fun _ => List.mem_cons_of_mem _)

theorem request_of_mem_answer {x : Option Answer} (hm : m ∈ (c.answer i x origin).net)
    (hr : m.msg = .appendEntriesRequest r) : m ∈ c.net := by
  unfold answer at hm
  split at hm
  · next y e =>
    rcases List.mem_append.mp hm with h | h
    · exact h
    · rw [List.mem_singleton.mp h] at hr
      cases y <;> cases hr
  · exact hm

variable {c c' : Cluster} {a : State ℕ LogEntry} {act : Action} {G : LogEntry → Prop}

/-- What an event brings into the log has the property: it comes from the network, or the node makes
it now. -/
theorem Holds.brings (h : c.Holds S G) {inp : Input} (hev : c.event? i inp = some (ev, origin))
    (hnew : ∀ ev, inp = .own ev → ∀ e ∈ ev.brings (S.config i) (c.nodes i), e ∈ l.entries → G e) :
    ∀ e ∈ ev.brings (S.config i) (c.nodes i), e ∈ l.entries → G e := by
  cases inp with
  | own ev' =>
    rw [event?] at hev
    split at hev
    · cases hev
      exact hnew ev rfl
    · cases hev
  | deliver k clk =>
    rcases event?_cases hev with ⟨hlocal, rfl⟩ | ⟨m, clk', hm, -, rfl, -⟩
    · -- a message has an origin
      rw [event?] at hev
      split at hev
      · split at hev <;> cases hev
      · cases hev
    · obtain ⟨src, dst, call, msg⟩ := m
      cases msg with
      | appendEntriesRequest r => exact fun e he _ => h.net _ hm r rfl e he
      | appendEntriesResponse r => exact fun _ he => absurd he List.not_mem_nil
      | requestVoteRequest r => exact fun _ he => absurd he List.not_mem_nil
      | requestVoteResponse r => exact fun _ he => absurd he List.not_mem_nil

/-- **A property that entries are made with is one that all entries have.** -/
theorem step_entries (h : c.Holds S G) (href : Refines S c a) (hs : c.step S act = some c')
    (hnew : ∀ ev, act.input = .own ev → ∀ e ∈ ev.brings (S.config act.node) (c.nodes act.node),
      e ∈ (c'.nodes act.node).log.entries → G e) : c'.Holds S G := by
  rcases step_cases hs with ⟨i, inp, ev, origin, n, x, rfl, hi, hev, hres, rfl⟩ |
    ⟨i, inp, ev, origin, k, role, clk, l, rfl, hi, hev, hl, rfl⟩
  · have hsyncer := (href.nodes i hi).role_ne
    have hbrings := h.brings hev hnew
    simp only [Action.node, answer_nodes, post_nodes, setNode, Function.update_self] at hbrings
    have hconf := event?_ne_reconfigure hev
    have hdraws := (Node.handle_draws (S.config i) hsyncer hconf).of_result hres
    have hsends := (Node.handle_sends (S.config i) hsyncer hconf).of_result hres
    constructor
    · intro j hj e he
      by_cases hji : j = i
      · subst hji
        simp only [answer_nodes, post_nodes, setNode, Function.update_self] at he
        rcases hdraws.1 e he with hold | hnew
        · exact h.logs j hj e hold
        · exact hbrings e hnew he
      · simp only [answer_nodes, post_nodes, setNode, Function.update_of_ne hji,
          endCall_nodes] at he
        exact h.logs j hj e he
    · intro m hm r hr e he
      rcases request_of_mem_post (request_of_mem_answer hm hr) hr with hm | ⟨dst, ho⟩
      · exact h.net m (by simpa [setNode] using hm) r hr e he
      · exact h.logs i hi e (hsends dst r ho he)
  · have hdraws := Node.handle_draws (S.config i) (href.nodes i hi).role_ne
      (event?_ne_reconfigure hev)
    have hbrings := h.brings hev hnew
    simp only [Action.node, setNode, Function.update_self] at hbrings
    constructor
    · intro j hj e he
      by_cases hji : j = i
      · subst hji
        simp only [setNode, Function.update_self] at he
        rcases List.mem_cons.mp hl with rfl | hl
        · exact h.logs j hj e he
        · rcases hdraws.1 l hl e he with hold | hnew
          · exact h.logs j hj e hold
          · exact hbrings e hnew he
      · simp only [setNode, Function.update_of_ne hji] at he
        exact h.logs j hj e he
    · exact h.net

/-- **The commit index of a node that goes on running does not fall.** -/
theorem step_commit_le (href : Refines S c a) (hs : c.step S act = some c') {v : ℕ}
    (hv : v = act.node → act.isCrash = false) :
    (c.nodes v).commitIndex ≤ (c'.nodes v).commitIndex := by
  rcases step_cases hs with ⟨i, inp, ev, origin, n, x, rfl, hi, hev, hres, rfl⟩ |
    ⟨i, inp, ev, origin, k, role, clk, l, rfl, hi, hev, hl, rfl⟩
  · by_cases hvi : v = i
    · subst hvi
      simp only [answer_nodes, post_nodes, setNode, Function.update_self]
      exact ((Node.handle_draws (S.config v) (href.nodes v hi).role_ne
        (event?_ne_reconfigure hev)).of_result hres).2
    · simp [setNode, Function.update_of_ne hvi]
  · by_cases hvi : v = i
    · cases hv hvi
    · simp [setNode, Function.update_of_ne hvi]

end Cluster

end Gringofts
