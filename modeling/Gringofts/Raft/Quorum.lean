import Gringofts.Lib.Majority
import Gringofts.Lib.Replication.State
import Gringofts.Raft.Cluster

/-!
# Quorums of a configuration

The code counts votes and acknowledgements differently. A vote counts when it comes from anybody
who is not a learner, and the majority is taken of all who are not learners; an acknowledgement
counts only when it comes from a voter, and the majority is taken of the voters. That the two
still meet rests on a fact about how votes are asked for: only voters are asked, so that among
the votes of a candidate at most its own is one of a pre-follower.

## Main definitions

* `ClusterInfo.quorumSets` — the sets of which a majority is needed: all nodes, or both joint sets
* `ClusterInfo.Elects`, `ClusterInfo.Commits` — electing and committing sets
* `Setup.protocol` — the replication protocol of a configuration
* `ClusterMemberShip.Of` — the fixed membership, seen from a node

## Main results

* `ClusterInfo.Elects.meets`, `ClusterInfo.Elects.meets_commits` — electing sets meet each other and
  every committing set
-/

namespace Gringofts

open Replication

variable {q : IdSet} {id : ℕ} {r : RaftRole} {E : Finset ℕ}

namespace ClusterInfo

variable (info : ClusterInfo)

/-- The node is part of the configuration and a learner. -/
def IsLearner (id : ℕ) : Prop := info.roleOf? id = some .learner

instance (id : ℕ) : Decidable (info.IsLearner id) := inferInstanceAs (Decidable (_ = _))

/-- The sets of which a majority is needed. -/
def quorumSets : List IdSet :=
  if info.oldJointMembers.isEmpty = false ∧ info.newJointMembers.isEmpty = false then
    [info.oldJointMembers, info.newJointMembers]
  else [info.nodes.keys]

/-- The members of a set that may vote: all but the learners. -/
def electorate (q : IdSet) : List ℕ := q.elems.filter fun id => ¬ info.IsLearner id

/-- The members of a set whose acknowledgement counts. -/
def voters (q : IdSet) : List ℕ := q.elems.filter fun id => info.IsVoter id

/-- A set of ballots that elects a candidate: only the candidate itself may be no voter. -/
def Elects (E : Finset ℕ) : Prop :=
  ∃ c, (∀ n ∈ E, n = c ∨ info.IsVoter n) ∧ ∀ q ∈ info.quorumSets,
    (info.electorate q).length / 2 < (info.electorate q).countP fun id => decide (id ∈ E)

/-- A set of acknowledgements that commits an index. -/
def Commits (C : Finset ℕ) : Prop :=
  ∀ q ∈ info.quorumSets,
    (info.voters q).length / 2 < (info.voters q).countP fun id => decide (id ∈ C)

/-- A set is its electorate and its learners. -/
theorem length_eq_electorate_add (q : IdSet) : q.elems.length = (info.electorate q).length +
    q.elems.countP fun id => decide (info.IsLearner id) := by
  rw [electorate, ← List.countP_eq_length_filter, List.length_eq_countP_add_countP
    (fun id => decide (info.IsLearner id)), Nat.add_comm]
  simp

/-- To count those who are not learners is to count in the electorate. -/
theorem countP_electorate (q : IdSet) (p : ℕ → Bool) :
    (q.elems.countP fun id => decide (¬ info.IsLearner id) && p id) =
      (info.electorate q).countP p := by
  rw [electorate, List.countP_filter]
  simp [Bool.and_comm]

theorem exists_quorumSet : ∃ q, q ∈ info.quorumSets := by
  rw [quorumSets]
  split
  · exact ⟨_, List.mem_cons_self⟩
  · exact ⟨_, List.mem_cons_self⟩

variable {info}

/-- Members of a quorum set are nodes of the configuration. -/
theorem WellFormed.mem_keys (h : info.WellFormed) (hq : q ∈ info.quorumSets) (hid : id ∈ q) :
    id ∈ info.nodes.keys := by
  rw [quorumSets] at hq
  split at hq
  · rcases List.mem_cons.mp hq with rfl | hq
    · exact h.old_mem id hid
    · rw [List.mem_singleton.mp hq] at hid
      exact h.new_mem id hid
  · rwa [List.mem_singleton.mp hq] at hid

theorem mem_keys_of_roleOf (h : info.roleOf? id = some r) : id ∈ info.nodes.keys := by
  obtain ⟨n, hn, -⟩ := Option.map_eq_some_iff.mp h
  exact Table.mem_keys.mpr ⟨n, hn⟩

theorem exists_roleOf (h : id ∈ info.nodes.keys) : ∃ r, info.roleOf? id = some r := by
  obtain ⟨n, hn⟩ := Table.mem_keys.mp h
  exact ⟨n.initialRole.toRaftRole, by rw [roleOf?, hn, Option.map_some]⟩

/-- **Two electing sets meet.** -/
theorem Elects.meets {E' : Finset ℕ} (h : info.Elects E) (h' : info.Elects E') :
    ∃ n, n ∈ E ∧ n ∈ E' := by
  obtain ⟨q, hq⟩ := info.exists_quorumSet
  obtain ⟨c, -, hE⟩ := h
  obtain ⟨c', -, hE'⟩ := h'
  have h1 := hE q hq
  have h2 := hE' q hq
  obtain ⟨n, -, hn, hn'⟩ := exists_of_length_lt_countP_add
    (p := fun id => decide (id ∈ E)) (q := fun id => decide (id ∈ E'))
    (l := info.electorate q) (by omega)
  exact ⟨n, of_decide_eq_true hn, of_decide_eq_true hn'⟩

/-- Of the members that are neither voter nor learner, at most one is among the ballots. -/
theorem countP_preFollower_le {c : ℕ} (hc : ∀ n ∈ E, n = c ∨ info.IsVoter n) :
    (q.elems.countP fun id =>
      decide (¬ info.IsLearner id ∧ ¬ info.IsVoter id) && decide (id ∈ E)) ≤ 1 := by
  calc (q.elems.countP fun id =>
        decide (¬ info.IsLearner id ∧ ¬ info.IsVoter id) && decide (id ∈ E))
      ≤ q.elems.countP (fun id => id == c) := by
        refine List.countP_mono_left fun id _ hid => ?_
        simp only [Bool.and_eq_true, decide_eq_true_eq] at hid
        rcases hc id hid.2 with rfl | hv
        · simp
        · exact absurd hv hid.1.2
    _ = q.elems.count c := rfl
    _ ≤ 1 := List.nodup_iff_count_le_one.mp q.nodup c

/-- **An electing set meets every committing set.** -/
theorem Elects.meets_commits {C : Finset ℕ} (h : info.Elects E) (h' : info.Commits C) :
    ∃ n, n ∈ E ∧ n ∈ C := by
  obtain ⟨q, hq⟩ := info.exists_quorumSet
  obtain ⟨c, hc, hE⟩ := h
  have hE := hE q hq
  have hC := h' q hq
  have hpre := countP_preFollower_le (q := q) hc
  -- a count of the electorate, split into voters and pre-followers
  have hcount : ∀ g : ℕ → Bool, (info.electorate q).countP g = (info.voters q).countP g +
      q.elems.countP fun id => decide (¬ info.IsLearner id ∧ ¬ info.IsVoter id) && g id := by
    intro g
    rw [electorate, voters, List.countP_filter, List.countP_filter]
    refine countP_eq_add fun id _ => ?_
    by_cases hl : info.IsLearner id <;> by_cases hv : info.IsVoter id <;> simp [hl, hv]
    rw [IsLearner] at hl
    rw [IsVoter, hl] at hv
    cases hv
  have hlen := hcount fun _ => true
  simp only [List.countP_true, Bool.and_true] at hlen
  have hcount := hcount fun id => decide (id ∈ E)
  have hle : (q.elems.countP fun id =>
      decide (¬ info.IsLearner id ∧ ¬ info.IsVoter id) && decide (id ∈ E)) ≤
      q.elems.countP fun id => decide (¬ info.IsLearner id ∧ ¬ info.IsVoter id) :=
    List.countP_mono_left fun id _ hid => (Bool.and_eq_true_iff.mp hid).1
  obtain ⟨n, -, hn, hn'⟩ := exists_of_length_lt_countP_add
    (p := fun id => decide (id ∈ E)) (q := fun id => decide (id ∈ C))
    (l := info.voters q) (by omega)
  exact ⟨n, of_decide_eq_true hn, of_decide_eq_true hn'⟩

end ClusterInfo

/-- The replication protocol of a configuration. -/
def Setup.protocol (S : Setup) : Protocol ℕ LogEntry where
  term := LogEntry.term
  elects := S.info.Elects
  commits := S.info.Commits
  elects_elects := ClusterInfo.Elects.meets
  elects_commits := ClusterInfo.Elects.meets_commits

/-! ## What a node makes of its configuration -/

/-- The ids of a configuration are looked up as they are. -/
theorem Setup.roleKey_eq (S : Setup) (h : id ∈ S.info.nodes.keys) :
    ClusterMemberShip.roleKey id = id :=
  Nat.mod_eq_of_lt (S.id_lt id h)

/-- The membership is the fixed one, seen from node `i`. What is known of a peer may change; who
is a peer does not. -/
structure ClusterMemberShip.Of (S : Setup) (i : ℕ) (m : ClusterMemberShip) : Prop where
  selfId_eq : m.selfId = i
  initialRoles_eq : m.initialRoles = (S.membership i).initialRoles
  oldMembers_eq : m.oldMembers = S.info.oldJointMembers
  newMembers_eq : m.newMembers = S.info.newJointMembers
  insyncLearners_eq : m.insyncLearners = S.info.insyncLearners
  keys_eq : m.peers.keys = (S.info.nodes.erase i).keys

namespace ClusterMemberShip.Of

variable {S : Setup} {i : ℕ} {m : ClusterMemberShip} (h : m.Of S i)
include h

theorem mem_keys : id ∈ m.peers.keys ↔ id ∈ S.info.nodes.keys ∧ id ≠ i := by
  rw [h.keys_eq, Table.mem_keys, Table.mem_keys]
  by_cases hid : id = i
  · subst hid
    simp
  · simp [Table.find?_erase_of_ne _ hid, hid]

theorem initialRole_eq (hr : S.info.roleOf? id = some r) : m.initialRole id = pure r := by
  obtain ⟨n, hn, rfl⟩ := Option.map_eq_some_iff.mp hr
  rw [initialRole, h.initialRoles_eq, Setup.membership, Table.find?_map, hn]
  rfl

theorem isVoter_eq (hid : id ∈ S.info.nodes.keys) :
    m.isVoter id = pure (decide (S.info.IsVoter id)) := by
  obtain ⟨r, hr⟩ := ClusterInfo.exists_roleOf hid
  rw [isVoter, h.initialRole_eq hr, pure_bind]
  simp [ClusterInfo.IsVoter, hr]

theorem isLearner_eq (hid : id ∈ S.info.nodes.keys) :
    m.isLearner id = pure (decide (S.info.IsLearner id)) := by
  obtain ⟨r, hr⟩ := ClusterInfo.exists_roleOf hid
  rw [isLearner, h.initialRole_eq hr, pure_bind]
  simp [ClusterInfo.IsLearner, hr]

end ClusterMemberShip.Of

namespace Node

variable {S : Setup} {i : ℕ} {n : Node}

/-- Has a member voted for this node, as far as it knows? -/
def Voted (n : Node) (id : ℕ) : Bool := n.selfId = id ∨ (n.peer? id).any Peer.haveVote

/-- The last index of a member's log, as far as this node knows it to agree with its own. -/
def knownIndex (n : Node) (id : ℕ) : ℕ :=
  if n.selfId = id then n.log.lastIndex else ((n.peer? id).map Peer.matchIndex).getD 0

section

variable (h : n.members.Of S i)
include h

theorem exists_peer (hid : id ∈ S.info.nodes.keys) (hne : id ≠ i) : ∃ p, n.peer? id = some p :=
  Table.mem_keys.mp (h.mem_keys.mpr ⟨hid, hne⟩)

theorem mem_keys_of_peer {p : Peer} (hp : n.peer? id = some p) : id ∈ S.info.nodes.keys ∧ id ≠ i :=
  h.mem_keys.mp (Table.mem_keys.mpr ⟨p, hp⟩)

end

end Node

end Gringofts
