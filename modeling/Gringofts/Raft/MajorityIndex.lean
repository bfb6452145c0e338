import Gringofts.Raft.Safety
import Mathlib.Order.Bounds.Basic

/-!
# The majority index

What counts for an index and what counts for a vote are not the same: votes are counted among all
who are not learners, indices among the voters. But only voters are asked for votes, so each vote
counts for as much as an acknowledgement does, and a majority of the one meets every majority of the
other.

For in-sync learners a node looks among its peers only. It fails an assertion when it is one of them
itself.

## Main definitions

* `ClusterInfo.MemberShipOf` — what a node has under a configuration
* `ClusterInfo.Wins` — the candidate and those who voted for it are voters, and the votes suffice

## Main results

* `ClusterInfo.MemberShipOf.majority_of_checkVotePass`,
  `ClusterInfo.MemberShipOf.majority_of_getMajorityIndex` — what the two functions of the code stand
  for
* `majority_index_is_largest`
* `vote_and_commit_quorums_meet`
-/

namespace Gringofts

open Scenario

variable {info : ClusterInfo} {i : ℕ} {m : ClusterMemberShip}

/-- A membership under a configuration: what `initClusterConf` makes of it for some node, whatever
is known of the peers. -/
def ClusterInfo.MemberShipOf (info : ClusterInfo) (m : ClusterMemberShip) : Prop :=
  ∃ i m₀ peers, (initClusterConf info i).result = .ok m₀ ∧ peers.keys = m₀.peers.keys ∧
    m = { m₀ with peers := peers }

theorem initClusterConf_eq {info : ClusterInfo} {selfId : ℕ} {self : ClusterInfo.Node}
    (hself : info.nodes.find? selfId = some self) (hpos : selfId ≠ 0) :
    initClusterConf info selfId = pure (info.memberShip selfId self) := by
  rw [initClusterConf, hself]
  simp only [Outcome.ofOption, Outcome.check, if_pos hpos, pure_bind]

theorem eq_of_initClusterConf (h : (initClusterConf info i).result = .ok m) :
    i ≠ 0 ∧ ∃ self, info.nodes.find? i = some self ∧ m = info.memberShip i self := by
  rw [initClusterConf] at h
  cases hself : info.nodes.find? i with
  | none =>
    rw [hself] at h
    cases h
  | some self =>
    rw [hself] at h
    by_cases hpos : i ≠ 0
    · rw [Outcome.check, if_pos hpos] at h
      cases h
      exact ⟨hpos, self, rfl, rfl⟩
    · rw [Outcome.check, if_neg hpos] at h
      cases h

namespace ClusterInfo.MemberShipOf

variable {info : ClusterInfo} {n : Gringofts.Node}

theorem under (h : info.MemberShipOf m) : m.Under info := by
  obtain ⟨i, m₀, peers, hm₀, hkeys, rfl⟩ := h
  obtain ⟨-, self, hself, rfl⟩ := eq_of_initClusterConf hm₀
  constructor
  · exact Table.mem_keys.mpr ⟨self, hself⟩
  · exact hkeys.trans (Table.keys_map _ _)
  · rfl
  · rfl
  · rfl
  · rfl

theorem selfId_ne (h : info.MemberShipOf m) : m.selfId ≠ 0 := by
  obtain ⟨i, m₀, peers, hm₀, -, rfl⟩ := h
  obtain ⟨hpos, self, -, rfl⟩ := eq_of_initClusterConf hm₀
  exact hpos

/-- **A vote that passes has a majority** of those who are not learners in every quorum set. -/
theorem majority_of_checkVotePass (h : info.MemberShipOf n.members)
    (hpass : n.checkVotePass.result = .ok true) : ∀ q ∈ info.quorumSets,
      Node.getMajorityNumber (info.electorate q).length ≤ (info.electorate q).countP n.Voted :=
  of_decide_eq_true ((Node.checkVotePass_sat h.under).of_result hpass).1.symm

/-- **A majority index has a majority** of the voters in every quorum set. -/
theorem majority_of_getMajorityIndex (h : info.MemberShipOf n.members) {m : ℕ}
    (hm : n.getMajorityIndex.result = .ok m) : ∀ q ∈ info.quorumSets,
      Node.getMajorityNumber (info.voters q).length ≤
        (info.voters q).countP fun id => decide (m ≤ n.knownIndex id) := by
  obtain ⟨-, hlargest⟩ := (Node.getMajorityIndex_sat_counts h.under).of_result hm
  exact ((hlargest m).mp (Nat.le_refl m)).majority

end ClusterInfo.MemberShipOf

/-- **The majority index is the largest replicated index.** It is found exactly if in each set that
counts there is somebody and everybody can be looked up. Then more than half of those who count have
stored it, in every set, and this is so of no larger index; and when the node learns that logs
have grown, its own or others, the index does not fall. -/
theorem majority_index_is_largest {info : ClusterInfo} {n : Node}
    (h : info.MemberShipOf n.members) :
    ((∃ m, n.getMajorityIndex.result = .ok m) ↔ info.Counts n.selfId) ∧
      ∀ m, n.getMajorityIndex.result = .ok m →
        IsGreatest {i | info.Replicated n i} m ∧
          ∀ n' : Node, info.MemberShipOf n'.members → n'.selfId = n.selfId →
            (∀ id, n.knownIndex id ≤ n'.knownIndex id) →
              ∃ m', n'.getMajorityIndex.result = .ok m' ∧ m ≤ m' := by
  have hreturns : ∀ {n : Node}, info.MemberShipOf n.members → info.Counts n.selfId →
      ∃ m, n.getMajorityIndex.result = .ok m ∧ ∀ i, i ≤ m ↔ info.Replicated n i := by
    intro n h hcounts
    obtain ⟨m, hm, hall⟩ := ((Node.getMajorityIndex_sat_counts h.under).mono (fun _ hw => hw)
      (fun _ hm => hm) fun _ hnot => hnot hcounts).exists_result
    exact ⟨m, hm, hall.2⟩
  have hsat := Node.getMajorityIndex_sat_counts h.under
  refine ⟨⟨?_, ?_⟩, fun m hm => ⟨⟨?_, fun i hi => ?_⟩, fun n' h' hself hraised => ?_⟩⟩
  · rintro ⟨m, hm⟩
    exact (hsat.of_result hm).1
  · intro hcounts
    obtain ⟨m, hm, -⟩ := hreturns h hcounts
    exact ⟨m, hm⟩
  · exact ((hsat.of_result hm).2 m).mp (Nat.le_refl m)
  · exact ((hsat.of_result hm).2 i).mpr hi
  · obtain ⟨hcounts, hiff⟩ := hsat.of_result hm
    rw [← hself] at hcounts
    obtain ⟨m', hm', hiff'⟩ := hreturns h' hcounts
    refine ⟨m', hm', (hiff' m).mpr fun x hx => ?_⟩
    refine Nat.lt_of_lt_of_le ((hiff m).mp (Nat.le_refl m) x hx) (Nat.mul_le_mul_left 2 ?_)
    refine List.countP_mono_left fun id _ hid => ?_
    exact decide_eq_true ((of_decide_eq_true hid).trans (hraised id))

namespace Scenario

/-- The membership of node `i` after the given peers have voted for it and stored index `1`. -/
def supported (info : ClusterInfo) (i : ℕ) (supporters : List ℕ) : ClusterMemberShip where
  selfId := i
  selfAddress := ((info.nodes.find? i).map ClusterInfo.Node.address).getD ""
  peers := (info.nodes.erase i).map fun id n =>
    if id ∈ supporters then { address := n.address, haveVote := true, matchIndex := 1 }
    else { address := n.address }
  clients := (info.nodes.erase i).map fun _ n => n.address
  initialRoles := info.nodes.map fun _ n => n.initialRole.toRaftRole
  oldMembers := info.oldJointMembers
  newMembers := info.newJointMembers
  insyncLearners := info.insyncLearners

theorem supported_memberShipOf (hi : i ∈ info.nodes.keys) (hpos : i ≠ 0) (supporters : List ℕ) :
    info.MemberShipOf (supported info i supporters) := by
  obtain ⟨self, hself⟩ := Table.mem_keys.mp hi
  refine ⟨i, supported info i [], (supported info i supporters).peers, ?_, ?_, rfl⟩
  · rw [initClusterConf, hself]
    simp only [Outcome.ofOption, Outcome.check, pure_bind, if_pos hpos, supported, hself,
      Option.map_some, Option.getD_some, List.not_mem_nil, if_false]
    rfl
  · rw [supported, supported, Table.keys_map, Table.keys_map]

/-- A node that leads with a log of one entry, supported by the given peers. -/
def leading (info : ClusterInfo) (i : ℕ) (supporters : List ℕ) : Node :=
  Node.start config ⟨0, 0⟩ .leader (supported info i supporters)
    { firstIndex := 1
      entries := [⟨1, 1, true, 0, [], 0, none⟩]
      currentTerm := 1
      voteFor := i
      first_pos := Nat.zero_lt_one
      indexed := by
        intro j e h
        obtain ⟨hj, rfl⟩ := List.getElem?_eq_some_iff.mp h
        obtain rfl : j = 0 := by simpa using hj
        rfl }

/-- Three voters, a pre-follower and an in-sync learner. -/
def mixed : ClusterInfo where
  clusterId := 0
  nodes := ⟨[(1, ⟨"a", 1, .voter⟩), (2, ⟨"b", 1, .voter⟩), (3, ⟨"c", 1, .voter⟩),
    (4, ⟨"d", 1, .preFollower⟩), (5, ⟨"e", 1, .learner⟩)], by decide⟩
  oldJointMembers := IdSet.empty
  newJointMembers := IdSet.empty
  insyncLearners := ⟨[5], by decide⟩

end Scenario

theorem majority_index_is_largest_mixed :
    ∃ n : Node, mixed.MemberShipOf n.members ∧ mixed.Counts n.selfId ∧
      n.getMajorityIndex.result = .ok 1 ∧ IsGreatest {i | mixed.Replicated n i} 1 := by
  have hmember : mixed.MemberShipOf (leading mixed 2 [3, 5]).members :=
    supported_memberShipOf (by decide +kernel) (by decide) [3, 5]
  have hindex : (leading mixed 2 [3, 5]).getMajorityIndex.result = .ok 1 :=
    Outcome.value?_eq_some.mp (by decide +kernel)
  obtain ⟨hreturns, hlargest⟩ := majority_index_is_largest hmember
  exact ⟨_, hmember, hreturns.mp ⟨1, hindex⟩, hindex, (hlargest 1 hindex).1⟩

/-! ## Votes and indices -/

/-- **A candidate that wins.** It is a voter, only voters have been asked for their vote, and the
votes suffice. -/
structure ClusterInfo.Wins (info : ClusterInfo) (n : Gringofts.Node) : Prop where
  members : info.MemberShipOf n.members
  candidate : info.IsVoter n.selfId
  flags : ∀ id p, n.peer? id = some p → p.haveVote = true → info.IsVoter id
  pass : n.checkVotePass.result = .ok true

namespace ClusterInfo.Wins

variable {info : ClusterInfo} {n : Gringofts.Node} (h : info.Wins n)
include h

theorem isVoter_of_voted {id : ℕ} (hid : n.Voted id = true) : info.IsVoter id := by
  rcases of_decide_eq_true hid with rfl | hpeer
  · exact h.candidate
  · obtain ⟨p, hp, hvote⟩ := (Option.any_eq_true _ _).mp hpeer
    exact h.flags id p hp hvote

/-- The votes are more than half of the voters of every quorum set, though pre-followers count as
well. -/
theorem majority_voters {q : IdSet} (hq : q ∈ info.quorumSets) :
    Node.getMajorityNumber (info.voters q).length ≤ (info.voters q).countP n.Voted := by
  have hpass := h.members.majority_of_checkVotePass h.pass q hq
  have hlength : (info.voters q).length ≤ (info.electorate q).length := by
    rw [voters, electorate, ← List.countP_eq_length_filter, ← List.countP_eq_length_filter]
    refine List.countP_mono_left fun id _ hvoter => ?_
    have hvoter : info.IsVoter id := of_decide_eq_true hvoter
    refine decide_eq_true fun hlearner => ?_
    rw [IsLearner, hvoter] at hlearner
    cases hlearner
  have hcount : (info.electorate q).countP n.Voted ≤ (info.voters q).countP n.Voted := by
    rw [electorate, voters, List.countP_filter, List.countP_filter]
    refine List.countP_mono_left fun id _ hid => ?_
    have hvoted := (Bool.and_eq_true_iff.mp hid).1
    exact Bool.and_eq_true_iff.mpr ⟨hvoted, decide_eq_true (h.isVoter_of_voted hvoted)⟩
  rw [Node.getMajorityNumber] at hpass ⊢
  omega

end ClusterInfo.Wins

/-- **Vote and commit quorums meet.** When a candidate wins, then up to the majority index of any
node of the configuration, whatever it knows of the others, there is somebody among those who voted
that is a voter and known to have stored the index. And somebody has voted for both of two
candidates that win. -/
theorem vote_and_commit_quorums_meet {info : ClusterInfo} {n : Node} (h : info.Wins n) :
    (∀ (leader : Node) (m : ℕ), info.MemberShipOf leader.members →
        leader.getMajorityIndex.result = .ok m → ∀ i ≤ m,
          ∃ id, n.Voted id = true ∧ info.IsVoter id ∧ i ≤ leader.knownIndex id) ∧
      ∀ n' : Node, info.Wins n' → ∃ id, n.Voted id = true ∧ n'.Voted id = true := by
  obtain ⟨q, hq⟩ := info.exists_quorumSet
  have hvotes := h.majority_voters hq
  rw [Node.getMajorityNumber] at hvotes
  constructor
  · intro leader m hleader hm i hi
    have hstored := hleader.majority_of_getMajorityIndex hm q hq
    rw [Node.getMajorityNumber] at hstored
    obtain ⟨id, hid, hvoted, hknown⟩ := exists_of_length_lt_countP_add (l := info.voters q)
      (p := n.Voted) (q := fun id => decide (m ≤ leader.knownIndex id)) (by omega)
    exact ⟨id, hvoted, of_decide_eq_true (List.mem_filter.mp hid).2,
      hi.trans (of_decide_eq_true hknown)⟩
  · intro n' h'
    have hvotes' := h'.majority_voters hq
    rw [Node.getMajorityNumber] at hvotes'
    obtain ⟨id, -, hvoted, hvoted'⟩ := exists_of_length_lt_countP_add (l := info.voters q)
      (p := n.Voted) (q := n'.Voted) (by omega)
    exact ⟨id, hvoted, hvoted'⟩

theorem vote_and_commit_quorums_meet_mixed :
    ∃ n n' leader : Node, mixed.Wins n ∧ mixed.Wins n' ∧ n.selfId ≠ n'.selfId ∧
      leader.getMajorityIndex.result = .ok 1 ∧
      (∃ id, n.Voted id = true ∧ mixed.IsVoter id ∧ 1 ≤ leader.knownIndex id) ∧
      ∃ id, n.Voted id = true ∧ n'.Voted id = true := by
  have hmember : ∀ i ∈ mixed.nodes.keys.elems, ∀ supporters,
      mixed.MemberShipOf (leading mixed i supporters).members := by
    intro i hi supporters
    exact supported_memberShipOf hi (fun hzero => by subst hzero; revert hi; decide) supporters
  have hwins : ∀ {i : ℕ} {supporters : List ℕ}, i ∈ mixed.nodes.keys.elems → mixed.IsVoter i →
      (∀ id ∈ supporters, mixed.IsVoter id) →
      (leading mixed i supporters).checkVotePass.result = .ok true →
      mixed.Wins (leading mixed i supporters) := by
    intro i supporters hi hvoter hsupporters hpass
    refine ⟨hmember i hi supporters, hvoter, fun id p hp hvote => ?_, hpass⟩
    have hp : ((mixed.nodes.erase i).map _).find? id = some p := hp
    rw [Table.find?_map] at hp
    obtain ⟨node, -, rfl⟩ := Option.map_eq_some_iff.mp hp
    by_cases hid : id ∈ supporters
    · exact hsupporters id hid
    · rw [if_neg hid] at hvote
      cases hvote
  have hn : mixed.Wins (leading mixed 1 [2, 3]) := hwins (by decide) (by decide) (by decide)
    (Outcome.value?_eq_some.mp (by decide +kernel))
  have hn' : mixed.Wins (leading mixed 3 [1, 2]) := hwins (by decide) (by decide) (by decide)
    (Outcome.value?_eq_some.mp (by decide +kernel))
  have hindex : (leading mixed 2 [3, 5]).getMajorityIndex.result = .ok 1 :=
    Outcome.value?_eq_some.mp (by decide +kernel)
  obtain ⟨hmeets, hshares⟩ := vote_and_commit_quorums_meet hn
  exact ⟨_, _, _, hn, hn', by decide, hindex,
    hmeets _ 1 (hmember 2 (by decide) [3, 5]) hindex 1 (Nat.le_refl 1), hshares _ hn'⟩

end Gringofts
