import Gringofts.Raft.Quorum

/-!
# What a quorum counts

A candidate has won when more than half of the members that are not learners have voted for it, and
an index is committed when more than half of the voters have stored it. The index is found by
sorting: with the indices of the voters in decreasing order, the one in the middle is the largest
that more than half of them have reached. With a joint configuration it is the smaller one of two
such indices, and with in-sync learners that of the voters or that of the learners.

The functions that count look members up, and fail where somebody is not found or nobody is there.
What they compute and when they fail is said once, for any membership under any configuration.

## Main definitions

* `ClusterMemberShip.Under` — a membership under a configuration, whatever is known of the peers
* `ClusterInfo.countedSets`, `ClusterInfo.counted` — whose indices count
* `ClusterInfo.Counts` — everybody who is asked for can be found, and there is somebody
* `ClusterInfo.Replicated` — more than half have stored an index, wherever it counts

## Main results

* `Node.checkVotePass_sat`, `Node.getMajorityIndex_sat_counts` — what the two functions of the code
  stand for, under any configuration
* `ClusterInfo.WellFormed.counts` — by a well-formed configuration, all but the learners can count
* `Node.checkVotePass_eq`, `Node.getMajorityIndex_sat` — the same, for the fixed configuration of a
  cluster
-/

namespace Gringofts

open Outcome

variable {i id : ℕ} {value : ℕ → Act ℕ} {known : ℕ → ℕ} {F : ℕ → Prop}

/-! ## Memberships -/

/-- The membership is one under the configuration. What is known of the peers is left open. -/
structure ClusterMemberShip.Under (info : ClusterInfo) (m : ClusterMemberShip) : Prop where
  selfId_mem : m.selfId ∈ info.nodes.keys
  keys_eq : m.peers.keys = (info.nodes.erase m.selfId).keys
  initialRoles_eq : m.initialRoles = info.nodes.map fun _ n => n.initialRole.toRaftRole
  oldMembers_eq : m.oldMembers = info.oldJointMembers
  newMembers_eq : m.newMembers = info.newJointMembers
  insyncLearners_eq : m.insyncLearners = info.insyncLearners

theorem ClusterMemberShip.Of.under {S : Setup} {m : ClusterMemberShip} (h : m.Of S i)
    (hi : i ∈ S.info.nodes.keys) : m.Under S.info where
  selfId_mem := by rwa [h.selfId_eq]
  keys_eq := by rw [h.keys_eq, h.selfId_eq]
  initialRoles_eq := h.initialRoles_eq
  oldMembers_eq := h.oldMembers_eq
  newMembers_eq := h.newMembers_eq
  insyncLearners_eq := h.insyncLearners_eq

namespace ClusterMemberShip.Under

variable {info : ClusterInfo} {m : ClusterMemberShip} (h : m.Under info)
include h

/-- The peers are the other nodes. -/
theorem mem_peers : id ∈ m.peers.keys ↔ id ∈ info.nodes.keys ∧ id ≠ m.selfId := by
  rw [h.keys_eq, Table.mem_keys, Table.mem_keys]
  by_cases hid : id = m.selfId
  · simp [hid]
  · simp [hid, Table.find?_erase_of_ne _ hid]

theorem nodeIds_eq : m.nodeIds = info.nodes.keys := by
  refine IdSet.ext fun id => ?_
  rw [nodeIds, IdSet.mem_insert, h.mem_peers]
  by_cases hid : id = m.selfId
  · rw [hid]
    exact iff_of_true (Or.inl rfl) h.selfId_mem
  · simp [hid]

theorem isJoint_eq : m.isJoint = true ↔
    info.oldJointMembers.isEmpty = false ∧ info.newJointMembers.isEmpty = false := by
  rw [isJoint, h.oldMembers_eq, h.newMembers_eq]
  simp

/-- A role that is looked up is the one of the configuration, and it is found for its nodes. -/
theorem initialRole_sat (id : ℕ) : (m.initialRole id).Sat (fun _ => False)
    (fun role => info.roleOf? id = some role) fun _ => id ∉ info.nodes.keys := by
  rw [initialRole, h.initialRoles_eq, Table.find?_map]
  refine sat_ofOption.mpr ⟨fun role hrole => ?_, fun hnone => ?_⟩
  · exact hrole
  · exact Table.find?_eq_none.mp (Option.map_eq_none_iff.mp hnone)

theorem isLearner_sat (id : ℕ) : (m.isLearner id).Sat (fun _ => False)
    (fun b => b = decide (info.IsLearner id) ∧ id ∈ info.nodes.keys)
    fun _ => id ∉ info.nodes.keys := by
  refine Sat.bind (h.initialRole_sat id) fun role hrole => sat_pure.mpr ⟨?_, ?_⟩
  · simp [ClusterInfo.IsLearner, hrole]
  · exact ClusterInfo.mem_keys_of_roleOf hrole

end ClusterMemberShip.Under

namespace ClusterInfo

variable (info : ClusterInfo)

/-- The sets that an index is looked for in, with the role of those who count. -/
def countedSets : List (RaftRole × IdSet) :=
  if info.oldJointMembers.isEmpty = false ∧ info.newJointMembers.isEmpty = false then
    [(.follower, info.oldJointMembers), (.follower, info.newJointMembers)]
  else if info.insyncLearners.isEmpty then [(.follower, info.nodes.keys)]
  else [(.follower, info.nodes.keys), (.learner, info.insyncLearners)]

/-- Those of a set who count. -/
def counted (x : RaftRole × IdSet) : List ℕ :=
  x.2.elems.filter fun id => info.roleOf? id = some x.1

/-- Node `i` can look for an index in a set: there is somebody who counts, and everybody is found.
Learners are looked for among the peers, so the node must not be one itself. -/
structure CanCount (i : ℕ) (x : RaftRole × IdSet) : Prop where
  mem : ∀ id ∈ x.2, id ∈ info.nodes.keys
  other : x.1 = .learner → ∀ id ∈ info.counted x, id ≠ i
  nonempty : info.counted x ≠ []

/-- Node `i` can look for an index in all sets. -/
def Counts (i : ℕ) : Prop := ∀ x ∈ info.countedSets, info.CanCount i x

/-- More than half of those who count have stored index `i`, as far as the node knows. -/
def StoredIn (n : Gringofts.Node) (i : ℕ) (x : RaftRole × IdSet) : Prop :=
  (info.counted x).length < 2 * (info.counted x).countP fun id => decide (i ≤ n.knownIndex id)

/-- **Index `i` is replicated**, as far as the node knows: more than half of those who count have
stored it, in every set. -/
def Replicated (n : Gringofts.Node) (i : ℕ) : Prop := ∀ x ∈ info.countedSets, info.StoredIn n i x

end ClusterInfo

namespace Node

variable {info : ClusterInfo} {n : Node}

section

variable (h : n.members.Under info)
include h

/-- A member that is not found among the peers is the node itself or not there. -/
theorem eq_selfId_or_not_mem_of_peer? (hnone : n.peer? id = none) :
    id = n.selfId ∨ id ∉ info.nodes.keys := by
  by_cases hid : id = n.selfId
  · exact Or.inl hid
  · exact Or.inr fun hmem => Table.find?_eq_none.mp hnone (h.mem_peers.mpr ⟨hmem, hid⟩)

/-! ## Votes -/

theorem hasVote_sat (id : ℕ) : (n.hasVote id).Sat (fun _ => False) (fun b => b = n.Voted id)
    fun _ => id ∉ info.nodes.keys := by
  rw [hasVote, Voted]
  split
  · next hself => exact sat_pure.mpr (by simp [hself])
  · next hself =>
    refine Sat.bind (R := fun p => n.peer? id = some p) ?_ fun p hp => ?_
    · refine sat_ofOption.mpr ⟨fun _ hp => hp, fun hnone => ?_⟩
      exact (eq_selfId_or_not_mem_of_peer? h hnone).resolve_left (Ne.symm hself)
    · exact sat_pure.mpr (by simp [hself, hp])

theorem countVotes_sat (ids : List ℕ) : (n.countVotes ids).Sat (fun _ => False)
    (fun x => x = (ids.countP fun id => decide (¬ info.IsLearner id) && n.Voted id,
      ids.countP fun id => decide (info.IsLearner id)) ∧ ∀ id ∈ ids, id ∈ info.nodes.keys)
    fun _ => ¬ ∀ id ∈ ids, id ∈ info.nodes.keys := by
  induction ids with
  | nil => exact sat_pure.mpr (by simp)
  | cons id ids ih =>
    rw [List.forall_mem_cons]
    have ih := ih.mono (fun _ hw => hw) (fun _ hx => hx) fun _ => mt fun hall :
      id ∈ info.nodes.keys ∧ ∀ id ∈ ids, id ∈ info.nodes.keys => hall.2
    refine Sat.bind ((h.isLearner_sat id).mono (fun _ hw => hw) (fun _ hb => hb)
      fun _ => mt And.left) fun b hb => ?_
    by_cases hl : info.IsLearner id
    · rw [hb.1, decide_eq_true hl, if_pos rfl]
      refine Sat.bind ih fun x hx => sat_pure.mpr ⟨?_, hb.2, hx.2⟩
      simp [hx.1, hl]
    · rw [hb.1, decide_eq_false hl, if_neg (by simp)]
      refine Sat.bind ((hasVote_sat h id).mono (fun _ hw => hw) (fun _ hv => hv)
        fun _ => mt And.left) fun v hv => ?_
      refine Sat.bind ih fun x hx => sat_pure.mpr ⟨?_, hb.2, hx.2⟩
      cases hvote : n.Voted id <;> simp [hx.1, hv, hl, hvote]

/-- `checkQuorumVoteofInput` asks for a majority of those who are not learners. -/
theorem checkQuorumVoteofInput_sat (q : IdSet) :
    (n.checkQuorumVoteofInput q).Sat (fun _ => False)
      (fun b => b = decide ((info.electorate q).length / 2 < (info.electorate q).countP n.Voted) ∧
        ∀ id ∈ q, id ∈ info.nodes.keys)
      fun _ => ¬ ∀ id ∈ q, id ∈ info.nodes.keys := by
  refine Sat.bind (countVotes_sat h q.elems) fun x hx => sat_pure.mpr ⟨?_, hx.2⟩
  rw [hx.1, info.countP_electorate, info.length_eq_electorate_add, Nat.add_sub_cancel_right]
  rfl

/-- **`checkVotePass`** asks for that majority in every quorum set. When it finds one, it has found
everybody. -/
theorem checkVotePass_sat : n.checkVotePass.Sat (fun _ => False)
    (fun b => b = decide (∀ q ∈ info.quorumSets,
        (info.electorate q).length / 2 < (info.electorate q).countP n.Voted) ∧
      (b = true → ∀ q ∈ info.quorumSets, ∀ id ∈ q, id ∈ info.nodes.keys))
    fun _ => ¬ ∀ q ∈ info.quorumSets, ∀ id ∈ q, id ∈ info.nodes.keys := by
  rw [checkVotePass, ClusterInfo.quorumSets, h.oldMembers_eq, h.newMembers_eq, h.nodeIds_eq]
  by_cases hj : n.members.isJoint = true
  · rw [if_pos hj, if_pos (h.isJoint_eq.mp hj)]
    simp only [List.forall_mem_cons, List.not_mem_nil, false_imp_iff, implies_true, and_true]
    refine Sat.bind ((checkQuorumVoteofInput_sat h _).mono (fun _ hw => hw)
      (fun _ hb => hb) fun _ => mt And.left) fun b hold => ?_
    by_cases hpass : b = true
    · rw [if_pos hpass]
      refine (checkQuorumVoteofInput_sat h _).mono (fun _ hw => hw) (fun b' hnew => ?_)
        fun _ => mt And.right
      rw [hpass] at hold
      refine ⟨?_, fun _ => ⟨hold.2, hnew.2⟩⟩
      rw [hnew.1]
      simp [of_decide_eq_true hold.1.symm]
    · rw [if_neg hpass]
      refine sat_pure.mpr ⟨(decide_eq_false fun hall => hpass ?_).symm, by simp⟩
      rw [hold.1]
      exact decide_eq_true hall.1
  · rw [if_neg hj, if_neg fun hcon => hj (h.isJoint_eq.mpr hcon)]
    simp only [List.forall_mem_cons, List.not_mem_nil, false_imp_iff, implies_true, and_true]
    exact (checkQuorumVoteofInput_sat h _).mono (fun _ hw => hw) (fun b hb => ⟨hb.1, fun _ => hb.2⟩)
      fun _ hnot => hnot

/-- The loop over a set finds what is known of those who count, or there is somebody that it does
not find. -/
theorem collect_counted_sat {r : RaftRole}
    (hvalue : ∀ id, (value id).Sat (fun _ => False) (fun x => x = known id ∧ F id)
      fun _ => ¬ F id) (ids : List ℕ) :
    (n.collect r value ids).Sat (fun _ => False)
      (fun xs => xs = (ids.filter fun id => info.roleOf? id = some r).map known ∧
        ∀ id ∈ ids, id ∈ info.nodes.keys ∧ (info.roleOf? id = some r → F id))
      fun _ => ¬ ∀ id ∈ ids, id ∈ info.nodes.keys ∧ (info.roleOf? id = some r → F id) := by
  induction ids with
  | nil => exact sat_pure.mpr (by simp)
  | cons id ids ih =>
    rw [List.forall_mem_cons]
    refine Sat.bind ((h.initialRole_sat id).mono (fun _ hw => hw) (fun _ hr => hr)
      fun _ hid hall => hid hall.1.1) fun r' hr' => ?_
    have hid : id ∈ info.nodes.keys := ClusterInfo.mem_keys_of_roleOf hr'
    by_cases heq : r' = r
    · subst heq
      rw [if_neg (not_not.mpr rfl)]
      refine Sat.bind ((hvalue id).mono (fun _ hw => hw) (fun _ hx => hx)
        fun _ hnot hall => hnot (hall.1.2 hr')) fun x hx => ?_
      refine Sat.bind (ih.mono (fun _ hw => hw) (fun _ hxs => hxs)
        fun _ hnot hall => hnot hall.2) fun xs hxs => ?_
      refine sat_pure.mpr ⟨?_, ⟨hid, fun _ => hx.2⟩, hxs.2⟩
      rw [List.filter_cons_of_pos (by simpa using hr'), List.map_cons, hx.1, hxs.1]
    · have hrole : ¬ info.roleOf? id = some r := by
        rw [hr']
        exact fun hsome => heq (Option.some.inj hsome)
      rw [if_pos heq]
      refine ih.mono (fun _ hw => hw) (fun xs hxs => ?_) fun _ hnot hall => hnot hall.2
      refine ⟨?_, ⟨hid, fun hsome => absurd hsome hrole⟩, hxs.2⟩
      rw [List.filter_cons_of_neg (by simpa using hrole), hxs.1]

omit h in
theorem middle_sat (xs : List ℕ) : (middle xs).Sat (fun _ => False)
    (fun m => xs ≠ [] ∧ ∀ i, i ≤ m ↔ xs.length < 2 * xs.countP fun x => decide (i ≤ x))
    fun _ => xs = [] := by
  refine sat_ofOption.mpr ⟨fun m hm => ⟨?_, fun i => ?_⟩, fun hnone => ?_⟩
  · rintro rfl
    cases hm
  · rw [← length_lt_countP_iff_le_middle hm]
    omega
  · by_contra hne
    obtain ⟨m, hm, -⟩ := exists_middle hne
    rw [hm] at hnone
    cases hnone

/-- The number in the middle is the largest that more than half of those who count reach. -/
theorem middle_counted_sat {x : RaftRole × IdSet}
    (hvalue : ∀ id, (value id).Sat (fun _ => False) (fun x => x = known id ∧ F id)
      fun _ => ¬ F id) (hfound : ∀ id ∈ info.nodes.keys, F id ↔ (x.1 = .learner → id ≠ n.selfId)) :
    (n.collect x.1 value x.2.elems >>= middle).Sat (fun _ => False)
      (fun m => info.CanCount n.selfId x ∧ ∀ i, i ≤ m ↔ (info.counted x).length <
        2 * (info.counted x).countP fun id => decide (i ≤ known id))
      fun _ => ¬ info.CanCount n.selfId x := by
  refine Sat.bind ((collect_counted_sat h hvalue x.2.elems).mono (fun _ hw => hw)
    (fun _ hxs => hxs) fun _ hnot hcan => hnot fun id hid => ?_) ?_
  · refine ⟨hcan.mem id hid, fun hrole => (hfound id (hcan.mem id hid)).mpr fun hlearner => ?_⟩
    exact hcan.other hlearner id (List.mem_filter.mpr ⟨hid, by simpa using hrole⟩)
  · rintro _ ⟨rfl, hall⟩
    refine (middle_sat _).mono (fun _ hw => hw) (fun m hm => ⟨⟨?_, ?_, ?_⟩, fun i => ?_⟩) ?_
    · exact fun id hid => (hall id hid).1
    · intro hlearner id hid
      obtain ⟨hmem, hrole⟩ := List.mem_filter.mp hid
      exact (hfound id (hall id hmem).1).mp ((hall id hmem).2 (by simpa using hrole)) hlearner
    · exact fun hnil => hm.1 (List.map_eq_nil_iff.mpr hnil)
    · rw [hm.2 i, List.length_map, List.countP_map]
      rfl
    · exact fun _ hnil hcan => hcan.nonempty (List.map_eq_nil_iff.mp hnil)

/-- The middle of what the voters contribute. -/
theorem middle_voters_sat (own : ℕ) (value : Peer → ℕ) (q : IdSet) :
    (n.collect .follower (n.contribution own value) q.elems >>= middle).Sat (fun _ => False)
      (fun m => info.CanCount n.selfId (.follower, q) ∧ ∀ i, i ≤ m ↔
        (info.counted (.follower, q)).length < 2 * (info.counted (.follower, q)).countP fun id =>
          decide (i ≤ if n.selfId = id then own else ((n.peer? id).map value).getD 0))
      fun _ => ¬ info.CanCount n.selfId (.follower, q) := by
  refine middle_counted_sat (x := (.follower, q))
    (F := fun id => n.selfId = id ∨ ∃ p, n.peer? id = some p) h (fun id => ?_) fun id hid => ?_
  · rw [contribution]
    split
    · next hself => exact sat_pure.mpr ⟨rfl, Or.inl hself⟩
    · next hself =>
      refine Sat.bind (R := fun p => n.peer? id = some p) ?_ fun p hp => ?_
      · refine sat_ofOption.mpr ⟨fun _ hp => hp, fun hnone => ?_⟩
        rintro (heq | ⟨p, hp⟩)
        · exact hself heq
        · rw [hnone] at hp
          cases hp
      · exact sat_pure.mpr ⟨by simp [hp], Or.inr ⟨p, hp⟩⟩
  · refine iff_of_true ?_ fun hlearner => by cases hlearner
    by_cases hself : n.selfId = id
    · exact Or.inl hself
    · exact Or.inr (Table.mem_keys.mp (h.mem_peers.mpr ⟨hid, Ne.symm hself⟩))

theorem getMajorityIndexofVoters_sat (q : IdSet) :
    (n.getMajorityIndexofVoters q).Sat (fun _ => False)
      (fun m => info.CanCount n.selfId (.follower, q) ∧
        ∀ i, i ≤ m ↔ info.StoredIn n i (.follower, q))
      fun _ => ¬ info.CanCount n.selfId (.follower, q) :=
  middle_voters_sat h n.log.lastIndex Peer.matchIndex q

theorem getMajorityTimeElapseofInput_sat (clk : Clock) (q : IdSet) :
    (n.getMajorityTimeElapseofInput clk q).Sat (fun _ => False)
      (fun _ => info.CanCount n.selfId (.follower, q))
      fun _ => ¬ info.CanCount n.selfId (.follower, q) := by
  have hmiddle := middle_voters_sat h clk.now Peer.lastResponseTime q
  rw [sat_bind] at hmiddle
  exact hmiddle.bind fun xs hxs => hxs.bind fun t ht => sat_pure.mpr ht.1

/-- The time is found if there is a voter to be found in every quorum set. -/
theorem getMajorityTimeElapse_sat (clk : Clock) :
    (n.getMajorityTimeElapse clk).Sat (fun _ => False)
      (fun _ => ∀ q ∈ info.quorumSets, info.CanCount n.selfId (.follower, q))
      fun _ => ¬ ∀ q ∈ info.quorumSets, info.CanCount n.selfId (.follower, q) := by
  rw [getMajorityTimeElapse, ClusterInfo.quorumSets, h.oldMembers_eq, h.newMembers_eq, h.nodeIds_eq]
  by_cases hj : n.members.isJoint = true
  · rw [if_pos hj, if_pos (h.isJoint_eq.mp hj)]
    simp only [List.forall_mem_cons, List.not_mem_nil, false_imp_iff, implies_true, and_true]
    refine Sat.bind ((getMajorityTimeElapseofInput_sat h clk _).mono (fun _ hw => hw)
      (fun _ ht => ht) fun _ => mt And.left) fun old hold => ?_
    exact Sat.bind ((getMajorityTimeElapseofInput_sat h clk _).mono (fun _ hw => hw)
      (fun _ ht => ht) fun _ => mt And.right) fun new hnew => sat_pure.mpr ⟨hold, hnew⟩
  · rw [if_neg hj, if_neg fun hcon => hj (h.isJoint_eq.mpr hcon)]
    simp only [List.forall_mem_cons, List.not_mem_nil, false_imp_iff, implies_true, and_true]
    exact getMajorityTimeElapseofInput_sat h clk _

theorem getMajorityIndexofLearners_sat_counts (q : IdSet) :
    (n.getMajorityIndexofLearners q).Sat (fun _ => False)
      (fun m => info.CanCount n.selfId (.learner, q) ∧
        ∀ i, i ≤ m ↔ info.StoredIn n i (.learner, q))
      fun _ => ¬ info.CanCount n.selfId (.learner, q) := by
  refine middle_counted_sat (x := (.learner, q)) (F := fun id => ∃ p, n.peer? id = some p) h
    (fun id => ?_) fun id hid => ?_
  · refine Sat.bind (R := fun p => n.peer? id = some p) ?_ fun p hp => ?_
    · refine sat_ofOption.mpr ⟨fun _ hp => hp, fun hnone => ?_⟩
      rintro ⟨p, hp⟩
      rw [hnone] at hp
      cases hp
    · -- a peer is not the node itself
      have hne : ¬ n.selfId = id :=
        fun heq => (h.mem_peers.mp (Table.mem_keys.mpr ⟨p, hp⟩)).2 heq.symm
      exact sat_pure.mpr ⟨by simp [knownIndex, hne, hp], p, hp⟩
  · constructor
    · rintro ⟨p, hp⟩ -
      exact (h.mem_peers.mp (Table.mem_keys.mpr ⟨p, hp⟩)).2
    · exact fun hne => Table.mem_keys.mp (h.mem_peers.mpr ⟨hid, hne rfl⟩)

/-- **The majority index** bounds exactly the indices that are replicated. -/
theorem getMajorityIndex_sat_counts : n.getMajorityIndex.Sat (fun _ => False)
    (fun m => info.Counts n.selfId ∧ ∀ i, i ≤ m ↔ info.Replicated n i)
    fun _ => ¬ info.Counts n.selfId := by
  simp only [ClusterInfo.Counts, ClusterInfo.Replicated]
  rw [getMajorityIndex, ClusterInfo.countedSets, h.oldMembers_eq, h.newMembers_eq,
    h.insyncLearners_eq, h.nodeIds_eq]
  by_cases hj : n.members.isJoint = true
  · rw [if_pos hj, if_pos (h.isJoint_eq.mp hj)]
    simp only [List.forall_mem_cons, List.not_mem_nil, false_imp_iff, implies_true, and_true]
    refine Sat.bind ((getMajorityIndexofVoters_sat h _).mono (fun _ hw => hw)
      (fun _ hm => hm) fun _ hnot hcan => hnot hcan.1) fun old hold => ?_
    refine Sat.bind ((getMajorityIndexofVoters_sat h _).mono (fun _ hw => hw)
      (fun _ hm => hm) fun _ hnot hcan => hnot hcan.2) fun new hnew => ?_
    refine sat_pure.mpr ⟨⟨hold.1, hnew.1⟩, fun i => ?_⟩
    rw [Nat.le_min, hold.2, hnew.2]
  · rw [if_neg hj, if_neg fun hcon => hj (h.isJoint_eq.mpr hcon)]
    split
    · simp only [List.forall_mem_cons, List.not_mem_nil, false_imp_iff, implies_true, and_true]
      exact getMajorityIndexofVoters_sat h _
    · simp only [List.forall_mem_cons, List.not_mem_nil, false_imp_iff, implies_true, and_true]
      refine Sat.bind ((getMajorityIndexofVoters_sat h _).mono (fun _ hw => hw)
        (fun _ hm => hm) fun _ hnot hcan => hnot hcan.1) fun voters hvoters => ?_
      refine Sat.bind ((getMajorityIndexofLearners_sat_counts h _).mono (fun _ hw => hw)
        (fun _ hm => hm) fun _ hnot hcan => hnot hcan.2) fun learners hlearners => ?_
      refine sat_pure.mpr ⟨⟨hvoters.1, hlearners.1⟩, fun i => ?_⟩
      rw [Nat.le_min, hvoters.2, hlearners.2]

end

end Node

namespace ClusterInfo

variable {info : ClusterInfo} {n : Gringofts.Node} {m : ℕ}

/-- The voters of a quorum set count. -/
theorem mem_countedSets (info : ClusterInfo) {q : IdSet} (hq : q ∈ info.quorumSets) :
    (RaftRole.follower, q) ∈ info.countedSets := by
  rw [quorumSets] at hq
  rw [countedSets]
  split at hq
  · next hjoint =>
    rw [if_pos hjoint]
    simpa using hq
  · next hjoint =>
    obtain rfl := List.mem_singleton.mp hq
    rw [if_neg hjoint]
    split <;> exact List.mem_cons_self

/-- An index that is replicated has a majority of the voters in every quorum set. -/
theorem Replicated.majority (h : info.Replicated n m) : ∀ q ∈ info.quorumSets,
    (info.voters q).length / 2 <
      (info.voters q).countP fun id => decide (m ≤ n.knownIndex id) := by
  intro q hq
  have hcounted := info.mem_countedSets hq
  have hstored : (info.voters q).length <
      2 * (info.voters q).countP fun id => decide (m ≤ n.knownIndex id) := h _ hcounted
  omega

/-- The largest index that is replicated is one of the known indices. -/
theorem Counts.exists_knownIndex (h : info.Counts i) (hlargest : ∀ j, j ≤ m ↔ info.Replicated n j) :
    ∃ id ∈ info.nodes.keys, m = n.knownIndex id := by
  by_contra hnone
  -- otherwise everybody who has come as far has come further
  have hfurther : info.Replicated n (m + 1) := by
    intro x hx
    refine Nat.lt_of_lt_of_le ((hlargest m).mp (Nat.le_refl m) x hx) (Nat.mul_le_mul_left 2 ?_)
    refine List.countP_mono_left fun id hid hle => ?_
    have hmem := (h x hx).mem id (List.mem_filter.mp hid).1
    have hne : m ≠ n.knownIndex id := fun heq => hnone ⟨id, hmem, heq⟩
    exact decide_eq_true (Nat.lt_of_le_of_ne (of_decide_eq_true hle) hne)
  exact Nat.not_succ_le_self m ((hlargest (m + 1)).mpr hfurther)

end ClusterInfo

/-! ## The fixed configuration -/

namespace Node

variable {S : Setup} {i : ℕ} {n : Node} (h : n.members.Of S i)
include h

/-- Under a well-formed configuration the votes can be counted. -/
theorem checkVotePass_eq (hi : i ∈ S.info.nodes.keys) :
    n.checkVotePass = pure (decide (∀ q ∈ S.info.quorumSets,
      (S.info.electorate q).length / 2 < (S.info.electorate q).countP n.Voted)) := by
  exact Sat.eq_pure ((checkVotePass_sat (h.under hi)).mono (fun _ hw => hw)
    (fun _ hb => hb.1) fun _ hnot => hnot fun _ hq _ hid => S.wellFormed.mem_keys hq hid)

/-- **The majority index** is one of the known indices, and in every quorum set a majority of
the voters is known to have come as far. -/
theorem getMajorityIndex_sat (hi : i ∈ S.info.nodes.keys) :
    n.getMajorityIndex.Sat (fun _ => False)
      (fun m => (∃ id ∈ S.info.nodes.keys, m = n.knownIndex id) ∧
        ∀ q ∈ S.info.quorumSets, (S.info.voters q).length / 2 <
          (S.info.voters q).countP fun id => decide (m ≤ n.knownIndex id))
      fun _ => True := by
  refine (getMajorityIndex_sat_counts (h.under hi)).mono (fun _ hw => hw) ?_ fun _ _ => trivial
  rintro m ⟨hcounts, hlargest⟩
  exact ⟨hcounts.exists_knownIndex hlargest, ((hlargest m).mp (Nat.le_refl m)).majority⟩

end Node

end Gringofts
