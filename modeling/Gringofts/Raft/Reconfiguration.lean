import Gringofts.Raft.Overlap

/-!
# What an accepted reconfiguration leaves

A reconfigure request lists its members; the configuration made of it is a table with the ids as
keys. The checks walk the list and compare addresses, so what they establish is a statement about
members. It carries over to the nodes of the configuration as far as the members that are kept go:
of two members with one id the table has the later one, and the checks have seen both. And the role
is a number that need not have a name; a node with such a role is a voter, and no check sees it.

When a node switches, what it knows of its peers is carried over by id. The record that is copied
has the old address in it, while the client was made for the new one.

## Main definitions

* `ReconfigureRequest.Keeps` — the members that are kept are the right ones
* `ClusterInfo.JointVoters`, `ClusterInfo.InsyncLearner` — there is somebody to count
* `Node.Tracks` — the peers are those of a configuration

## Main results

* `accepted_keeps_voters_iff`, `accepted_loses_voter`
* `quorums_defined_iff`, `empty_quorum_indexed`
* `reconfiguration_carries_progress_iff`, `reconfiguration_carries_to_stranger`
-/

namespace Gringofts

open Outcome Scenario Node ClusterConfiguration

/-! ## The nodes of an accepted configuration -/

/-- **What a request must not do.** The member that is kept for the id of a voter has the voter's
address, one that is kept and new has a role with a name, and one that is kept for the id of an
in-sync learner is a learner. -/
structure ReconfigureRequest.Keeps (r : ReconfigureRequest) (c : ClusterInfo) : Prop where
  voter : ∀ id node, c.nodes.find? id = some node → c.IsVoter id →
    ∃ m, r.configuration.memberOf? id = some m ∧ m.raftAddress = node.address
  named : ∀ id m number, r.configuration.memberOf? id = some m →
    c.idAt m.raftAddress = none → m.role ≠ .unnamed number
  insync : ∀ id ∈ r.configuration.inSyncLearners,
    ∃ m, r.configuration.memberOf? id = some m ∧ m.role = .learner

theorem InitialRaftRole.toRaftRole_eq_learner {role : InitialRaftRole} :
    role.toRaftRole = .learner ↔ role = .learner := by
  cases role <;> simp [toRaftRole]

theorem InitialRaftRole.toRaftRole_eq_follower {role : InitialRaftRole} :
    role.toRaftRole = .follower ↔ role = .voter ∨ ∃ number, role = .unnamed number := by
  cases role <;> simp [toRaftRole]

theorem ClusterConfiguration.roleOf_syncFromProto (c : ClusterConfiguration) (id : ℕ) :
    c.syncFromProto.roleOf? id = (c.memberOf? id).map fun m => m.role.toRaftRole := by
  rw [ClusterInfo.roleOf?, find?_syncFromProto_eq, Option.map_map]
  rfl

/-- **An accepted reconfiguration keeps the voters** exactly if the members it keeps are the right
ones: every voter is still there with its id and its address, new nodes are no voters, joint members
are nodes and in-sync learners are learners. -/
theorem accepted_keeps_voters_iff {r : ReconfigureRequest} {c c' : ClusterInfo}
    (h : r.Accepted c c') :
    ((∀ id node, c.nodes.find? id = some node → c.IsVoter id →
        ∃ node', c'.nodes.find? id = some node' ∧ node'.address = node.address) ∧
      (∀ id node, c'.nodes.find? id = some node →
        (∀ id' node', c.nodes.find? id' = some node' → node'.address ≠ node.address) →
        ¬ c'.IsVoter id) ∧
      (∀ id, id ∈ c'.oldJointMembers ∨ id ∈ c'.newJointMembers → id ∈ c'.nodes.keys) ∧
      ∀ id ∈ c'.insyncLearners, c'.roleOf? id = some .learner) ↔
    r.Keeps c := by
  have hjoint : ∀ id, id ∈ c'.oldJointMembers ∨ id ∈ c'.newJointMembers → id ∈ c'.nodes.keys :=
    fun _ => h.joint_mem
  obtain ⟨-, hchecks, rfl⟩ := h.checked
  constructor
  · rintro ⟨hvoters, hnew, -, hinsync⟩
    refine ⟨fun id node hnode hvoter => ?_, fun id m number hm hnone hrole => ?_, fun id hid => ?_⟩
    · obtain ⟨node', hnode', haddress⟩ := hvoters id node hnode hvoter
      rw [find?_syncFromProto_eq] at hnode'
      obtain ⟨m, hm, rfl⟩ := Option.map_eq_some_iff.mp hnode'
      exact ⟨m, hm, haddress⟩
    · refine hnew id m.toNode ?_ (ClusterInfo.idAt_eq_none.mp hnone) ?_
      · rw [find?_syncFromProto_eq, hm, Option.map_some]
      · rw [ClusterInfo.IsVoter, roleOf_syncFromProto, hm, Option.map_some,
          hrole]
        rfl
    · have hrole := hinsync id (mem_idsOf.mpr hid)
      rw [roleOf_syncFromProto] at hrole
      obtain ⟨m, hm, hlearner⟩ := Option.map_eq_some_iff.mp hrole
      exact ⟨m, hm, InitialRaftRole.toRaftRole_eq_learner.mp hlearner⟩
  · intro hkeeps
    refine ⟨fun id node hnode hvoter => ?_, fun id node hnode hnew hvoter => ?_, hjoint,
      fun id hid => ?_⟩
    · obtain ⟨m, hm, haddress⟩ := hkeeps.voter id node hnode hvoter
      refine ⟨m.toNode, ?_, haddress⟩
      rw [find?_syncFromProto_eq, hm, Option.map_some]
    · rw [find?_syncFromProto_eq] at hnode
      obtain ⟨m, hm, rfl⟩ := Option.map_eq_some_iff.mp hnode
      rw [ClusterInfo.IsVoter, roleOf_syncFromProto, hm, Option.map_some,
        Option.some_inj, InitialRaftRole.toRaftRole_eq_follower] at hvoter
      have hnone := ClusterInfo.idAt_eq_none.mpr hnew
      rcases hvoter with hrole | ⟨number, hrole⟩
      · exact hchecks.new_not_voter m (mem_of_memberOf hm).1 hnone hrole
      · exact hkeeps.named id m number hm hnone hrole
    · obtain ⟨m, hm, hrole⟩ := hkeeps.insync id (mem_idsOf.mp hid)
      rw [roleOf_syncFromProto, hm, Option.map_some, hrole]
      rfl

namespace Scenario

/-- A request that gives the id of a voter to a new learner as well. -/
def replacement : ReconfigureRequest :=
  ⟨1, ⟨0, [⟨1, "a", 1, .voter⟩, ⟨2, "b", 1, .voter⟩, ⟨3, "c", 1, .voter⟩,
    ⟨3, "x", 1, .learner⟩], [], [], []⟩⟩

end Scenario

/-- **A voter is lost.** The request that lists the id `3` twice is accepted, since the address of
the voter is among those of the request. The configuration has the learner in its place. -/
theorem accepted_loses_voter :
    ∃ (r : ReconfigureRequest) (c c' : ClusterInfo) (node : ClusterInfo.Node),
      (∃ id, c.IsVoter id) ∧ r.Accepted c c' ∧ c.nodes.find? 3 = some node ∧
      node.initialRole = .voter ∧
      (∀ id node', c'.nodes.find? id = some node' → node'.address ≠ node.address) ∧
      c'.roleOf? 3 = some .learner := by
  have haccepted : replacement.Accepted threeVoters.info
      replacement.configuration.syncFromProto :=
    ⟨⟨0, by decide +kernel⟩, 0, 0, threeVoters.info, _, _, rfl, rfl, rfl⟩
  refine ⟨_, _, _, ⟨"c", 1, .voter⟩, ⟨1, by decide +kernel⟩, haccepted, rfl, rfl, ?_,
    by decide +kernel⟩
  have hrows : ∀ row ∈ replacement.configuration.syncFromProto.nodes.rows,
      row.2.address ≠ ClusterInfo.Node.address ⟨"c", 1, .voter⟩ := by decide +kernel
  intro id node' hnode'
  exact hrows (id, node') (Table.mem_rows.mpr hnode')

theorem accepted_keeps_voters_iff_addition :
    ∃ c', addition.Accepted threeVoters.info c' ∧
      ∀ id node, threeVoters.info.nodes.find? id = some node →
        threeVoters.info.IsVoter id →
        ∃ node', c'.nodes.find? id = some node' ∧ node'.address = node.address := by
  have haccepted : addition.Accepted threeVoters.info
      addition.configuration.syncFromProto :=
    ⟨⟨0, by decide +kernel⟩, 0, 0, threeVoters.info, _, _, rfl, rfl, rfl⟩
  have hrows : ∀ row ∈ threeVoters.info.nodes.rows,
      (addition.configuration.memberOf? row.1).map Member.raftAddress =
        some row.2.address := by decide +kernel
  have hroles : ∀ m ∈ addition.configuration.members,
      m.role = .voter ∨ m.role = .learner := by decide +kernel
  refine ⟨_, haccepted, ((accepted_keeps_voters_iff haccepted).mpr ⟨?_, ?_, nofun⟩).1⟩
  · intro id node hnode _
    exact Option.map_eq_some_iff.mp (hrows (id, node) (Table.mem_rows.mpr hnode))
  · intro id m number hm _ hrole
    rcases hroles m (mem_of_memberOf hm).1 with hrole' | hrole'
    · rw [hrole] at hrole'
      cases hrole'
    · rw [hrole] at hrole'
      cases hrole'

/-! ## Switching -/

namespace Node

variable {n m : Node} {clk : Clock} {info : ClusterInfo} {selfId : ℕ} {self : ClusterInfo.Node}

/-- The membership of a node after a switch. -/
def switchedMembers (clk : Clock) (n : Node) (info : ClusterInfo) (selfId : ℕ)
    (self : ClusterInfo.Node) : ClusterMemberShip :=
  { info.memberShip selfId self with peers := n.inheritPeers clk (info.memberShip selfId self) }

theorem switchedRole_voter (hself : info.nodes.find? selfId = some self) :
    (n.switchedRole (info.memberShip selfId self)).Sat (fun _ => True)
      (fun role => role = .leader → info.IsVoter selfId) fun _ => False := by
  have hrole : (info.memberShip selfId self).initialRole (info.memberShip selfId self).selfId =
      pure self.initialRole.toRaftRole := by
    rw [ClusterMemberShip.initialRole, ClusterInfo.memberShip, Table.find?_map, hself]
    rfl
  rw [switchedRole, ClusterMemberShip.isLearner, ClusterMemberShip.isPreFollower, hrole,
    ClusterInfo.IsVoter, ClusterInfo.roleOf?, hself, Option.map_some]
  cases self.initialRole <;> by_cases hl : n.role = .leader <;>
    simp [InitialRaftRole.toRaftRole, hl, sat_pure]

/-- **A reconfiguration** that knows the node fails no assertion. The node has the new membership,
with what it knew of the peers, and only a voter still leads. -/
theorem handleReconfigureRequest_sat (clk : Clock) (hsyncer : n.role ≠ .syncer)
    (hself : info.nodes.find? selfId = some self) (hpos : selfId ≠ 0) :
    (n.handleReconfigureRequest clk selfId info).Sat (fun _ => True)
      (fun m => m.members = n.switchedMembers clk info selfId self ∧
        (m.role = .leader → info.IsVoter selfId)) fun _ => False := by
  rw [handleReconfigureRequest, if_neg hsyncer, initClusterConf_eq hself hpos, pure_bind,
    configurationSwitch]
  refine sat_check_bind (absurd hpos) fun _ => ?_
  refine (switchedRole_voter hself).bind fun role hrole => sat_pure.mpr ?_
  split
  · exact ⟨rfl, hrole⟩
  · exact ⟨rfl, hrole⟩

/-- A reconfiguration that returns has found the node in the configuration. -/
theorem exists_of_handleReconfigureRequest (hsyncer : n.role ≠ .syncer)
    (h : (n.handleReconfigureRequest clk selfId info).result = .ok m) :
    selfId ≠ 0 ∧ ∃ self, info.nodes.find? selfId = some self := by
  have hfound : (n.handleReconfigureRequest clk selfId info).Sat (fun _ => True)
      (fun _ => selfId ≠ 0 ∧ ∃ self, info.nodes.find? selfId = some self) fun _ => True := by
    rw [handleReconfigureRequest, if_neg hsyncer]
    refine Sat.bind
      (R := fun _ => selfId ≠ 0 ∧ ∃ self, info.nodes.find? selfId = some self)
      ?_ fun _ hself => (sat_trivial _).imp fun _ _ => hself
    refine Sat.bind (R := fun self => info.nodes.find? selfId = some self)
      (sat_ofOption.mpr ⟨fun _ => id, fun _ => trivial⟩) fun self hself => ?_
    exact sat_check_bind (fun _ => trivial) fun hpos =>
      sat_pure.mpr ⟨hpos, self, hself⟩
  exact hfound.of_result h

theorem under_switched (hm : m.members = n.switchedMembers clk info selfId self)
    (hself : info.nodes.find? selfId = some self) : m.members.Under info := by
  rw [hm]
  constructor
  · exact Table.mem_keys.mpr ⟨self, hself⟩
  · rw [switchedMembers, inheritPeers, ClusterInfo.memberShip, Table.keys_map, Table.keys_map]
  · rfl
  · rfl
  · rfl
  · rfl

end Node

/-! ## Quorums after a switch -/

namespace ClusterInfo

variable {info : ClusterInfo} {i : ℕ}

/-- There is a voter on each side of a joint configuration. -/
def JointVoters (info : ClusterInfo) : Prop :=
  info.oldJointMembers.isEmpty = false → info.newJointMembers.isEmpty = false →
    (∃ id ∈ info.oldJointMembers, info.IsVoter id) ∧ ∃ id ∈ info.newJointMembers, info.IsVoter id

/-- Without joint members, one of the in-sync learners is a learner, if there are any. -/
def InsyncLearner (info : ClusterInfo) : Prop :=
  info.oldJointMembers.isEmpty = true ∨ info.newJointMembers.isEmpty = true →
    info.insyncLearners.isEmpty = false → ∃ id ∈ info.insyncLearners, info.IsLearner id

/-- A set of nodes can be counted if one of them counts. -/
theorem canCount_iff {x : RaftRole × IdSet} (hmem : ∀ id ∈ x.2, id ∈ info.nodes.keys)
    (hi : info.IsVoter i) : info.CanCount i x ↔ ∃ id ∈ x.2, info.roleOf? id = some x.1 := by
  constructor
  · intro h
    obtain ⟨id, hid⟩ := List.exists_mem_of_ne_nil _ h.nonempty
    obtain ⟨hin, hrole⟩ := List.mem_filter.mp hid
    exact ⟨id, hin, of_decide_eq_true hrole⟩
  · rintro ⟨id, hid, hrole⟩
    refine ⟨hmem, fun hlearner id' hid' heq => ?_, ?_⟩
    · have hrole' : info.roleOf? id' = some x.1 := of_decide_eq_true (List.mem_filter.mp hid').2
      rw [hlearner, heq, hi] at hrole'
      cases hrole'
    · exact List.ne_nil_of_mem (List.mem_filter.mpr ⟨hid, decide_eq_true hrole⟩)

/-- When a voter can look for an index in all sets. -/
theorem counts_iff (hmem : ∀ q ∈ info.quorumSets, ∀ id ∈ q, id ∈ info.nodes.keys)
    (hinsync : ∀ id ∈ info.insyncLearners, id ∈ info.nodes.keys) (hi : info.IsVoter i) :
    info.Counts i ↔ info.JointVoters ∧ info.InsyncLearner := by
  rw [quorumSets] at hmem
  rw [Counts, countedSets, JointVoters, InsyncLearner]
  by_cases hj : info.oldJointMembers.isEmpty = false ∧ info.newJointMembers.isEmpty = false
  · rw [if_pos hj] at hmem ⊢
    have hold := hmem _ List.mem_cons_self
    have hnew := hmem _ (List.mem_cons_of_mem _ List.mem_cons_self)
    simp only [List.forall_mem_cons, List.not_mem_nil, false_imp_iff, implies_true, and_true,
      canCount_iff (x := (.follower, _)) hold hi, canCount_iff (x := (.follower, _)) hnew hi]
    simp [hj, IsVoter]
  · rw [if_neg hj] at hmem ⊢
    have hall := hmem _ List.mem_cons_self
    have hvoter : info.CanCount i (.follower, info.nodes.keys) :=
      (canCount_iff hall hi).mpr ⟨i, mem_keys_of_roleOf hi, hi⟩
    have hnot : info.oldJointMembers.isEmpty = true ∨ info.newJointMembers.isEmpty = true := by
      cases hold : info.oldJointMembers.isEmpty <;> cases hnew : info.newJointMembers.isEmpty <;>
        simp_all
    rw [and_iff_right fun ho hn => absurd ⟨ho, hn⟩ hj, forall_prop_of_true hnot]
    split
    · next hempty => simp [hvoter, hempty]
    · next hempty =>
      rw [forall_prop_of_true (Bool.eq_false_iff.mpr hempty)]
      simp only [List.forall_mem_cons, List.not_mem_nil, false_imp_iff, implies_true, and_true,
        canCount_iff (x := (.learner, _)) hinsync hi, and_iff_right hvoter]
      rfl

end ClusterInfo

/-- **Quorums are defined** exactly if there is somebody to count. A node that still leads after it
has switched to an accepted configuration computes its majority index, its majority time and the
votes without a failure, if and only if there is a voter on each side of a joint configuration, and
without joint members a learner among the in-sync learners. -/
theorem quorums_defined_iff {r : ReconfigureRequest} {c c' : ClusterInfo} (h : r.Accepted c c')
    {clk : Clock} {n m : Node} {selfId : ℕ}
    (hswitch : (n.handleReconfigureRequest clk selfId c').result = .ok m)
    (hleads : m.role = .leader) :
    ((∃ index, m.getMajorityIndex.result = .ok index) ∧
      (∀ clk', ∃ time, (m.getMajorityTimeElapse clk').result = .ok time) ∧
      ∃ pass, m.checkVotePass.result = .ok pass) ↔
    c'.JointVoters ∧ c'.InsyncLearner := by
  have hsyncer : n.role ≠ .syncer := by
    intro hrole
    rw [handleReconfigureRequest, if_pos hrole] at hswitch
    cases hswitch
    rw [hrole] at hleads
    cases hleads
  obtain ⟨hpos, self, hself⟩ := exists_of_handleReconfigureRequest hsyncer hswitch
  obtain ⟨hm, hvoter⟩ :=
    (handleReconfigureRequest_sat clk hsyncer hself hpos).of_result hswitch
  have hunder := under_switched hm hself
  have hid : m.selfId = selfId := by
    show m.members.selfId = selfId
    rw [hm]
    rfl
  have hmem : ∀ q ∈ c'.quorumSets, ∀ id ∈ q, id ∈ c'.nodes.keys := fun _ hq _ => h.mem_keys hq
  rw [← ClusterInfo.counts_iff hmem (fun _ => h.insync_mem) (hvoter hleads), ← hid]
  constructor
  · rintro ⟨⟨index, hindex⟩, -⟩
    exact ((getMajorityIndex_sat_counts hunder).of_result hindex).1
  · intro hcounts
    refine ⟨?_, fun clk' => ?_, ?_⟩
    · obtain ⟨index, hindex, -⟩ := ((getMajorityIndex_sat_counts hunder).mono
        (fun _ hw => hw) (fun _ hm => hm) fun _ hnot => hnot hcounts).exists_result
      exact ⟨index, hindex⟩
    · obtain ⟨time, htime, -⟩ := ((getMajorityTimeElapse_sat hunder clk').mono
        (fun _ hw => hw) (fun _ ht => ht) fun _ hnot =>
          hnot fun q hq => hcounts _ (c'.mem_countedSets hq)).exists_result
      exact ⟨time, htime⟩
    · obtain ⟨pass, hpass, -⟩ := ((checkVotePass_sat hunder).mono
        (fun _ hw => hw) (fun _ hb => hb) fun _ hnot => hnot hmem).exists_result
      exact ⟨pass, hpass⟩

namespace Scenario

/-- A request that makes a learner the only new member of a joint configuration. -/
def handover : ReconfigureRequest :=
  ⟨1, ⟨0, [⟨1, "a", 1, .voter⟩, ⟨2, "b", 1, .voter⟩, ⟨3, "c", 1, .voter⟩,
    ⟨4, "d", 1, .learner⟩], [1, 2, 3], [4], []⟩⟩

/-- A request for a joint configuration of the voters `1`, `2` and of `2`, `3`. -/
def jointVoters : ReconfigureRequest :=
  ⟨1, ⟨0, [⟨1, "a", 1, .voter⟩, ⟨2, "b", 1, .voter⟩, ⟨3, "c", 1, .voter⟩], [1, 2], [2, 3], []⟩⟩

/-- Node `1` of three voters, which leads. -/
def leader : Node := leading threeVoters.info 1 [2]

end Scenario

/-- **An empty vector is indexed.** The request for a joint configuration whose new side is one
learner is accepted. The leader switches and leads on, and looks for the middle of no value at
all. -/
theorem empty_quorum_indexed :
    ∃ (r : ReconfigureRequest) (c c' : ClusterInfo) (m : Node), (∃ id, c.IsVoter id) ∧
      r.Accepted c c' ∧
      (leader.handleReconfigureRequest ⟨9, 1⟩ 1 c').result = .ok m ∧
      m.role = .leader ∧ m.getMajorityIndex.error? = some .emptyQuorum ∧
      (m.getMajorityTimeElapse ⟨10, 1⟩).error? = some .emptyQuorum := by
  have haccepted : handover.Accepted threeVoters.info
      handover.configuration.syncFromProto :=
    ⟨⟨0, by decide +kernel⟩, 0, 0, threeVoters.info, _, _, rfl, rfl, rfl⟩
  exact ⟨_, _, _, _, ⟨1, by decide +kernel⟩, haccepted, rfl, rfl, by decide +kernel,
    by decide +kernel⟩

theorem quorums_defined_iff_joint :
    ∃ (c' : ClusterInfo) (m : Node), jointVoters.Accepted threeVoters.info c' ∧
      m.members.isJoint = true ∧
      (leader.handleReconfigureRequest ⟨9, 1⟩ 1 c').result = .ok m ∧
      m.role = .leader ∧ ∃ index, m.getMajorityIndex.result = .ok index := by
  have haccepted : jointVoters.Accepted threeVoters.info
      jointVoters.configuration.syncFromProto :=
    ⟨⟨0, by decide +kernel⟩, 0, 0, threeVoters.info, _, _, rfl, rfl, rfl⟩
  have hvoters : jointVoters.configuration.syncFromProto.JointVoters := fun _ _ =>
    ⟨⟨1, by decide +kernel, by decide +kernel⟩, 2, by decide +kernel, by decide +kernel⟩
  have hinsync : jointVoters.configuration.syncFromProto.InsyncLearner :=
    fun _ hempty => by cases hempty
  have hres : (leader.handleReconfigureRequest ⟨9, 1⟩ 1
      jointVoters.configuration.syncFromProto).result = .ok _ := rfl
  exact ⟨_, _, haccepted, rfl, hres, rfl,
    ((quorums_defined_iff haccepted hres rfl).mpr ⟨hvoters, hinsync⟩).1⟩

/-! ## Peers after a switch -/

namespace Node

variable {n m : Node} {info : ClusterInfo} {selfId : ℕ} {self node : ClusterInfo.Node}
  {clk : Clock} {id : ℕ}

/-- What is known of a peer after a switch: all that was known under its id, or nothing. -/
theorem peer_switched (hm : m.members = n.switchedMembers clk info selfId self) (hid : id ≠ selfId)
    (hnode : info.nodes.find? id = some node) :
    m.peer? id = some (match n.peer? id with
      | some old => old
      | none =>
        { address := node.address, nextIndex := n.log.lastIndex + 1, nextAERequestTime := clk.now })
    := by
  rw [peer?, hm, switchedMembers, inheritPeers, ClusterInfo.memberShip]
  have hfind : (info.nodes.erase selfId).find? id = some node :=
    (Table.find?_erase_of_ne _ hid).trans hnode
  exact (Table.find?_map _ _ _).trans
    (congrArg _ ((Table.find?_map _ _ _).trans (congrArg _ hfind)))

theorem client_switched (hm : m.members = n.switchedMembers clk info selfId self)
    (hid : id ≠ selfId) (hnode : info.nodes.find? id = some node) :
    m.members.clients.find? id = some node.address := by
  rw [hm, switchedMembers, ClusterInfo.memberShip]
  simp only [Table.find?_map, Table.find?_erase_of_ne _ hid, hnode, Option.map_some]

end Node

/-- What a reconfiguration leaves of the progress of a peer: it is that of a peer with this address
before, or there was none and it starts anew. -/
def Peer.Carries (old : Option Peer) (address : String) (lastLogIndex : ℕ) (p : Peer) : Prop :=
  (∃ q, old = some q ∧ q.address = address ∧ p.matchIndex = q.matchIndex ∧
    p.nextIndex = q.nextIndex ∧ p.requestVoteDone = q.requestVoteDone ∧ p.haveVote = q.haveVote) ∨
  ((∀ q, old = some q → q.address ≠ address) ∧ p.matchIndex = 0 ∧
    p.nextIndex = lastLogIndex + 1 ∧ p.suppressBulkData = true)

/-- The peers are the other nodes of the configuration, each with its address and a client for
it. -/
structure Node.Tracks (m : Node) (info : ClusterInfo) (selfId : ℕ) : Prop where
  keys : ∀ id, id ∈ m.members.peers.keys ↔ id ∈ info.nodes.keys ∧ id ≠ selfId
  address : ∀ id p node, m.peer? id = some p → info.nodes.find? id = some node →
    p.address = node.address
  client : ∀ id node, id ∈ m.members.peers.keys → info.nodes.find? id = some node →
    m.members.clients.find? id = some node.address

/-- **A reconfiguration carries progress only to the same peer** exactly if no node of the new
configuration has the id of a peer with another address. A syncer does not switch, so its peers must
be the right ones before. -/
theorem reconfiguration_carries_progress_iff {n : Node} {info : ClusterInfo} {selfId : ℕ}
    (clk : Clock) (hself : selfId ∈ info.nodes.keys) :
    (∃ m, (n.handleReconfigureRequest clk selfId info).result = .ok m ∧ m.Tracks info selfId ∧
      ∀ id p node, m.peer? id = some p → info.nodes.find? id = some node →
        p.Carries (n.peer? id) node.address n.log.lastIndex) ↔
    (n.role = .syncer ∧ n.Tracks info selfId) ∨
      (n.role ≠ .syncer ∧ selfId ≠ 0 ∧ ∀ id p node, id ≠ selfId → n.peer? id = some p →
        info.nodes.find? id = some node → p.address = node.address) := by
  by_cases hsyncer : n.role = .syncer
  · rw [handleReconfigureRequest, if_pos hsyncer]
    constructor
    · rintro ⟨m, hm, htracks, -⟩
      cases hm
      exact Or.inl ⟨hsyncer, htracks⟩
    · rintro (⟨-, htracks⟩ | ⟨hne, -⟩)
      · refine ⟨n, rfl, htracks, fun id p node hp hnode => Or.inl ⟨p, hp, ?_, rfl, rfl, rfl, rfl⟩⟩
        exact htracks.address id p node hp hnode
      · exact absurd hsyncer hne
  · obtain ⟨self, hself⟩ := Table.mem_keys.mp hself
    constructor
    · rintro ⟨m, hres, htracks, -⟩
      obtain ⟨hpos, -⟩ := exists_of_handleReconfigureRequest hsyncer hres
      obtain ⟨hm, -⟩ := (handleReconfigureRequest_sat clk hsyncer hself hpos).of_result hres
      refine Or.inr ⟨hsyncer, hpos, fun id p node hne hp hnode => ?_⟩
      -- the record is copied with its address
      have hpeer := peer_switched hm hne hnode
      rw [hp] at hpeer
      exact htracks.address id p node hpeer hnode
    · rintro (⟨hrole, -⟩ | ⟨-, hpos, hsame⟩)
      · exact absurd hrole hsyncer
      obtain ⟨m, hres, hm, -⟩ :=
        (handleReconfigureRequest_sat clk hsyncer hself hpos).exists_result
      have hkeys : ∀ id, id ∈ m.members.peers.keys ↔ id ∈ info.nodes.keys ∧ id ≠ selfId := by
        intro id
        have hid : m.members.selfId = selfId := by
          rw [hm]
          rfl
        rw [(under_switched hm hself).mem_peers, hid]
      have hne : ∀ id p, m.peer? id = some p → id ≠ selfId := fun id p hp =>
        ((hkeys id).mp (Table.mem_keys.mpr ⟨p, hp⟩)).2
      refine ⟨m, hres, ⟨hkeys, fun id p node hp hnode => ?_, fun id node hid hnode => ?_⟩,
        fun id p node hp hnode => ?_⟩
      · have hpeer := (peer_switched hm (hne id p hp) hnode).symm.trans hp
        cases hold : n.peer? id with
        | none =>
          rw [hold] at hpeer
          rw [← Option.some.inj hpeer]
        | some q =>
          rw [hold] at hpeer
          rw [← Option.some.inj hpeer]
          exact hsame id q node (hne id p hp) hold hnode
      · exact client_switched hm ((hkeys id).mp hid).2 hnode
      · have hpeer := (peer_switched hm (hne id p hp) hnode).symm.trans hp
        cases hold : n.peer? id with
        | none =>
          rw [hold] at hpeer
          rw [← Option.some.inj hpeer]
          exact Or.inr ⟨nofun, rfl, rfl, rfl⟩
        | some q =>
          rw [hold] at hpeer
          rw [← Option.some.inj hpeer]
          exact Or.inl ⟨q, rfl, hsame id q node (hne id p hp) hold hnode, rfl, rfl, rfl, rfl⟩

namespace Scenario

/-- Three voters and a learner, and a request that gives the id of the learner to another
machine. -/
def reuse : ReconfigureRequest :=
  ⟨1, ⟨0, [⟨1, "a", 1, .voter⟩, ⟨2, "b", 1, .voter⟩, ⟨3, "c", 1, .voter⟩,
    ⟨4, "x", 1, .learner⟩], [], [], []⟩⟩

/-- The leader of three voters and a learner that has stored index `1`. -/
def leaderOfLearner : Node := leading threeVotersOneLearner.info 1 [2, 4]

end Scenario

/-- **Progress is carried to a stranger.** The request gives the id of a learner, which may be
removed, to another machine, and is accepted. After the switch the peer has the old machine's
address and its match index, and the client is one for the new machine, which has no entry at
all. -/
theorem reconfiguration_carries_to_stranger :
    ∃ (r : ReconfigureRequest) (c c' : ClusterInfo) (m : Node) (p : Peer),
      r.Accepted c c' ∧ leaderOfLearner.members.initialRoles.keys = c.nodes.keys ∧
      (leaderOfLearner.handleReconfigureRequest ⟨9, 1⟩ 1 c').result = .ok m ∧
      m.peer? 4 = some p ∧ p.address = "d:1" ∧ p.matchIndex = 1 ∧
      m.members.clients.find? 4 = some "x:1" ∧
      c'.nodes.find? 4 = some ⟨"x", 1, .learner⟩ := by
  have haccepted : reuse.Accepted threeVotersOneLearner.info
      reuse.configuration.syncFromProto :=
    ⟨⟨0, by decide +kernel⟩, 0, 0, threeVotersOneLearner.info, _, _, rfl, rfl, rfl⟩
  exact ⟨_, _, _, _, _, haccepted, rfl, rfl, rfl, by decide +kernel, rfl, by decide +kernel,
    by decide +kernel⟩

theorem reconfiguration_carries_progress_iff_addition :
    ∃ m, (leader.handleReconfigureRequest ⟨9, 1⟩ 1
        addition.configuration.syncFromProto).result = .ok m ∧
      m.Tracks addition.configuration.syncFromProto 1 := by
  have hrows : ∀ row ∈ leader.members.peers.rows,
      ∀ row' ∈ addition.configuration.syncFromProto.nodes.rows, row.1 = row'.1 →
        row.2.address = row'.2.address := by decide +kernel
  have hsame : ∀ id p node, id ≠ 1 → leader.peer? id = some p →
      addition.configuration.syncFromProto.nodes.find? id = some node →
      p.address = node.address := fun id p node _ hp hnode =>
    hrows (id, p) (Table.mem_rows.mpr hp) (id, node) (Table.mem_rows.mpr hnode) rfl
  obtain ⟨m, hres, htracks, -⟩ :=
    (reconfiguration_carries_progress_iff ⟨9, 1⟩ (by decide +kernel)).mpr
      (Or.inr ⟨by decide, by decide, hsame⟩)
  exact ⟨m, hres, htracks⟩

end Gringofts
