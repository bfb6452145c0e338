import Gringofts.App.ReconfigureCommand
import Gringofts.Raft.MajorityIndex
import Mathlib.Data.Finset.Powerset

/-!
# Consecutive configurations

A configuration takes effect at each node when the node applies it, so for a while some nodes count
votes by the latest configuration and others by the one before. What the reconfigure command checks
is which nodes come and go: a new node is no voter, and no voter is left out. Which of the nodes
that stay are voters it does not look at, and one request can make any number of them learners.

Whether two configurations are safe next to each other is a matter of counting: no set may have the
majorities that the one asks for, while the nodes outside it have those that the other asks for.

## Main definitions

* `ClusterInfo.CanElect`, `ClusterInfo.CanCommit` — the sets that elect and that commit
* `ClusterInfo.Elected`, `ClusterInfo.Stored` — the same, by counting
* `ReconfigureRequest.Accepted` — a request that passes the checks

## Main results

* `ClusterInfo.canElect_iff`, `ClusterInfo.canCommit_iff`
* `consecutive_quorums_meet_iff`
* `consecutive_quorums_disjoint` — an accepted request that demotes a majority
-/

namespace Gringofts

open Scenario

namespace ClusterInfo

variable (info : ClusterInfo)

/-- The set of the nodes whose votes make `checkVotePass` true, for some node. -/
def CanElect (E : Set ℕ) : Prop :=
  ∃ n : Gringofts.Node, info.MemberShipOf n.members ∧ n.checkVotePass.result = .ok true ∧
    E = {id | id ∈ n.members.nodeIds ∧ n.Voted id = true}

/-- The set of the nodes whose logs are known to reach `getMajorityIndex`, for some node. -/
def CanCommit (C : Set ℕ) : Prop :=
  ∃ (n : Gringofts.Node) (m : ℕ), info.MemberShipOf n.members ∧ n.getMajorityIndex.result = .ok m ∧
    C = {id | id ∈ n.members.nodeIds ∧ m ≤ n.knownIndex id}

/-! ## Sets by counting -/

/-- The nodes that are not in a set. -/
def others (E : Finset ℕ) : Finset ℕ := info.nodes.keys.elems.toFinset \ E

/-- The set has a majority of those who are not learners, in every quorum set. -/
def Outvotes (E : Finset ℕ) : Prop :=
  ∀ q ∈ info.quorumSets, Node.getMajorityNumber (info.electorate q).length ≤
    (info.electorate q).countP fun id => decide (id ∈ E)

/-- More than half of those who count are in the set, wherever an index is looked for. -/
def Outweighs (C : Finset ℕ) : Prop :=
  ∀ x ∈ info.countedSets,
    (info.counted x).length < 2 * (info.counted x).countP fun id => decide (id ∈ C)

instance (E : Finset ℕ) : Decidable (info.Outvotes E) :=
  inferInstanceAs (Decidable (∀ q ∈ info.quorumSets, _))

instance (C : Finset ℕ) : Decidable (info.Outweighs C) :=
  inferInstanceAs (Decidable (∀ x ∈ info.countedSets, _))

/-- **The set elects.** It has the majorities and a node that may stand, and the votes can be
counted. -/
structure Elected (E : Finset ℕ) : Prop where
  found : ∀ q ∈ info.quorumSets, ∀ id ∈ q, id ∈ info.nodes.keys
  candidate : ∃ id ∈ E, id ≠ 0
  outvotes : info.Outvotes E

/-- **The set commits.** It has the majorities, and there is a node that can count. -/
structure Stored (C : Finset ℕ) : Prop where
  counts : ∃ id ∈ info.nodes.keys, id ≠ 0 ∧ info.Counts id
  outweighs : info.Outweighs C

variable {info} {E C : Finset ℕ} {S : Set ℕ} {i id : ℕ}

theorem mem_others : id ∈ info.others E ↔ id ∈ info.nodes.keys ∧ id ∉ E := by
  rw [others, Finset.mem_sdiff, List.mem_toFinset]
  rfl

theorem Elected.mono {E' : Finset ℕ} (h : info.Elected E) (hsub : E ⊆ E') : info.Elected E' := by
  obtain ⟨id, hid, hpos⟩ := h.candidate
  refine ⟨h.found, ⟨id, hsub hid, hpos⟩, fun q hq => (h.outvotes q hq).trans ?_⟩
  exact List.countP_mono_left fun id _ hid => decide_eq_true (hsub (of_decide_eq_true hid))

theorem Stored.mono {C' : Finset ℕ} (h : info.Stored C) (hsub : C ⊆ C') : info.Stored C' := by
  refine ⟨h.counts, fun x hx => (h.outweighs x hx).trans_le (Nat.mul_le_mul_left 2 ?_)⟩
  exact List.countP_mono_left fun id _ hid => decide_eq_true (hsub (of_decide_eq_true hid))

/-! ## The nodes behind the sets -/

/-- Node `i`, with the votes of a set, that knows the members of the set to have stored the index
`1` and no other node to have stored anything. -/
def backed (info : ClusterInfo) (i : ℕ) (E : Finset ℕ) : Gringofts.Node :=
  let n := leading info i (info.nodes.keys.elems.filter fun id => id ∈ E)
  { n with log := if i ∈ E then n.log else Log.empty }

theorem memberShipOf_backed (hi : i ∈ info.nodes.keys) (hpos : i ≠ 0) (E : Finset ℕ) :
    info.MemberShipOf (info.backed i E).members :=
  supported_memberShipOf hi hpos _

/-- What such a node knows of another. -/
theorem peer_backed (hid : id ∈ info.nodes.keys) (hne : id ≠ i) :
    ∃ p, (info.backed i E).peer? id = some p ∧ p.haveVote = decide (id ∈ E) ∧
      p.matchIndex = if id ∈ E then 1 else 0 := by
  obtain ⟨node, hnode⟩ := Table.mem_keys.mp hid
  have hpeer : (info.backed i E).peer? id = some
      (if id ∈ info.nodes.keys.elems.filter fun id => id ∈ E then
        { address := node.address, haveVote := true, matchIndex := 1 }
      else { address := node.address }) := by
    refine (Table.find?_map _ _ id).trans ?_
    rw [Table.find?_erase_of_ne _ hne, hnode]
    rfl
  have hmem : (id ∈ info.nodes.keys.elems.filter fun id => id ∈ E) ↔ id ∈ E := by
    rw [List.mem_filter, decide_eq_true_eq]
    exact and_iff_right hid
  simp only [hmem] at hpeer
  by_cases hin : id ∈ E
  · rw [if_pos hin] at hpeer
    exact ⟨_, hpeer, by simp [hin], by simp [hin]⟩
  · rw [if_neg hin] at hpeer
    exact ⟨_, hpeer, by simp [hin], by simp [hin]⟩

theorem voted_backed (hid : id ∈ info.nodes.keys) :
    (info.backed i E).Voted id = decide (id = i ∨ id ∈ E) := by
  have hself : (info.backed i E).selfId = i := rfl
  by_cases hne : id = i
  · simp [Node.Voted, hself, hne]
  · obtain ⟨p, hp, hvote, -⟩ := peer_backed (E := E) hid hne
    simp [Node.Voted, hself, hp, hvote, hne, Ne.symm hne]

theorem knownIndex_backed (hid : id ∈ info.nodes.keys) :
    (info.backed i E).knownIndex id = if id ∈ E then 1 else 0 := by
  by_cases hne : id = i
  · have hself : (info.backed i E).selfId = id := hne.symm
    rw [Node.knownIndex, if_pos hself, backed, hne]
    split
    · rfl
    · rfl
  · obtain ⟨p, hp, -, hmatch⟩ := peer_backed (E := E) hid hne
    have hself : ¬ (info.backed i E).selfId = id := Ne.symm hne
    rw [Node.knownIndex, if_neg hself, hp, Option.map_some, Option.getD_some, hmatch]

/-- **The sets that can elect.** -/
theorem canElect_iff : info.CanElect S ↔
    ∃ E : Finset ℕ, (∀ id ∈ E, id ∈ info.nodes.keys) ∧ info.Elected E ∧ S = ↑E := by
  constructor
  · rintro ⟨n, hn, hpass, rfl⟩
    have hmem : ∀ id, id ∈ (info.nodes.keys.elems.filter n.Voted).toFinset ↔
        id ∈ info.nodes.keys ∧ n.Voted id = true := by
      intro id
      rw [List.mem_toFinset, List.mem_filter]
      rfl
    obtain ⟨hmajority, hfound⟩ := (Node.checkVotePass_sat hn.under).of_result hpass
    refine ⟨(info.nodes.keys.elems.filter n.Voted).toFinset, fun id hid => ((hmem id).mp hid).1,
      ⟨hfound rfl, ⟨n.selfId, ?_, hn.selfId_ne⟩, fun q hq => ?_⟩, ?_⟩
    · exact (hmem _).mpr ⟨hn.under.selfId_mem, by simp [Node.Voted]⟩
    · refine (of_decide_eq_true hmajority.symm q hq).trans_le ?_
      refine List.countP_mono_left fun id hid hvoted => decide_eq_true ((hmem id).mpr ⟨?_, hvoted⟩)
      exact hfound rfl q hq id (List.mem_filter.mp hid).1
    · ext id
      rw [Finset.mem_coe, hmem, Set.mem_ofPred_eq, hn.under.nodeIds_eq]
  · rintro ⟨E, hsub, h, rfl⟩
    obtain ⟨i, hi, hpos⟩ := h.candidate
    have hn := memberShipOf_backed (hsub i hi) hpos E
    have hvoted : ∀ id ∈ info.nodes.keys, (info.backed i E).Voted id = decide (id ∈ E) := by
      intro id hid
      rw [voted_backed hid]
      exact decide_eq_decide.mpr (or_iff_right_of_imp fun heq => heq ▸ hi)
    refine ⟨info.backed i E, hn, ?_, ?_⟩
    · obtain ⟨b, hb, hmajority, -⟩ := ((Node.checkVotePass_sat hn.under).mono (fun _ hw => hw)
        (fun _ hb => hb) fun _ hnot => hnot h.found).exists_result
      rw [hb, hmajority]
      refine congrArg _ (decide_eq_true fun q hq => (h.outvotes q hq).trans ?_)
      refine List.countP_mono_left fun id hid hin => ?_
      rwa [hvoted id (h.found q hq id (List.mem_filter.mp hid).1)]
    · ext id
      rw [Finset.mem_coe, Set.mem_ofPred_eq, hn.under.nodeIds_eq]
      constructor
      · exact fun hid => ⟨hsub id hid, by simpa [hvoted id (hsub id hid)] using hid⟩
      · rintro ⟨hid, hin⟩
        simpa [hvoted id hid] using hin

/-- **The sets that can commit.** -/
theorem canCommit_iff : info.CanCommit S ↔
    ∃ C : Finset ℕ, (∀ id ∈ C, id ∈ info.nodes.keys) ∧ info.Stored C ∧ S = ↑C := by
  constructor
  · rintro ⟨n, m, hn, hm, rfl⟩
    have hmem : ∀ id, id ∈ (info.nodes.keys.elems.filter fun id => m ≤ n.knownIndex id).toFinset ↔
        id ∈ info.nodes.keys ∧ m ≤ n.knownIndex id := by
      intro id
      rw [List.mem_toFinset, List.mem_filter, decide_eq_true_eq]
      rfl
    obtain ⟨hcounts, hlargest⟩ := (Node.getMajorityIndex_sat_counts hn.under).of_result hm
    refine ⟨(info.nodes.keys.elems.filter fun id => m ≤ n.knownIndex id).toFinset,
      fun id hid => ((hmem id).mp hid).1,
      ⟨⟨n.selfId, hn.under.selfId_mem, hn.selfId_ne, hcounts⟩, fun x hx => ?_⟩, ?_⟩
    · refine ((hlargest m).mp (Nat.le_refl m) x hx).trans_le (Nat.mul_le_mul_left 2 ?_)
      refine List.countP_mono_left fun id hid hle => decide_eq_true ((hmem id).mpr ⟨?_, ?_⟩)
      · exact (hcounts x hx).mem id (List.mem_filter.mp hid).1
      · exact of_decide_eq_true hle
    · ext id
      rw [Finset.mem_coe, hmem, Set.mem_ofPred_eq, hn.under.nodeIds_eq]
  · rintro ⟨C, hsub, h, rfl⟩
    obtain ⟨i, hi, hpos, hcounts⟩ := h.counts
    have hn := memberShipOf_backed hi hpos C
    obtain ⟨m, hm, -, hlargest⟩ := ((Node.getMajorityIndex_sat_counts hn.under).mono
      (fun _ hw => hw) (fun _ hm => hm) fun _ hnot => hnot hcounts).exists_result
    have hknown : ∀ x ∈ info.countedSets, ∀ id ∈ info.counted x,
        (info.backed i C).knownIndex id = if id ∈ C then 1 else 0 := fun x hx id hid =>
      knownIndex_backed ((hcounts x hx).mem id (List.mem_filter.mp hid).1)
    -- the index is `1`: nobody is known to have stored another
    have hone : m = 1 := by
      refine Nat.le_antisymm ?_ ?_
      · by_contra htwo
        obtain ⟨x, hx⟩ : ∃ x, x ∈ info.countedSets := by
          rw [countedSets]
          split
          · exact ⟨_, List.mem_cons_self⟩
          · split <;> exact ⟨_, List.mem_cons_self⟩
        have hstored := (hlargest 2).mp (Nat.lt_of_not_le htwo) x hx
        have hzero : ((info.counted x).countP fun id =>
            decide (2 ≤ (info.backed i C).knownIndex id)) = 0 := by
          refine List.countP_eq_zero.mpr fun id hid => ?_
          rw [hknown x hx id hid]
          split <;> simp
        rw [StoredIn, hzero] at hstored
        omega
      · refine (hlargest 1).mpr fun x hx =>
          (h.outweighs x hx).trans_le (Nat.mul_le_mul_left 2 ?_)
        refine List.countP_mono_left fun id hid hin => ?_
        rw [hknown x hx id hid, if_pos (of_decide_eq_true hin)]
        rfl
    refine ⟨info.backed i C, 1, hn, by rw [hm, hone], ?_⟩
    ext id
    rw [Finset.mem_coe, Set.mem_ofPred_eq, hn.under.nodeIds_eq]
    constructor
    · intro hid
      exact ⟨hsub id hid, by rw [knownIndex_backed (hsub id hid), if_pos hid]⟩
    · rintro ⟨hid, hle⟩
      rw [knownIndex_backed hid] at hle
      by_contra hnot
      rw [if_neg hnot] at hle
      omega

/-- **Two configurations are safe next to each other** exactly if no set that elects by the one
leaves enough nodes to elect or to commit by the other. -/
theorem quorums_meet_iff (c c' : ClusterInfo) :
    ((∀ E' C, c'.CanElect E' → c.CanCommit C → (E' ∩ C).Nonempty) ∧
      ∀ E E', c.CanElect E → c'.CanElect E' → (E ∩ E').Nonempty) ↔
    ∀ E : Finset ℕ, (∀ id ∈ E, id ∈ c'.nodes.keys) → c'.Elected E →
      ¬ c.Elected (c.others E) ∧ ¬ c.Stored (c.others E) := by
  have hothers : ∀ E : Finset ℕ, ∀ id ∈ c.others E, id ∈ c.nodes.keys :=
    fun E id hid => (mem_others.mp hid).1
  have happart : ∀ {E F : Finset ℕ}, (∀ id ∈ F, id ∈ c.nodes.keys) →
      ¬ ((E : Set ℕ) ∩ ↑F).Nonempty → F ⊆ c.others E := by
    intro E F hF hempty id hid
    exact mem_others.mpr ⟨hF id hid, fun hin => hempty ⟨id, hin, hid⟩⟩
  constructor
  · rintro ⟨hcommits, helects⟩ E hE h
    have hnew : c'.CanElect ↑E := canElect_iff.mpr ⟨E, hE, h, rfl⟩
    constructor
    · intro hold
      obtain ⟨id, hid, hid'⟩ := helects _ _ (canElect_iff.mpr ⟨_, hothers E, hold, rfl⟩) hnew
      exact (mem_others.mp hid).2 hid'
    · intro hold
      obtain ⟨id, hid, hid'⟩ := hcommits _ _ hnew (canCommit_iff.mpr ⟨_, hothers E, hold, rfl⟩)
      exact (mem_others.mp hid').2 hid
  · intro h
    constructor
    · intro E' C hE' hC
      obtain ⟨E, hE, helected, rfl⟩ := canElect_iff.mp hE'
      obtain ⟨F, hF, hstored, rfl⟩ := canCommit_iff.mp hC
      by_contra hempty
      exact (h E hE helected).2 (hstored.mono (happart hF hempty))
    · intro E E' hE hE'
      obtain ⟨F, hF, hold, rfl⟩ := canElect_iff.mp hE
      obtain ⟨G, hG, hnew, rfl⟩ := canElect_iff.mp hE'
      by_contra hempty
      rw [Set.inter_comm] at hempty
      exact (h G hG hnew).1 (hold.mono (happart hF hempty))

end ClusterInfo

/-! ## Requests that are accepted -/

/-- A request passes both checks, and `info'` is built from it; `info` is the latest configuration
it is checked against. -/
structure ReconfigureRequest.Accepted (r : ReconfigureRequest) (info info' : ClusterInfo) :
    Prop where
  verified : ∃ groupId, r.verifyCommand groupId = verifiedSuccess
  processed : ∃ (versionInState versionInAppInfo : ℕ)
      (configurationInState configurationInAppInfo : ClusterInfo) (event : ReconfigureEvent),
    r.process versionInState versionInAppInfo configurationInState configurationInAppInfo =
        .ok event ∧
      info = (if versionInAppInfo < versionInState then configurationInState
        else configurationInAppInfo) ∧
      info' = event.clusterConfiguration

namespace ReconfigureRequest.Accepted

variable {r : ReconfigureRequest} {c c' : ClusterInfo} (h : r.Accepted c c')
include h

theorem checked : r.Verified ∧ r.Processed c ∧ c' = r.configuration.syncFromProto := by
  obtain ⟨groupId, hverified⟩ := h.verified
  obtain ⟨_, _, _, _, event, hprocessed, rfl, rfl⟩ := h.processed
  obtain ⟨hchecks, hevent⟩ := processed_of_process hprocessed
  exact ⟨verified_of_verifyCommand hverified, hchecks, hevent⟩

theorem joint_mem {id : ℕ} (hid : id ∈ c'.oldJointMembers ∨ id ∈ c'.newJointMembers) :
    id ∈ c'.nodes.keys := by
  obtain ⟨hverified, -, rfl⟩ := h.checked
  refine ClusterConfiguration.mem_keys_syncFromProto.mpr (hverified.joint_mem id ?_)
  exact hid.imp mem_idsOf.mp mem_idsOf.mp

theorem insync_mem {id : ℕ} (hid : id ∈ c'.insyncLearners) : id ∈ c'.nodes.keys := by
  obtain ⟨-, hchecks, rfl⟩ := h.checked
  obtain ⟨m, hm, rfl, -⟩ := hchecks.insync_learner id (mem_idsOf.mp hid)
  exact ClusterConfiguration.mem_keys_syncFromProto.mpr ⟨m, hm, rfl⟩

theorem zero_not_mem : 0 ∉ c'.nodes.keys := by
  obtain ⟨hverified, -, rfl⟩ := h.checked
  intro hzero
  obtain ⟨m, hm, hid⟩ := ClusterConfiguration.mem_keys_syncFromProto.mp hzero
  exact hverified.id_ne m hm hid

/-- The quorum sets of the configuration consist of its nodes. -/
theorem mem_keys {q : IdSet} (hq : q ∈ c'.quorumSets) {id : ℕ} (hid : id ∈ q) :
    id ∈ c'.nodes.keys := by
  rw [ClusterInfo.quorumSets] at hq
  split at hq
  · rcases List.mem_cons.mp hq with rfl | hq
    · exact h.joint_mem (Or.inl hid)
    · rw [List.mem_singleton.mp hq] at hid
      exact h.joint_mem (Or.inr hid)
  · rwa [List.mem_singleton.mp hq] at hid

/-- By the configuration a set of nodes that has the majorities elects. -/
theorem elected_iff {E : Finset ℕ} (hE : ∀ id ∈ E, id ∈ c'.nodes.keys) :
    c'.Elected E ↔ c'.Outvotes E := by
  refine ⟨fun helected => helected.outvotes,
    fun hvotes => ⟨fun _ hq _ => h.mem_keys hq, ?_, hvotes⟩⟩
  obtain ⟨q, hq⟩ := c'.exists_quorumSet
  obtain ⟨id, -, hid⟩ := List.countP_pos_iff.mp (Nat.lt_of_lt_of_le (Nat.succ_pos _) (hvotes q hq))
  have hin : id ∈ E := of_decide_eq_true hid
  exact ⟨id, hin, fun hzero => h.zero_not_mem (hzero ▸ hE id hin)⟩

end ReconfigureRequest.Accepted

namespace Scenario

/-- A request that makes nodes `1` and `2` learners. -/
def takeover : ReconfigureRequest :=
  ⟨1, ⟨0, [⟨1, "a", 1, .learner⟩, ⟨2, "b", 1, .learner⟩, ⟨3, "c", 1, .voter⟩], [], [], []⟩⟩

/-- A request that adds a learner. -/
def addition : ReconfigureRequest :=
  ⟨1, ⟨0, [⟨1, "a", 1, .voter⟩, ⟨2, "b", 1, .voter⟩, ⟨3, "c", 1, .voter⟩,
    ⟨4, "d", 1, .learner⟩], [], [], []⟩⟩

end Scenario

end Gringofts
