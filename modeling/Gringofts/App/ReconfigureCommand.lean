import Gringofts.Raft.Membership

/-!
# The reconfigure command

A reconfigure request is looked at twice: `verifyCommand` checks it by itself, when it arrives,
and `process` checks it against the latest configuration. A request that passes both becomes an
event, and the event hands a `ClusterInfo` to `RaftCore`.

The latest configuration is the one of the control state or the one of `AppInfo`, whichever has
the higher version.

## Main definitions

* `ReconfigureRequest` — the request as it arrives
* `ReconfigureRequest.verifyCommand`, `ReconfigureRequest.process` — the two checks
* `ClusterConfiguration.syncFromProto` — the `ClusterInfo` of a request

## Main results

* `ReconfigureRequest.verified_of_verifyCommand`, `ReconfigureRequest.processed_of_process` — what
  the two checks establish
* `ClusterConfiguration.find?_syncFromProto_eq` — the nodes of a configuration are its members, the
  last one for each id
-/

namespace Gringofts

variable {ids : List ℕ} {k groupId : ℕ}

/-- `kDefaultRaftPort`. -/
def defaultRaftPort : ℕ := 5254

/-- `protos::Member`. -/
structure Member where
  id : ℕ
  address : String
  port : ℕ
  role : InitialRaftRole

/-- `protos::ClusterConfiguration`. -/
structure ClusterConfiguration where
  clusterId : ℕ
  members : List Member
  oldMemberIds : List ℕ
  newMemberIds : List ℕ
  inSyncLearners : List ℕ

/-- `protos::Reconfigure::Request`. -/
structure ReconfigureRequest where
  version : ℕ
  configuration : ClusterConfiguration

namespace Member

variable (m : Member)

/-- The port of the raft service; `0` stands for the default. -/
def raftPort : ℕ := if m.port = 0 then defaultRaftPort else m.port

/-- `address + ":" + port`. -/
def raftAddress : String := m.address ++ ":" ++ toString m.raftPort

end Member

/-- Put ids into a set, one after the other. -/
def idsOf (ids : List ℕ) : IdSet := ids.foldl IdSet.insert IdSet.empty

/-- `ClusterInfo::syncFromProto`. Of two members with one id the later one stays. -/
def ClusterConfiguration.syncFromProto (c : ClusterConfiguration) : ClusterInfo where
  clusterId := c.clusterId % 2 ^ 32
  nodes := c.members.foldl (fun t m => t.insert m.id ⟨m.address, m.raftPort, m.role⟩) Table.empty
  oldJointMembers := idsOf c.oldMemberIds
  newJointMembers := idsOf c.newMemberIds
  insyncLearners := idsOf c.inSyncLearners

/-- The map from addresses to node ids that `process` builds: of two nodes with one address it has
the one with the higher id. -/
def ClusterInfo.idAt (info : ClusterInfo) (address : String) : Option ℕ :=
  (info.nodes.rows.reverse.find? fun r => r.2.address = address).map Prod.fst

/-- `ProcessHint`. -/
structure ProcessHint where
  code : ℕ
  message : String
  deriving DecidableEq

/-- `ReconfigureEvent`, as far as it is applied. -/
structure ReconfigureEvent where
  clusterVersion : ℕ
  clusterConfiguration : ClusterInfo

namespace ReconfigureRequest

variable (r : ReconfigureRequest)

/-- `kVerifiedSuccess`. -/
def verifiedSuccess : String := "Success"

/-- The part of `verifyCommand` about joint members, when there are old and new ones. -/
def verifyJointMembers (c : ClusterConfiguration) : String :=
  let memberIds := c.members.map Member.id
  match c.newMemberIds.find? fun id => id ∉ memberIds with
  | some id => "New member id '" ++ toString id ++ "' is not in members list."
  | none =>
    match c.oldMemberIds.find? fun id => id ∉ memberIds with
    | some id => "Old member id '" ++ toString id ++ "' is not in members list."
    | none =>
      if (idsOf (c.newMemberIds ++ c.oldMemberIds)).elems.length ≠ c.members.length then
        "Joint member size should be the same as member's."
      else verifiedSuccess

/-- `verifyCommand`. -/
def verifyCommand (groupId : ℕ) : String :=
  let c := r.configuration
  if c.clusterId ≠ groupId then
    "This reconfigure command is sent to a wrong cluster. cluster id in request: " ++
      toString c.clusterId ++ ", id of this cluster: " ++ toString groupId
  else if c.members.isEmpty then
    "Members in reconfigure command should not be empty."
  else if c.members.any fun m => m.id = 0 then
    "Member id should be greater than 0."
  else if c.newMemberIds.isEmpty ∧ ¬ c.oldMemberIds.isEmpty then
    "New members should not be empty when old members are not empty."
  else if ¬ c.newMemberIds.isEmpty ∧ c.oldMemberIds.isEmpty then
    "Old members should not be empty when new members are not empty."
  else if ¬ c.newMemberIds.isEmpty ∧ ¬ c.oldMemberIds.isEmpty then
    verifyJointMembers c
  else verifiedSuccess

/-- A hint with `HttpCode::BAD_REQUEST`. -/
def badRequest (message : String) : Except ProcessHint Unit := .error ⟨400, message⟩

/-- The version has to be the one after the latest. -/
def checkVersion (latestVersion : ℕ) : Except ProcessHint Unit :=
  if r.version ≠ (latestVersion + 1) % 2 ^ 64 then
    badRequest ("Version should be current version + 1. current version: " ++
      toString latestVersion ++ ", new version: " ++ toString r.version)
  else pure ()

/-- A member has to be a node of the latest configuration. -/
def checkIntersection (latest : ClusterInfo) : Except ProcessHint Unit :=
  if r.configuration.members.any fun m => (latest.idAt m.raftAddress).isSome then pure ()
  else badRequest "New members should have intersection with current members."

/-- A new node may not be a voter. -/
def checkNewMembers (latest : ClusterInfo) : Except ProcessHint Unit :=
  match r.configuration.members.find? fun m =>
      (latest.idAt m.raftAddress).isNone ∧ m.role = .voter with
  | some m =>
    badRequest ("New members should not be voter. " ++ toString m.id ++ "@" ++ m.address ++ ":" ++
      toString m.raftPort ++ " is voter.")
  | none => pure ()

/-- Only a node that is no voter may be left out. -/
def checkRemovedMembers (latest : ClusterInfo) : Except ProcessHint Unit :=
  let addresses := r.configuration.members.map Member.raftAddress
  match latest.nodes.rows.find? fun row =>
      row.2.address ∉ addresses ∧ row.2.initialRole = .voter with
  | some (id, n) =>
    badRequest ("Only non-voter can be removed from cluster. " ++ toString id ++ "@" ++
      n.hostName ++ ":" ++ toString n.portForRaft ++ " is voter.")
  | none => pure ()

/-- The id of an address may not change. -/
def checkIds (latest : ClusterInfo) : Except ProcessHint Unit :=
  match r.configuration.members.find? fun m =>
      (latest.idAt m.raftAddress).any fun id => id ≠ m.id with
  | some m =>
    badRequest ("Node id of '" ++ m.raftAddress ++ "' changes: " ++
      toString ((latest.idAt m.raftAddress).getD 0) ++ "->" ++ toString m.id)
  | none => pure ()

/-- In-sync learners have to be learners. -/
def checkInSyncLearners : Except ProcessHint Unit :=
  let learners := (r.configuration.members.filter fun m => m.role = .learner).map Member.id
  match r.configuration.inSyncLearners.find? fun id => id ∉ learners with
  | some id =>
    badRequest ("In-sync learner id '" ++ toString id ++ "' is not in learner list.")
  | none => pure ()

/-- `process`, with the version and the configuration of the control state and those of `AppInfo`.
With an event the hint is `HttpCode::OK`. -/
def process (versionInState versionInAppInfo : ℕ)
    (configurationInState configurationInAppInfo : ClusterInfo) :
    Except ProcessHint ReconfigureEvent := do
  r.checkVersion (max versionInState versionInAppInfo)
  let latest :=
    if versionInAppInfo < versionInState then configurationInState else configurationInAppInfo
  r.checkIntersection latest
  r.checkNewMembers latest
  r.checkRemovedMembers latest
  r.checkIds latest
  r.checkInSyncLearners
  pure ⟨r.version, r.configuration.syncFromProto⟩

end ReconfigureRequest

/-! ## Members and nodes -/

theorem mem_foldl_insert {s : IdSet} : k ∈ ids.foldl IdSet.insert s ↔ k ∈ ids ∨ k ∈ s := by
  induction ids generalizing s with
  | nil => simp
  | cons id ids ih =>
    rw [List.foldl_cons, ih, IdSet.mem_insert, List.mem_cons]
    tauto

@[simp] theorem mem_idsOf : k ∈ idsOf ids ↔ k ∈ ids := by
  rw [idsOf, mem_foldl_insert]
  exact or_iff_left List.not_mem_nil

/-- The node that a member becomes. -/
def Member.toNode (m : Member) : ClusterInfo.Node := ⟨m.address, m.raftPort, m.role⟩

@[simp] theorem Member.toNode_address (m : Member) : m.toNode.address = m.raftAddress := rfl

namespace ClusterConfiguration

/-- The member that is kept for an id: the last one with it. -/
def memberOf? (c : ClusterConfiguration) (id : ℕ) : Option Member :=
  c.members.reverse.find? fun m => m.id = id

/-- Put members into a table, one after the other. -/
def nodesOf (ms : List Member) (t : Table ClusterInfo.Node) : Table ClusterInfo.Node :=
  ms.foldl (fun t m => t.insert m.id m.toNode) t

theorem find?_nodesOf (ms : List Member) (t : Table ClusterInfo.Node) (id : ℕ) :
    (nodesOf ms t).find? id =
      ((ms.reverse.find? fun m => m.id = id).map Member.toNode).or (t.find? id) := by
  induction ms generalizing t with
  | nil => rfl
  | cons m ms ih =>
    change (nodesOf ms (t.insert m.id m.toNode)).find? id = _
    rw [ih, Table.find?_insert, List.reverse_cons, List.find?_append]
    cases ms.reverse.find? fun m => decide (m.id = id) with
    | some m' => rfl
    | none =>
      by_cases hid : m.id = id
      · simp [hid]
      · simp [hid]

variable {c : ClusterConfiguration} {id : ℕ}

/-- **The nodes of the configuration** are the members that are kept. -/
theorem find?_syncFromProto_eq :
    c.syncFromProto.nodes.find? id = (c.memberOf? id).map Member.toNode :=
  (find?_nodesOf c.members Table.empty id).trans Option.or_none

theorem mem_of_memberOf {m : Member} (h : c.memberOf? id = some m) : m ∈ c.members ∧ m.id = id :=
  ⟨List.mem_reverse.mp (List.mem_of_find?_eq_some h), by simpa using List.find?_some h⟩

/-- **A node of the configuration is a member** of the request, with its id. -/
theorem find?_syncFromProto {node : ClusterInfo.Node}
    (h : c.syncFromProto.nodes.find? id = some node) :
    ∃ m ∈ c.members, m.id = id ∧ m.toNode = node := by
  rw [find?_syncFromProto_eq] at h
  obtain ⟨m, hm, rfl⟩ := Option.map_eq_some_iff.mp h
  exact ⟨m, (mem_of_memberOf hm).1, (mem_of_memberOf hm).2, rfl⟩

theorem mem_keys_syncFromProto :
    id ∈ c.syncFromProto.nodes.keys ↔ ∃ m ∈ c.members, m.id = id := by
  rw [Table.mem_keys]
  constructor
  · rintro ⟨node, hnode⟩
    obtain ⟨m, hm, hid, -⟩ := find?_syncFromProto hnode
    exact ⟨m, hm, hid⟩
  · rintro ⟨m, hm, rfl⟩
    have hsome : (c.memberOf? m.id).isSome := by
      simpa [memberOf?] using ⟨m, hm, rfl⟩
    obtain ⟨m', hm'⟩ := Option.isSome_iff_exists.mp hsome
    exact ⟨m'.toNode, by rw [find?_syncFromProto_eq, hm', Option.map_some]⟩

end ClusterConfiguration

/-! ## Addresses -/

namespace ClusterInfo

variable {info : ClusterInfo} {address : String}

/-- No node has an address that the map does not know. -/
theorem idAt_eq_none : info.idAt address = none ↔
    ∀ id node, info.nodes.find? id = some node → node.address ≠ address := by
  rw [idAt, Option.map_eq_none_iff, List.find?_eq_none]
  constructor
  · intro h id node hnode
    simpa using h (id, node) (List.mem_reverse.mpr (Table.mem_rows.mpr hnode))
  · rintro h ⟨id, node⟩ hrow
    simpa using h id node (Table.mem_rows.mp (List.mem_reverse.mp hrow))

end ClusterInfo

/-! ## What the checks establish -/

namespace ReconfigureRequest

variable {r : ReconfigureRequest}

/-- A message that starts with another letter is not the one of success. -/
theorem append_ne_verifiedSuccess {a b : String} (h : a.toList.head? ≠ none)
    (h' : a.toList.head? ≠ some 'S') : a ++ b ≠ verifiedSuccess := by
  intro heq
  have hhead := congrArg (fun s : String => s.toList.head?) heq
  simp only [String.toList_append, List.head?_append] at hhead
  cases ha : a.toList.head? with
  | none => exact h ha
  | some x =>
    rw [ha] at hhead h'
    exact h' (hhead.trans (by decide))

/-- What `verifyCommand` establishes: ids are not `0`, and joint members are members. -/
structure Verified (r : ReconfigureRequest) : Prop where
  members_ne : r.configuration.members ≠ []
  id_ne : ∀ m ∈ r.configuration.members, m.id ≠ 0
  joint_mem : ∀ id, id ∈ r.configuration.oldMemberIds ∨ id ∈ r.configuration.newMemberIds →
    ∃ m ∈ r.configuration.members, m.id = id

theorem joint_mem_of_verifyJointMembers {c : ClusterConfiguration}
    (h : verifyJointMembers c = verifiedSuccess) :
    ∀ id, id ∈ c.oldMemberIds ∨ id ∈ c.newMemberIds → ∃ m ∈ c.members, m.id = id := by
  intro id hid
  simp only [verifyJointMembers] at h
  split at h
  · rw [String.append_assoc] at h
    exact absurd h (append_ne_verifiedSuccess (by decide) (by decide))
  next hnew =>
  split at h
  · rw [String.append_assoc] at h
    exact absurd h (append_ne_verifiedSuccess (by decide) (by decide))
  next hold =>
  have hmem : id ∈ c.members.map Member.id := by
    rcases hid with hid | hid
    · simpa using List.find?_eq_none.mp hold id hid
    · simpa using List.find?_eq_none.mp hnew id hid
  exact List.mem_map.mp hmem

/-- A request that `verifyCommand` accepts has passed all its checks. -/
theorem checked_of_verifyCommand (h : r.verifyCommand groupId = verifiedSuccess) :
    r.configuration.members ≠ [] ∧ (∀ m ∈ r.configuration.members, m.id ≠ 0) ∧
      r.configuration.newMemberIds.isEmpty = r.configuration.oldMemberIds.isEmpty ∧
      (r.configuration.newMemberIds.isEmpty = false →
        verifyJointMembers r.configuration = verifiedSuccess) := by
  simp only [verifyCommand] at h
  split at h
  · rw [String.append_assoc, String.append_assoc] at h
    exact absurd h (append_ne_verifiedSuccess (by decide) (by decide))
  split at h
  · exact absurd h (by decide)
  split at h
  · exact absurd h (by decide)
  next hempty hzero =>
  split at h
  · exact absurd h (by decide)
  split at h
  · exact absurd h (by decide)
  next hnew hold =>
  have hkinds : r.configuration.newMemberIds.isEmpty = r.configuration.oldMemberIds.isEmpty := by
    cases hn : r.configuration.newMemberIds.isEmpty <;>
      cases ho : r.configuration.oldMemberIds.isEmpty <;> simp_all
  refine ⟨by simpa using hempty, by simpa using hzero, hkinds, fun hjoint => ?_⟩
  rwa [if_pos ⟨by simp [hjoint], by simp [← hkinds, hjoint]⟩] at h

theorem verified_of_verifyCommand (h : r.verifyCommand groupId = verifiedSuccess) : r.Verified := by
  obtain ⟨hnonempty, hids, hkinds, hjoint⟩ := checked_of_verifyCommand h
  refine ⟨hnonempty, hids, ?_⟩
  cases hnew : r.configuration.newMemberIds.isEmpty with
  | false => exact joint_mem_of_verifyJointMembers (hjoint hnew)
  | true =>
    -- neither set has a member
    rw [hnew] at hkinds
    rw [List.isEmpty_iff.mp hnew, List.isEmpty_iff.mp hkinds.symm]
    simp

/-- What `process` establishes against the latest configuration. -/
structure Processed (r : ReconfigureRequest) (latest : ClusterInfo) : Prop where
  intersects : ∃ m ∈ r.configuration.members, (latest.idAt m.raftAddress).isSome
  new_not_voter : ∀ m ∈ r.configuration.members, latest.idAt m.raftAddress = none →
    m.role ≠ .voter
  voter_stays : ∀ id node, latest.nodes.find? id = some node → node.initialRole = .voter →
    ∃ m ∈ r.configuration.members, m.raftAddress = node.address
  id_stays : ∀ m ∈ r.configuration.members, ∀ id, latest.idAt m.raftAddress = some id → id = m.id
  insync_learner : ∀ id ∈ r.configuration.inSyncLearners,
    ∃ m ∈ r.configuration.members, m.id = id ∧ m.role = .learner

theorem processed_of_process {versionInState versionInAppInfo : ℕ}
    {configurationInState configurationInAppInfo : ClusterInfo} {event : ReconfigureEvent}
    (h : r.process versionInState versionInAppInfo configurationInState configurationInAppInfo =
      .ok event) :
    r.Processed (if versionInAppInfo < versionInState then configurationInState
      else configurationInAppInfo) ∧
      event.clusterConfiguration = r.configuration.syncFromProto := by
  generalize hlatest : (if versionInAppInfo < versionInState then configurationInState
    else configurationInAppInfo) = latest
  rw [process] at h
  simp only [hlatest] at h
  rw [checkVersion] at h
  split at h
  · cases h
  rw [checkIntersection] at h
  split at h
  swap
  · cases h
  next hinter =>
  rw [checkNewMembers] at h
  split at h
  · cases h
  next hnew =>
  rw [checkRemovedMembers] at h
  split at h
  · cases h
  next hremoved =>
  rw [checkIds] at h
  split at h
  · cases h
  next hids =>
  rw [checkInSyncLearners] at h
  split at h
  · cases h
  next hlearners =>
  obtain rfl : _ = event := Except.ok.inj h
  refine ⟨⟨by simpa using hinter, fun m hm hnone hvoter => ?_, fun id node hnode hvoter => ?_,
    fun m hm id hid => ?_, fun id hid => ?_⟩, rfl⟩
  · have hno : latest.idAt m.raftAddress = none → ¬ m.role = .voter := by
      simpa using List.find?_eq_none.mp hnew m hm
    exact hno hnone hvoter
  · have hrow := List.find?_eq_none.mp hremoved (id, node) (Table.mem_rows.mpr hnode)
    have hmem : node.address ∈ r.configuration.members.map Member.raftAddress := by
      simpa [hvoter] using hrow
    exact List.mem_map.mp hmem
  · simpa [hid] using List.find?_eq_none.mp hids m hm
  · have hmem := List.find?_eq_none.mp hlearners id hid
    simpa [and_comm, and_assoc] using hmem

end ReconfigureRequest

end Gringofts
