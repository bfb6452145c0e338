import Gringofts.App.SplitPlan

/-!
# Encoding the control state

The control state goes into a snapshot as a message of its own and is read back from there. The
decoder writes into a state that is already held: each number and each text is overwritten, and so
is the configuration, but the routes are set one after the other, without clearing the old ones. A
route of a type that the message does not have stays.

Of the configuration the message has all that is read back, with two exceptions. A port `0` stands
for the default; no state has it, since the events that set the configuration were decoded the same
way. Joint members are written only if there are old and new ones.

How a message is turned into bytes is left open. All that is used is that a message is read back,
and that no bytes are the message without any field, which is not the message of a state: a state
always sets the configuration. The decoder skips a view without bytes.

## Main definitions

* `SplitState`, `StateFormat` — the message, and its bytes
* `CtrlState.encodeToString`, `CtrlState.decodeFromString`
* `CtrlState.Reached` — the states that applying events leads to
* `CtrlState.Regular` — what they have in common

## Main results

* `ClusterConfiguration.syncFromProto_syncToProto`, `CtrlState.decode_encode` — what is read back
* `ctrl_state_survives_iff`, `old_route_survives`
* `CtrlState.Reached.balanced` — accepted reconfigurations set both kinds of joint members or none
-/

namespace Gringofts

open Scenario Framing

/-! ## Messages -/

/-- `protos::SplitState`. A message that is a field is there or not. -/
structure SplitState where
  routes : List RouteProto
  epoch : ℕ
  planId : String
  clusterId : ℕ
  startIndex : ℕ
  clusterVersion : ℕ
  clusterConfiguration : Option ClusterConfiguration
  clusterReconfigureIndex : ℕ

/-- A message without any field. -/
def SplitState.blank : SplitState := ⟨[], 0, "", 0, 0, 0, none, 0⟩

/-- The bytes of a message. `parse` is what a message holds after `ParseFromString`, whose answer
is not looked at. -/
structure StateFormat where
  serialize : SplitState → List UInt8
  parse : List UInt8 → SplitState
  parse_serialize : ∀ state, parse (serialize state) = state
  parse_nil : parse [] = SplitState.blank

/-- `Route::buildProto`. -/
def Route.buildProto (r : Route) : RouteProto := ⟨r.type, r.groups.elems, r.groupTotal⟩

/-- `RouteMap::buildProto`. The source walks a hash table, and no two of its routes have one key,
so that the order is of no consequence. -/
def RouteMap.buildProto (m : RouteMap) : List RouteProto := m.rows.map fun row => row.2.buildProto

/-- `RouteMap::parseFromProto`. -/
def RouteMap.parseFromProto (m : RouteMap) (protos : List RouteProto) : RouteMap :=
  protos.foldl (fun m p => m.insert p.type p.toRoute) m

/-- `protos::ClusterConfiguration()`. -/
def ClusterConfiguration.blank : ClusterConfiguration := ⟨0, [], [], [], []⟩

/-- `ClusterInfo::hasJointMembers`. -/
def ClusterInfo.hasJointMembers (info : ClusterInfo) : Prop :=
  info.oldJointMembers.isEmpty = false ∧ info.newJointMembers.isEmpty = false

instance (info : ClusterInfo) : Decidable info.hasJointMembers :=
  inferInstanceAs (Decidable (_ ∧ _))

/-- `ClusterInfo::syncToProto`. -/
def ClusterInfo.syncToProto (info : ClusterInfo) : ClusterConfiguration where
  clusterId := info.clusterId
  members := info.nodes.rows.map fun row =>
    ⟨row.1, row.2.hostName, row.2.portForRaft, row.2.initialRole⟩
  oldMemberIds := if info.hasJointMembers then info.oldJointMembers.elems else []
  newMemberIds := if info.hasJointMembers then info.newJointMembers.elems else []
  inSyncLearners := info.insyncLearners.elems

namespace CtrlState

/-- `CtrlState::buildProto`. -/
def buildProto (s : CtrlState) : SplitState where
  routes := s.routeMap.buildProto
  epoch := s.epoch
  planId := s.planId
  clusterId := s.clusterId
  startIndex := s.startIndex
  clusterVersion := s.clusterVersion
  clusterConfiguration := some s.clusterConfiguration.syncToProto
  clusterReconfigureIndex := s.clusterReconfigureIndex

/-- `CtrlState::encodeToString`. -/
def encodeToString (F : StateFormat) (s : CtrlState) : List UInt8 := F.serialize s.buildProto

/-- `CtrlState::decodeFromString`, on the cluster `groupId`. -/
def decodeFromString (F : StateFormat) (groupId : ℕ) (view : List UInt8) (t : CtrlState) :
    CtrlState :=
  if view = [] then t
  else
    let state := F.parse view
    let t :=
      if state.clusterId = groupId then
        { t with
          routeMap := t.routeMap.parseFromProto state.routes
          planId := state.planId
          clusterId := state.clusterId
          epoch := state.epoch
          startIndex := state.startIndex }
      else t
    { t with
      clusterVersion := state.clusterVersion
      clusterConfiguration :=
        (state.clusterConfiguration.getD ClusterConfiguration.blank).syncFromProto
      clusterReconfigureIndex := state.clusterReconfigureIndex }

/-! ## States that events lead to -/

/-- A state as it is constructed. Its cluster id, its start index and the cluster id of its
configuration are whatever the memory holds. -/
structure Initial (s : CtrlState) : Prop where
  routeMap : s.routeMap = Table.empty
  epoch : s.epoch = 0
  planId : s.planId = ""
  clusterVersion : s.clusterVersion = 0
  clusterId : s.clusterConfiguration.clusterId < 2 ^ 32
  nodes : s.clusterConfiguration.nodes = Table.empty
  oldJointMembers : s.clusterConfiguration.oldJointMembers = IdSet.empty
  newJointMembers : s.clusterConfiguration.newJointMembers = IdSet.empty
  insyncLearners : s.clusterConfiguration.insyncLearners = IdSet.empty
  clusterReconfigureIndex : s.clusterReconfigureIndex = 0

/-- Applying events whose requests satisfy `P` leads to the state, on the cluster `groupId`. -/
inductive Reached (groupId : ℕ) (P : CtrlRequest → Prop) : CtrlState → Prop
  | initial {s : CtrlState} (h : s.Initial) : Reached groupId P s
  | apply {s s' : CtrlState} {e : CtrlEvent} (hs : Reached groupId P s) (hP : P e.request)
      (h : e.apply groupId s = some s') : Reached groupId P s'

/-- What states that events lead to have in common: a route is kept under its type, and the
configuration can be decoded. -/
structure Regular (s : CtrlState) : Prop where
  type : ∀ type route, s.routeMap.find? type = some route → route.type = type
  clusterId : s.clusterConfiguration.clusterId < 2 ^ 32
  port : ∀ id node, s.clusterConfiguration.nodes.find? id = some node → node.portForRaft ≠ 0

end CtrlState

theorem Member.raftPort_ne_zero (m : Member) : m.raftPort ≠ 0 := by
  rw [raftPort]
  split
  · decide
  · assumption

namespace RouteMap

variable {m : RouteMap} {p : RouteProto}

theorem type_applyRoute (h : ∀ type route, m.find? type = some route → route.type = type) :
    ∀ type route, (m.applyRoute p.type p.toRoute).find? type = some route →
      route.type = type := by
  intro type route hfind
  rw [applyRoute] at hfind
  split at hfind
  · by_cases htype : type = p.type
    · rw [htype, Table.find?_erase_self] at hfind
      cases hfind
    · exact h type route (Table.find?_erase_of_ne m htype ▸ hfind)
  · rw [Table.find?_insert] at hfind
    split at hfind
    · next htype =>
      cases hfind
      exact htype
    · exact h type route hfind

theorem type_applyRoutes (impacts : List Impact) :
    ∀ type route, (applyRoutes Table.empty impacts).find? type = some route →
      route.type = type := by
  induction impacts using List.reverseRecOn with
  | nil => exact fun _ _ hfind => nomatch hfind
  | append_singleton impacts i ih =>
    rw [applyRoutes, List.foldl_append, List.foldl_cons, List.foldl_nil]
    exact type_applyRoute ih

end RouteMap

namespace SplitRequest

variable {r : SplitRequest} {groupId commandId : ℕ} {s s' : CtrlState}

theorem applyImpacts_configuration {is : List Impact} {b b' : Bool}
    (h : applyImpacts groupId commandId is s b = some (s', b')) :
    s'.clusterConfiguration = s.clusterConfiguration := by
  induction is generalizing s b with
  | nil =>
    cases h
    rfl
  | cons i is ih =>
    rw [applyImpacts] at h
    split at h
    · obtain ⟨t, ht, h⟩ := Option.bind_eq_some_iff.mp h
      exact (ih h).trans (applyImpact_eq ht).2
    · exact ih h

/-- A split leaves the configuration. -/
theorem apply_configuration (h : r.apply groupId commandId s = some s') :
    s'.clusterConfiguration = s.clusterConfiguration := by
  rw [apply] at h
  obtain ⟨⟨t, b⟩, ht, h⟩ := Option.bind_eq_some_iff.mp h
  have hconf : t.clusterConfiguration = s.clearRoutes.clusterConfiguration :=
    applyImpacts_configuration ht
  cases h
  cases b with
  | false => exact hconf
  | true => exact hconf

/-- The routes after a split are those of its impacts. -/
theorem apply_routeMap (h : r.apply groupId commandId s = some s') :
    s'.routeMap = RouteMap.applyRoutes Table.empty (r.impactsOn groupId) := by
  rw [apply] at h
  obtain ⟨⟨t, b⟩, ht, h⟩ := Option.bind_eq_some_iff.mp h
  have hroutes := (applyImpacts_eq ht).1
  cases h
  cases b with
  | false => exact hroutes
  | true => exact hroutes

end SplitRequest

namespace CtrlState

variable {groupId : ℕ} {P : CtrlRequest → Prop} {s s' t : CtrlState}

theorem Initial.regular (h : s.Initial) : s.Regular where
  type := by
    rw [h.routeMap]
    exact fun _ _ hfind => nomatch hfind
  clusterId := h.clusterId
  port := by
    rw [h.nodes]
    exact fun _ _ hfind => nomatch hfind

/-- One event. -/
theorem Regular.apply (hs : s.Regular) {e : CtrlEvent} (h : e.apply groupId s = some s') :
    s'.Regular := by
  rw [CtrlEvent.apply] at h
  split at h
  · constructor
    · rw [SplitRequest.apply_routeMap h]
      exact RouteMap.type_applyRoutes _
    · rw [SplitRequest.apply_configuration h]
      exact hs.clusterId
    · rw [SplitRequest.apply_configuration h]
      exact hs.port
  · cases h
    constructor
    · exact hs.type
    · exact Nat.mod_lt _ (by decide)
    · intro id node hnode
      obtain ⟨m, -, -, rfl⟩ := ClusterConfiguration.find?_syncFromProto hnode
      exact m.raftPort_ne_zero

theorem Reached.regular (h : Reached groupId P s) : s.Regular := by
  induction h with
  | initial h => exact h.regular
  | apply _ _ h ih => exact ih.apply h

end CtrlState

/-! ## What is read back -/

@[simp] theorem idsOf_elems (ids : IdSet) : idsOf ids.elems = ids :=
  IdSet.ext fun _ => mem_idsOf

@[simp] theorem Route.toRoute_buildProto (r : Route) : r.buildProto.toRoute = r := by
  rw [RouteProto.toRoute, buildProto, idsOf_elems]

/-- **The routes of a message are added**: a type that it does not have keeps its route. -/
theorem RouteMap.find?_parseFromProto {m : RouteMap}
    (htype : ∀ type route, m.find? type = some route → route.type = type) (m' : RouteMap)
    (type : ℕ) :
    (m'.parseFromProto m.buildProto).find? type = (m.find? type).or (m'.find? type) := by
  have hfold : m'.parseFromProto m.buildProto = m'.insertAll m.rows := by
    rw [parseFromProto, buildProto, List.foldl_map, Table.insertAll]
    refine List.foldl_ext _ _ _ fun m'' row hrow => ?_
    rw [Route.toRoute_buildProto]
    congr 1
    exact htype row.1 row.2 (Table.mem_rows.mp hrow)
  rw [hfold, Table.find?_insertAll_rows]

namespace ClusterInfo

variable {info : ClusterInfo}

/-- Old and new joint members are there, or neither. -/
def Balanced (info : ClusterInfo) : Prop :=
  info.oldJointMembers.isEmpty = info.newJointMembers.isEmpty

instance : Decidable info.Balanced := inferInstanceAs (Decidable (_ = _))

/-- The configuration without joint members, unless it has old and new ones. -/
def balance (info : ClusterInfo) : ClusterInfo :=
  { info with
    oldJointMembers := if info.hasJointMembers then info.oldJointMembers else IdSet.empty
    newJointMembers := if info.hasJointMembers then info.newJointMembers else IdSet.empty }

theorem balance_eq_self_iff : info.balance = info ↔ info.Balanced := by
  have hempty : ∀ ids : IdSet, ids.isEmpty = true → ids = IdSet.empty := fun ids h =>
    IdSet.ext fun k => by rw [IdSet.mem_def, List.isEmpty_iff.mp h, IdSet.mem_def, IdSet.empty]
  rw [Balanced]
  by_cases hjoint : info.hasJointMembers
  · rw [hjoint.1, hjoint.2, balance, if_pos hjoint, if_pos hjoint]
    exact iff_of_true rfl rfl
  · rw [balance, if_neg hjoint, if_neg hjoint]
    constructor
    · intro h
      rw [← congrArg oldJointMembers h, ← congrArg newJointMembers h]
    · intro h
      -- one of the two is empty, so both are
      have hold : info.oldJointMembers.isEmpty = true := by
        by_contra hold
        rw [Bool.not_eq_true] at hold
        exact hjoint ⟨hold, h ▸ hold⟩
      have hnew : info.newJointMembers.isEmpty = true := h ▸ hold
      calc { info with oldJointMembers := IdSet.empty, newJointMembers := IdSet.empty }
          = ⟨info.clusterId, info.nodes, info.oldJointMembers, info.newJointMembers,
              info.insyncLearners⟩ := by rw [hempty _ hold, hempty _ hnew]
        _ = info := rfl

/-- **The configuration is read back**, except for joint members of one kind only. -/
theorem syncFromProto_syncToProto (hid : info.clusterId < 2 ^ 32)
    (hport : ∀ id node, info.nodes.find? id = some node → node.portForRaft ≠ 0) :
    info.syncToProto.syncFromProto = info.balance := by
  have hnodes : info.syncToProto.syncFromProto.nodes = info.nodes := by
    have hfold : info.syncToProto.syncFromProto.nodes = Table.empty.insertAll info.nodes.rows := by
      rw [ClusterConfiguration.syncFromProto, syncToProto, List.foldl_map, Table.insertAll]
      refine List.foldl_ext _ _ _ fun t row hrow => ?_
      have hne := hport row.1 row.2 (Table.mem_rows.mp hrow)
      simp only [Member.raftPort, if_neg hne]
    rw [hfold, Table.insertAll_empty]
  have hids : ∀ ids : IdSet, idsOf (if info.hasJointMembers then ids.elems else []) =
      if info.hasJointMembers then ids else IdSet.empty := by
    intro ids
    split
    · exact idsOf_elems ids
    · rfl
  have hall : info.syncToProto.syncFromProto =
      ⟨info.clusterId % 2 ^ 32, info.syncToProto.syncFromProto.nodes,
        idsOf (if info.hasJointMembers then info.oldJointMembers.elems else []),
        idsOf (if info.hasJointMembers then info.newJointMembers.elems else []),
        idsOf info.insyncLearners.elems⟩ := rfl
  rw [hall, hnodes, hids, hids, idsOf_elems, Nat.mod_eq_of_lt hid]
  rfl

end ClusterInfo

namespace CtrlState

variable {groupId : ℕ} {P : CtrlRequest → Prop} {s s' t : CtrlState}

/-- A state is never encoded as no bytes. -/
theorem encodeToString_ne_nil (F : StateFormat) : s.encodeToString F ≠ [] := by
  intro h
  have hblank := F.parse_serialize s.buildProto
  rw [show F.serialize s.buildProto = [] from h, F.parse_nil] at hblank
  cases congrArg SplitState.clusterConfiguration hblank

/-- **What is read back** into a state: everything, on top of the routes that are there. -/
theorem decode_encode (F : StateFormat) (hs : s.Regular) :
    t.decodeFromString F s.clusterId (s.encodeToString F) =
      { s with
        routeMap := t.routeMap.parseFromProto s.routeMap.buildProto
        clusterConfiguration := s.clusterConfiguration.balance } := by
  have hparse : F.parse (s.encodeToString F) = s.buildProto := F.parse_serialize _
  rw [decodeFromString, if_neg (encodeToString_ne_nil F), hparse,
    ← ClusterInfo.syncFromProto_syncToProto hs.clusterId hs.port]
  simp only [buildProto, if_true, Option.getD_some]

/-- The routes are those of the message, if no other type had one. -/
theorem parseFromProto_eq_self_iff (hs : s.Regular) :
    t.routeMap.parseFromProto s.routeMap.buildProto = s.routeMap ↔
      ∀ type ∈ t.routeMap.keys, type ∈ s.routeMap.keys := by
  have hfind := RouteMap.find?_parseFromProto hs.type t.routeMap
  constructor
  · intro h type htype
    obtain ⟨route, hroute⟩ := Table.mem_keys.mp htype
    rw [h] at hfind
    by_contra hnot
    have hnone := hfind type
    rw [Table.find?_eq_none.mpr hnot, hroute] at hnone
    cases hnone
  · intro h
    refine Table.ext fun type => ?_
    rw [hfind]
    by_cases htype : type ∈ s.routeMap.keys
    · obtain ⟨route, hroute⟩ := Table.mem_keys.mp htype
      rw [hroute, Option.some_or]
    · rw [Table.find?_eq_none.mpr htype, Option.none_or]
      exact Table.find?_eq_none.mpr fun hold => htype (h type hold)

end CtrlState

open CtrlState in
/-- **The control state survives its encoding** exactly when the state that is decoded into has no
route of a type that the encoded state has none of, and the encoded state has old and new joint
members or neither. Then the decoded state is the encoded one, in every field. -/
theorem ctrl_state_survives_iff (F : StateFormat) {groupId : ℕ} {s : CtrlState}
    (hs : Reached groupId (fun _ => True) s) (hid : s.clusterId = groupId) (t : CtrlState) :
    t.decodeFromString F groupId (s.encodeToString F) = s ↔
      (∀ type ∈ t.routeMap.keys, type ∈ s.routeMap.keys) ∧ s.clusterConfiguration.Balanced := by
  rw [← hid, decode_encode F hs.regular, ← parseFromProto_eq_self_iff hs.regular,
    ← ClusterInfo.balance_eq_self_iff]
  constructor
  · intro h
    exact ⟨congrArg CtrlState.routeMap h, congrArg CtrlState.clusterConfiguration h⟩
  · rintro ⟨hroutes, hconf⟩
    rw [hroutes, hconf]

/-! ## Events of accepted commands -/

theorem isEmpty_idsOf (ids : List ℕ) : (idsOf ids).isEmpty = ids.isEmpty := by
  rw [Bool.eq_iff_iff, IdSet.isEmpty, List.isEmpty_iff, List.isEmpty_iff,
    List.eq_nil_iff_forall_not_mem, List.eq_nil_iff_forall_not_mem]
  exact forall_congr' fun k => not_congr mem_idsOf

/-- A request that is accepted has old and new joint members or neither. -/
theorem ReconfigureRequest.balanced {r : ReconfigureRequest} {groupId : ℕ}
    (h : r.verifyCommand groupId = verifiedSuccess) : r.configuration.syncFromProto.Balanced := by
  change (idsOf _).isEmpty = (idsOf _).isEmpty
  rw [isEmpty_idsOf, isEmpty_idsOf]
  exact (checked_of_verifyCommand h).2.2.1.symm

/-- **Events of accepted commands** lead to states with old and new joint members or neither. -/
theorem CtrlState.Reached.balanced {groupId : ℕ} {s : CtrlState}
    (h : Reached groupId (fun request => ∀ r, request = .reconfigure r →
      r.verifyCommand groupId = ReconfigureRequest.verifiedSuccess) s) :
    s.clusterConfiguration.Balanced := by
  induction h with
  | initial h => rw [ClusterInfo.Balanced, h.oldJointMembers, h.newJointMembers]
  | @apply s s' e _ haccepted h ih =>
    rw [CtrlEvent.apply] at h
    cases hr : e.request with
    | split r =>
      rw [hr] at h
      rw [SplitRequest.apply_configuration h]
      exact ih
    | reconfigure r =>
      rw [hr] at h
      cases h
      exact ReconfigureRequest.balanced (haccepted r hr)

/-! ## A format -/

namespace Scenario

/-- Texts, by the numbers of their characters. -/
def textFraming : Framing String :=
  nat.list.map (fun s => s.toList.map Char.toNat)
    (fun ns => String.ofList (ns.map Char.ofNat)) fun s => by
      simp [Function.comp_def, String.ofList_toList]

def routeFraming : Framing RouteProto :=
  (nat.pair (nat.list.pair nat)).map
    (fun p => (p.type, p.groups, p.groupTotal)) (fun x => ⟨x.1, x.2.1, x.2.2⟩) fun _ => rfl

/-- The numbers of the roles. -/
def roleFraming : Framing InitialRaftRole :=
  nat.map
    (fun | .voter => 0 | .learner => 1 | .preFollower => 2 | .unnamed n => n + 3)
    (fun | 0 => .voter | 1 => .learner | 2 => .preFollower | n + 3 => .unnamed n)
    fun role => by cases role <;> rfl

def memberFraming : Framing Member :=
  (nat.pair (textFraming.pair (nat.pair roleFraming))).map
    (fun m => (m.id, m.address, m.port, m.role)) (fun x => ⟨x.1, x.2.1, x.2.2.1, x.2.2.2⟩)
    fun _ => rfl

def configurationFraming : Framing ClusterConfiguration :=
  (nat.pair (memberFraming.list.pair (nat.list.pair
    (nat.list.pair nat.list)))).map
    (fun c => (c.clusterId, c.members, c.oldMemberIds, c.newMemberIds, c.inSyncLearners))
    (fun x => ⟨x.1, x.2.1, x.2.2.1, x.2.2.2.1, x.2.2.2.2⟩) fun _ => rfl

def stateFraming : Framing SplitState :=
  (routeFraming.list.pair (nat.pair (textFraming.pair (nat.pair
    (nat.pair (nat.pair (configurationFraming.option.pair nat))))))).map
    (fun s => (s.routes, s.epoch, s.planId, s.clusterId, s.startIndex, s.clusterVersion,
      s.clusterConfiguration, s.clusterReconfigureIndex))
    (fun x => ⟨x.1, x.2.1, x.2.2.1, x.2.2.2.1, x.2.2.2.2.1, x.2.2.2.2.2.1, x.2.2.2.2.2.2.1,
      x.2.2.2.2.2.2.2⟩) fun _ => rfl

/-- A format in which no bytes are the message without any field. -/
def stateFormat : StateFormat where
  serialize := stateFraming.toCodec.serialize
  parse bytes := (stateFraming.toCodec.parse bytes).getD SplitState.blank
  parse_serialize state := by rw [Codec.parse_serialize, Option.getD_some]
  parse_nil := rfl

/-- A state as it is constructed, in memory that is zero. -/
def constructed : CtrlState :=
  ⟨Table.empty, 0, "", 0, 0, 0, ⟨0, Table.empty, IdSet.empty, IdSet.empty, IdSet.empty⟩, 0⟩

theorem constructed_initial : constructed.Initial :=
  ⟨rfl, rfl, rfl, rfl, by decide, rfl, rfl, rfl, rfl, rfl⟩

/-- A split that gives the cluster `0` the groups `1` and `2` of type `7`. -/
def groupsOfSeven : CtrlEvent :=
  ⟨zeroed, .split ⟨5, "plan", [⟨⟨7, [1, 2], 2⟩, 0, false⟩]⟩⟩

/-- The state after that split. -/
def servesSeven : CtrlState := (groupsOfSeven.apply 0 constructed).getD constructed

theorem servesSeven_reached : CtrlState.Reached 0 (fun _ => True) servesSeven :=
  .apply (.initial constructed_initial) (e := groupsOfSeven) trivial rfl

/-- A state that serves the group `1` of type `8`. -/
def servesEight : CtrlState :=
  { constructed with routeMap := Table.empty.insert 8 ⟨idsOf [1], 4, 8⟩, epoch := 1 }

end Scenario

/-- **An old route survives.** The cluster `0` serves groups of type `7` only, and its state is
decoded into a state that serves a group of type `8`. The result serves both. -/
theorem old_route_survives :
    CtrlState.Reached 0 (fun _ => True) servesSeven ∧
      servesSeven.clusterId = 0 ∧ ¬ servesSeven.hasGroup 8 1 ∧
      (servesEight.decodeFromString stateFormat 0
        (servesSeven.encodeToString stateFormat)).hasGroup 8 1 := by
  refine ⟨servesSeven_reached, rfl, by decide +kernel, ?_⟩
  have hid : servesSeven.clusterId = 0 := rfl
  rw [← hid, CtrlState.decode_encode _ servesSeven_reached.regular]
  decide +kernel

theorem ctrl_state_survives_iff_constructed :
    constructed.decodeFromString stateFormat 0
      (servesSeven.encodeToString stateFormat) = servesSeven := by
  refine (ctrl_state_survives_iff stateFormat servesSeven_reached rfl
    constructed).mpr ⟨?_, by decide +kernel⟩
  exact fun type htype => absurd htype List.not_mem_nil

end Gringofts
