import Gringofts.App.ReconfigureCommand

/-!
# The control state and its commands

Control commands change which groups a cluster serves (`SplitCommand`) and which nodes it has
(`ReconfigureCommand`). Processing one yields at most one event, and only an event changes the
`CtrlState`.

An event is created without an id and without the id of its command: both are written into its
metadata when the event is persisted, and until then the memory holds whatever it held before. Two
fields of the state are made from the command id, the start index of a new cluster and the index of
the last reconfiguration, so that `apply` reads it.

## Main definitions

* `CtrlState` — routes, epoch, plan, start index and configuration
* `SplitRequest.verifyCommand`, `SplitRequest.process` — the checks of a split
* `EventMetaData.fresh` — the metadata of an event that has not been persisted
* `CtrlEvent.apply` — what an event does to the state

## Main results

* `SplitRequest.apply_eq_none_iff` — when applying a split fails
* `CtrlEvent.apply_congr`, `CtrlEvent.commandId_eq` — of the metadata only the command id matters,
  and only for some events
-/

namespace Gringofts

variable {groupId commandId : ℕ} {impacted : Bool}

/-! ## Routes -/

/-- `protos::Route`. -/
structure RouteProto where
  type : ℕ
  groups : List ℕ
  groupTotal : ℕ
  deriving DecidableEq

/-- `Route`. -/
structure Route where
  groups : IdSet
  groupTotal : ℕ
  type : ℕ

/-- `Route(proto)`. -/
def RouteProto.toRoute (p : RouteProto) : Route := ⟨idsOf p.groups, p.groupTotal, p.type⟩

/-- `RouteMap`: routes by their type. -/
abbrev RouteMap := Table Route

/-- `RouteMap::applyRoute`. A route without groups removes the old one. -/
def RouteMap.applyRoute (m : RouteMap) (type : ℕ) (route : Route) : RouteMap :=
  if route.groups.isEmpty then m.erase type else m.insert type route

/-- `RouteMap::hasGroup`. -/
def RouteMap.hasGroup (m : RouteMap) (type group : ℕ) : Prop :=
  match m.find? type with
  | none => False
  | some route => group ∈ route.groups

instance (m : RouteMap) (type group : ℕ) : Decidable (m.hasGroup type group) :=
  match h : m.find? type with
  | none => .isFalse fun hg => by rwa [RouteMap.hasGroup, h] at hg
  | some route => decidable_of_iff (group ∈ route.groups) (by rw [RouteMap.hasGroup, h])

/-! ## State -/

/-- `CtrlState`. -/
structure CtrlState where
  routeMap : RouteMap
  epoch : ℕ
  planId : String
  clusterId : ℕ
  startIndex : ℕ
  clusterVersion : ℕ
  clusterConfiguration : ClusterInfo
  /-- The raft index of the reconfigure command. -/
  clusterReconfigureIndex : ℕ

namespace CtrlState

variable (s : CtrlState)

/-- `hasSplitState`. -/
def hasSplitState : Prop := 0 < s.epoch

instance : Decidable s.hasSplitState := inferInstanceAs (Decidable (_ < _))

/-- `setClusterConfiguration`. -/
def setClusterConfiguration (version : ℕ) (configuration : ClusterInfo) (switchIndex : ℕ) :
    CtrlState :=
  { s with
    clusterVersion := version
    clusterConfiguration := configuration
    clusterReconfigureIndex := switchIndex }

/-- `applyRoute`. -/
def applyRoute (p : RouteProto) : CtrlState :=
  { s with routeMap := s.routeMap.applyRoute p.type p.toRoute }

/-- `hasGroup`. -/
def hasGroup (type group : ℕ) : Prop := s.routeMap.hasGroup type group

instance (type group : ℕ) : Decidable (s.hasGroup type group) :=
  inferInstanceAs (Decidable (s.routeMap.hasGroup type group))

/-- `clearRoutes`. -/
def clearRoutes : CtrlState := { s with routeMap := Table.empty }

end CtrlState

/-! ## Splits -/

/-- `protos::Impact`. -/
structure Impact where
  route : RouteProto
  clusterId : ℕ
  newCluster : Bool
  deriving DecidableEq

/-- `protos::Scale::SplitRequest`. -/
structure SplitRequest where
  epoch : ℕ
  planId : String
  impacts : List Impact
  deriving DecidableEq

namespace SplitRequest

variable (r : SplitRequest)

/-- The inner loop of `verifyCommand`: no group occurs twice under one type. -/
def verifyGroups (type : ℕ) : List ℕ → IdSet → Except String IdSet
  | [], seen => pure seen
  | group :: groups, seen =>
    if group ∈ seen then
      .error ("duplicated group :" ++ toString group ++ "with type " ++ toString type)
    else verifyGroups type groups (seen.insert group)

/-- The outer loop of `verifyCommand`, with the totals and the groups seen so far. -/
def verifyImpacts : List Impact → Table ℕ → Table IdSet → Except String Unit
  | [], _, _ => pure ()
  | impact :: impacts, groupTotals, groups => do
    let route := impact.route
    let groupTotal := (groupTotals.find? route.type).getD 0
    if 0 < groupTotal ∧ groupTotal ≠ route.groupTotal then
      .error ("group total should be same with " ++ toString groupTotal)
    else
      let seen ← verifyGroups route.type route.groups
        ((groups.find? route.type).getD IdSet.empty)
      verifyImpacts impacts (groupTotals.insert route.type route.groupTotal)
        (groups.insert route.type seen)

/-- `SplitCommand::verifyCommand`. -/
def verifyCommand : String :=
  if r.planId.isEmpty then "planId is empty"
  else if r.epoch = 0 then "epoch should greater than 0"
  else
    match verifyImpacts r.impacts Table.empty Table.empty with
    | .error message => message
    | .ok _ => ReconfigureRequest.verifiedSuccess

/-- `SplitCommand::process`: the hint, and whether an event is emitted. -/
def process (s : CtrlState) : ProcessHint × Bool :=
  if s.hasSplitState ∧ r.epoch < s.epoch then
    (⟨400, "epoch should be greater than " ++ toString s.epoch⟩, false)
  else if s.hasSplitState ∧ r.epoch = s.epoch then
    if r.planId = s.planId then (⟨201, "deduped"⟩, false)
    else (⟨400, "plan id should be " ++ s.planId⟩, false)
  else (⟨200, "ok"⟩, true)

/-- One round of the loop in `SplitEvent::apply`, for an impact on this cluster. Only a cluster
other than `0` may be new. -/
def applyImpact (commandId : ℕ) (i : Impact) (s : CtrlState) : Option CtrlState :=
  let s := { s.applyRoute i.route with clusterId := i.clusterId }
  if i.newCluster then
    if i.clusterId = 0 then none
    else some { s with startIndex := (commandId + 1) % 2 ^ 64 }
  else some s

/-- The loop of `SplitEvent::apply`: the state, and whether this cluster is impacted. -/
def applyImpacts (groupId commandId : ℕ) :
    List Impact → CtrlState → Bool → Option (CtrlState × Bool)
  | [], s, impacted => some (s, impacted)
  | i :: is, s, impacted =>
    if i.clusterId = groupId then do
      let s ← applyImpact commandId i s
      applyImpacts groupId commandId is s true
    else applyImpacts groupId commandId is s impacted

/-- `SplitEvent::apply`, on the cluster `groupId`. `none` is a failed assertion. -/
def apply (groupId commandId : ℕ) (s : CtrlState) : Option CtrlState := do
  let (s, impacted) ← applyImpacts groupId commandId r.impacts s.clearRoutes false
  pure (if impacted then { s with epoch := r.epoch, planId := r.planId } else s)

/-- The split makes this cluster a new one. -/
def Founds (groupId : ℕ) : Prop := ∃ i ∈ r.impacts, i.clusterId = groupId ∧ i.newCluster = true

instance (groupId : ℕ) : Decidable (r.Founds groupId) :=
  inferInstanceAs (Decidable (∃ i ∈ r.impacts, _))

end SplitRequest

/-! ## Events -/

/-- `EventMetaData`. -/
structure EventMetaData where
  id : ℕ
  type : ℕ
  commandId : ℕ
  createdTimeInNanos : ℕ
  creatorId : ℕ
  groupId : ℕ
  groupVersion : ℕ
  trackingContext : String
  deriving DecidableEq

/-- The constructor of `Event` sets the type and the time and leaves the other numbers as they are
in the memory the event is created in. -/
def EventMetaData.fresh (memory : EventMetaData) (type createdTimeInNanos : ℕ) : EventMetaData :=
  { memory with type := type, createdTimeInNanos := createdTimeInNanos, trackingContext := "" }

/-- The request an event carries, and by that its class. -/
inductive CtrlRequest
  | split (r : SplitRequest)
  | reconfigure (r : ReconfigureRequest)

/-- `SPILT_EVENT`, `RECONFIGURE_EVENT`, and the types of the commands, which are the same. -/
def CtrlRequest.type : CtrlRequest → ℕ
  | .split _ => 101
  | .reconfigure _ => 103

/-- `CtrlEvent`. -/
structure CtrlEvent where
  metaData : EventMetaData
  request : CtrlRequest

namespace CtrlEvent

/-- `apply`, on the cluster `groupId`. -/
def apply (groupId : ℕ) (e : CtrlEvent) (s : CtrlState) : Option CtrlState :=
  match e.request with
  | .split r => r.apply groupId e.metaData.commandId s
  | .reconfigure r =>
    some (s.setClusterConfiguration r.version r.configuration.syncFromProto e.metaData.commandId)

/-- Apply events one after the other. -/
def applyAll (groupId : ℕ) : List CtrlEvent → CtrlState → Option CtrlState
  | [], s => some s
  | e :: es, s => do applyAll groupId es (← e.apply groupId s)

end CtrlEvent

/-- What the state becomes depends on the id of the command: a reconfiguration records it, and a
split records it where it founds this cluster. -/
def CtrlRequest.RecordsCommandId (groupId : ℕ) : CtrlRequest → Prop
  | .split r => r.Founds groupId
  | .reconfigure _ => True

instance (groupId : ℕ) (r : CtrlRequest) : Decidable (r.RecordsCommandId groupId) :=
  match r with
  | .split r => inferInstanceAs (Decidable (r.Founds groupId))
  | .reconfigure _ => inferInstanceAs (Decidable True)

namespace SplitRequest

/-- Where no impact founds this cluster, the command id is not read. -/
theorem applyImpacts_congr {a b : ℕ} {is : List Impact}
    (h : ∀ i ∈ is, ¬ (i.clusterId = groupId ∧ i.newCluster = true)) (s : CtrlState) (c : Bool) :
    applyImpacts groupId a is s c = applyImpacts groupId b is s c := by
  induction is generalizing s c with
  | nil => rfl
  | cons i is ih =>
    have hrest := fun j hj => h j (List.mem_cons_of_mem _ hj)
    simp only [applyImpacts]
    split
    · next hid =>
      have hnew : i.newCluster = false := by
        have hfounds := h i List.mem_cons_self
        simpa [hid] using hfounds
      simp only [applyImpact, hnew, Bool.false_eq_true, if_false]
      exact ih hrest _ true
    · exact ih hrest s c

theorem apply_congr {r : SplitRequest} (h : ¬ r.Founds groupId) (a b : ℕ) (s : CtrlState) :
    r.apply groupId a s = r.apply groupId b s := by
  rw [apply, apply, applyImpacts_congr (b := b) fun i hi hfounds => h ⟨i, hi, hfounds⟩]

theorem applyImpact_eq_none {i : Impact} {s : CtrlState} :
    applyImpact commandId i s = none ↔ i.newCluster = true ∧ i.clusterId = 0 := by
  rw [applyImpact]
  cases i.newCluster with
  | false => simp
  | true => by_cases hid : i.clusterId = 0 <;> simp [hid]

/-- The loop fails exactly on an impact that founds the cluster `0` there. -/
theorem applyImpacts_eq_none {is : List Impact} {s : CtrlState} :
    applyImpacts groupId commandId is s impacted = none ↔
      groupId = 0 ∧ ∃ i ∈ is, i.clusterId = groupId ∧ i.newCluster = true := by
  induction is generalizing s impacted with
  | nil => simp [applyImpacts]
  | cons i is ih =>
    rw [applyImpacts, List.exists_mem_cons_iff]
    split
    · next hid =>
      cases hi : applyImpact commandId i s with
      | none =>
        obtain ⟨hnew, hzero⟩ := applyImpact_eq_none.mp hi
        exact iff_of_true rfl ⟨hid ▸ hzero, Or.inl ⟨hid, hnew⟩⟩
      | some s' =>
        have hok : ¬ (i.newCluster = true ∧ i.clusterId = 0) := fun hcon => by
          rw [applyImpact_eq_none.mpr hcon] at hi
          cases hi
        change applyImpacts groupId commandId is s' true = none ↔ _
        rw [ih, hid] at *
        constructor
        · rintro ⟨hzero, h⟩
          exact ⟨hzero, Or.inr h⟩
        · rintro ⟨hzero, ⟨-, hnew⟩ | h⟩
          · exact absurd ⟨hnew, hzero⟩ hok
          · exact ⟨hzero, h⟩
    · next hid => simp [ih, hid]

/-- **Applying a split fails** on the cluster `0`, when the split calls it a new one. -/
theorem apply_eq_none_iff {r : SplitRequest} {s : CtrlState} :
    r.apply groupId commandId s = none ↔ groupId = 0 ∧ r.Founds 0 := by
  rw [apply, Option.bind_eq_bind, Option.bind_eq_none_iff]
  simp only [Option.pure_def, reduceCtorEq, imp_false, ← Option.eq_none_iff_forall_ne_some]
  rw [applyImpacts_eq_none, Founds]
  constructor
  · rintro ⟨rfl, h⟩
    exact ⟨rfl, h⟩
  · rintro ⟨rfl, h⟩
    exact ⟨rfl, h⟩

/-- The start index is set by the impacts that found this cluster. -/
theorem applyImpacts_startIndex {is : List Impact} {s : CtrlState} {x : CtrlState × Bool}
    (h : applyImpacts groupId commandId is s impacted = some x) :
    x.1.startIndex = if ∃ i ∈ is, i.clusterId = groupId ∧ i.newCluster = true then
      (commandId + 1) % 2 ^ 64 else s.startIndex := by
  induction is generalizing s impacted with
  | nil =>
    cases h
    rfl
  | cons i is ih =>
    rw [applyImpacts] at h
    simp only [List.exists_mem_cons_iff]
    split at h
    · next hid =>
      obtain ⟨s', hs', h⟩ := Option.bind_eq_some_iff.mp h
      have hstart : s'.startIndex =
          if i.newCluster = true then (commandId + 1) % 2 ^ 64 else s.startIndex := by
        rw [applyImpact] at hs'
        cases hnew : i.newCluster with
        | false =>
          rw [hnew] at hs'
          cases hs'
          rfl
        | true =>
          rw [hnew, if_pos rfl] at hs'
          split at hs'
          · cases hs'
          · cases hs'
            rfl
      rw [ih h, hstart]
      by_cases hnew : i.newCluster = true <;> simp [hid, hnew]
    · next hid => rw [ih h]; simp [hid]

theorem apply_startIndex {r : SplitRequest} {s s' : CtrlState} (hfounds : r.Founds groupId)
    (h : r.apply groupId commandId s = some s') : s'.startIndex = (commandId + 1) % 2 ^ 64 := by
  obtain ⟨⟨t, impacted⟩, ht, h⟩ := Option.bind_eq_some_iff.mp h
  have hstart := (applyImpacts_startIndex ht).trans (if_pos hfounds)
  cases h
  cases impacted with
  | false => exact hstart
  | true => exact hstart

end SplitRequest

/-- **What `apply` reads of the metadata** is the command id, and only for some events. -/
theorem CtrlEvent.apply_congr {e f : CtrlEvent} (hreq : e.request = f.request)
    (h : ¬ e.request.RecordsCommandId groupId ∨ e.metaData.commandId = f.metaData.commandId)
    (s : CtrlState) : e.apply groupId s = f.apply groupId s := by
  rw [apply, apply, ← hreq]
  cases hr : e.request with
  | split r =>
    rcases h with h | h
    · rw [hr] at h
      exact SplitRequest.apply_congr h _ _ s
    · simp only [h]
  | reconfigure r =>
    rcases h with h | h
    · rw [hr] at h
      exact absurd trivial h
    · simp only [h]

/-- An event that records the command id tells one id from another. -/
theorem CtrlEvent.commandId_eq {e f : CtrlEvent} {s s' : CtrlState} (hreq : e.request = f.request)
    (hrecords : e.request.RecordsCommandId groupId) (he : e.metaData.commandId < 2 ^ 64)
    (hf : f.metaData.commandId < 2 ^ 64) (hes : e.apply groupId s = some s')
    (hfs : f.apply groupId s = some s') : e.metaData.commandId = f.metaData.commandId := by
  rw [apply] at hes hfs
  cases hr : e.request with
  | split r =>
    rw [hr] at hes hrecords
    rw [← hreq, hr] at hfs
    have hstart := (SplitRequest.apply_startIndex hrecords hes).symm.trans
      (SplitRequest.apply_startIndex hrecords hfs)
    omega
  | reconfigure r =>
    rw [hr] at hes
    rw [← hreq, hr] at hfs
    exact congrArg CtrlState.clusterReconfigureIndex (Option.some.inj (hes.trans hfs.symm))

/-- Whether applying an event fails does not depend on the command id. -/
theorem CtrlEvent.exists_apply_of {e f : CtrlEvent} {s s' : CtrlState}
    (hreq : e.request = f.request) (h : e.apply groupId s = some s') :
    ∃ t, f.apply groupId s = some t := by
  rw [apply] at h
  rw [apply, ← hreq]
  cases hr : e.request with
  | split r =>
    rw [hr] at h
    refine Option.ne_none_iff_exists'.mp fun hnone => ?_
    have hfails := SplitRequest.apply_eq_none_iff.mp hnone
    cases h.symm.trans (SplitRequest.apply_eq_none_iff.mpr hfails)
  | reconfigure r => exact ⟨_, rfl⟩

end Gringofts
