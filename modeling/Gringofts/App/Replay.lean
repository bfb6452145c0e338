import Gringofts.App.CtrlState
import Gringofts.Lib.Codec

/-!
# Processing and replaying a control command

The leader applies the events of a command when it processes the command. Only after that the
command gets its id, which `persistAsync` writes into the metadata of the events, and the events go
into the log. A replica decodes them from there, with the id, and applies them. Its machine, the
one of the event apply loop, is also the one that announces an event after applying it: for a
reconfiguration the node looks for itself in the new configuration and enters that into `AppInfo`.

So the same event is applied at two moments of its life. Where `apply` reads the command id, the
leader reads memory that nobody has written: its control state and the one of the replicas differ
unless that memory happens to hold the right number.

How requests and payloads are turned into bytes is left open, `π` for what an entry of a payload
holds and `ρ` for what an entry of the log holds; all that is used is that they are read back.

## Main definitions

* `CommandProcessLoop.processCommand` — the leader
* `ReconfigureRequest.onApplied` — what follows the applying of a reconfiguration
* `Wire.replay` — a replica
* `Wire` — the encodings

## Main results

* `Wire.decodeEvent_encodeEvent` — an event is read back with its metadata
* `CommandProcessLoop.exists_entry` — what a command leaves in the log
* `replayed_state_eq_processed_iff`
* `reconfigure_index_drifts`
-/

namespace Gringofts

variable {e : CtrlEvent}

/-- `es::EventEntry`. -/
structure EventEntry (π : Type) where
  metaData : EventMetaData
  entry : π

/-- `CommandMetaData`, as far as it is persisted. -/
structure CommandMetaData where
  id : ℕ
  type : ℕ
  createdTimeInNanos : ℕ
  creatorId : ℕ
  groupId : ℕ
  groupVersion : ℕ
  trackingContext : String
  deriving DecidableEq

/-- `es::CommandEntry`. -/
structure CommandEntry (π : Type) where
  metaData : CommandMetaData
  entry : π

/-- `es::RaftPayload`. -/
structure RaftPayload (π : Type) where
  command : CommandEntry π
  events : List (EventEntry π)

/-- The encodings: of the two kinds of requests, and of a payload, with its encryption. -/
structure Wire (π ρ : Type) where
  split : Codec SplitRequest π
  reconfigure : Codec ReconfigureRequest π
  payload : Codec (RaftPayload π) ρ

/-- `CtrlCommand`. -/
structure CtrlCommand where
  metaData : CommandMetaData
  request : CtrlRequest

/-- `AppInfo`, as far as control commands read it. -/
structure AppInfo where
  groupId : ℕ
  clusterVersion : ℕ
  clusterInfo : ClusterInfo

namespace Wire

variable {π ρ : Type} (w : Wire π ρ)

/-- `encodeToString`. -/
def encodeRequest : CtrlRequest → π
  | .split r => w.split.serialize r
  | .reconfigure r => w.reconfigure.serialize r

/-- The switch over the type in `CtrlDecoderUtil::decodeEvent`. -/
def decodeRequest (type : ℕ) (entry : π) : Option CtrlRequest :=
  if type = 101 then (w.split.parse entry).map .split
  else if type = 103 then (w.reconfigure.parse entry).map .reconfigure
  else none

/-- `CommandEventEncodeWrapper::encodeCommand`. -/
def encodeCommand (c : CtrlCommand) : CommandEntry π := ⟨c.metaData, w.encodeRequest c.request⟩

/-- `CommandEventEncodeWrapper::encodeEvent`. -/
def encodeEvent (e : CtrlEvent) : EventEntry π := ⟨e.metaData, w.encodeRequest e.request⟩

/-- `CtrlDecoderUtil::decodeEvent`: the constructor sets type and time, `setPartialMetaData` the
rest. -/
def decodeEvent (e : EventEntry π) : Option CtrlEvent :=
  (w.decodeRequest e.metaData.type e.entry).map fun r => ⟨e.metaData, r⟩

/-- Decode the events of an entry of the log. -/
def decodeEvents (entry : ρ) : Option (List CtrlEvent) := do
  (← w.payload.parse entry).events.mapM w.decodeEvent

@[simp] theorem decodeRequest_encodeRequest (r : CtrlRequest) :
    w.decodeRequest r.type (w.encodeRequest r) = some r := by
  cases r with
  | split r => simp [decodeRequest, CtrlRequest.type, encodeRequest]
  | reconfigure r => simp [decodeRequest, CtrlRequest.type, encodeRequest]

/-- **An event is read back** as it was written, if its type is that of its request. -/
theorem decodeEvent_encodeEvent (h : e.metaData.type = e.request.type) :
    w.decodeEvent (w.encodeEvent e) = some e := by
  simp [decodeEvent, encodeEvent, h]

end Wire

namespace CtrlCommand

variable (c : CtrlCommand)

/-- `verifyCommand`. -/
def verifyCommand (app : AppInfo) : String :=
  match c.request with
  | .split r => r.verifyCommand
  | .reconfigure r => r.verifyCommand app.groupId

/-- `process`: the hint and the events. The events are created at `time`, in `memory`. -/
def process (app : AppInfo) (memory : EventMetaData) (time : ℕ) (s : CtrlState) :
    ProcessHint × List CtrlEvent :=
  let event : CtrlEvent := ⟨memory.fresh c.request.type time, c.request⟩
  match c.request with
  | .split r =>
    let (hint, emits) := r.process s
    (hint, if emits then [event] else [])
  | .reconfigure r =>
    match r.process s.clusterVersion app.clusterVersion s.clusterConfiguration app.clusterInfo with
    | .error hint => (hint, [])
    | .ok _ => (⟨200, "Success"⟩, [event])

/-- There is at most one event. It carries the request, and what the memory held. -/
theorem process_events (app : AppInfo) (memory : EventMetaData) (time : ℕ) (s : CtrlState) :
    (c.process app memory time s).2 = [] ∨
      (c.process app memory time s).2 = [⟨memory.fresh c.request.type time, c.request⟩] := by
  rw [process]
  split
  · simp only
    split
    · exact Or.inr rfl
    · exact Or.inl rfl
  · split
    · exact Or.inl rfl
    · exact Or.inr rfl

end CtrlCommand

/-- `AppStateMachine::processCommandAndApply`, on the machine of the command loop. -/
def AppInfo.processCommandAndApply (app : AppInfo) (memory : EventMetaData) (time : ℕ)
    (c : CtrlCommand) (s : CtrlState) : Option (ProcessHint × List CtrlEvent × CtrlState) := do
  let (hint, events) := c.process app memory time s
  let s ← CtrlEvent.applyAll app.groupId events s
  pure (hint, events, s)

/-- What `persistAsync` writes into the metadata of the events of a command. -/
def assignIds (commandId : ℕ) (events : List CtrlEvent) : List CtrlEvent :=
  events.mapIdx fun j e =>
    { e with metaData := { e.metaData with id := j, commandId := commandId } }

/-- The state of `CommandProcessLoop`. -/
structure CommandProcessLoop where
  lastCommandId : ℕ
  state : CtrlState

/-- `CommandProcessLoop::processCommand`, with what goes into the log: nothing, if there are no
events. -/
def CommandProcessLoop.processCommand {π ρ : Type} (w : Wire π ρ) (app : AppInfo)
    (memory : EventMetaData) (time : ℕ) (c : CtrlCommand) (loop : CommandProcessLoop) :
    Option (CommandProcessLoop × ProcessHint × Option ρ) := do
  let (hint, events, s) ← app.processCommandAndApply memory time c loop.state
  if events.isEmpty then
    pure ({ loop with state := s }, hint, none)
  else
    let commandId := (loop.lastCommandId + 1) % 2 ^ 64
    let c := { c with metaData := { c.metaData with id := commandId } }
    pure (⟨commandId, s⟩, hint, some (w.payload.serialize
      ⟨w.encodeCommand c, (assignIds commandId events).map w.encodeEvent⟩))

/-! ## Replicas -/

/-- What `deduceSelfNodeId` reads of its surroundings: the name of the host, and the number in
`MEMBERID`, without which it throws. -/
structure Host where
  hostName : String
  memberId : Option ℕ

/-- `deduceSelfNodeId`: it may throw, and it may find no node. -/
def ClusterInfo.deduceSelfNodeId (host : Host) (info : ClusterInfo) : Option (Option ℕ) :=
  match info.nodes.rows.find? fun row => row.2.hostName = host.hostName with
  | some row => some (some row.1)
  | none => host.memberId.map fun id => if id ∈ info.nodes.keys then some id else none

/-- `AppInfo::setClusterInfo`. `none` is a failed assertion. -/
def AppInfo.setClusterInfo (app : AppInfo) (version nodeId : ℕ) (info : ClusterInfo) :
    Option AppInfo :=
  if app.groupId = info.clusterId ∧ app.clusterVersion < version ∧ nodeId ≠ 0 then
    some { app with clusterVersion := version, clusterInfo := info }
  else none

/-- `ReconfigureEvent::onApplied`, up to the signals it sends. -/
def ReconfigureRequest.onApplied (host : Host) (r : ReconfigureRequest) (app : AppInfo) :
    Option AppInfo :=
  if r.version ≤ app.clusterVersion then some app
  else do
    match ← r.configuration.syncFromProto.deduceSelfNodeId host with
    | none => pure app
    | some nodeId => app.setClusterInfo r.version nodeId r.configuration.syncFromProto

namespace CtrlEvent

variable (host : Host)

/-- `onApplied`. -/
def onApplied (e : CtrlEvent) (app : AppInfo) : Option AppInfo :=
  match e.request with
  | .split _ => some app
  | .reconfigure r => r.onApplied host app

/-- `AppStateMachine::applyEvent`, on the machine of the event apply loop. -/
def applyEvent (e : CtrlEvent) (app : AppInfo) (s : CtrlState) : Option (AppInfo × CtrlState) := do
  let s ← e.apply app.groupId s
  let app ← e.onApplied host app
  pure (app, s)

/-- The events of an entry, one after the other. -/
def applyEvents : List CtrlEvent → AppInfo → CtrlState → Option (AppInfo × CtrlState)
  | [], app, s => some (app, s)
  | e :: es, app, s => do
    let (app, s) ← e.applyEvent host app s
    applyEvents es app s

/-- Nothing is to be announced that the node has already heard of. -/
theorem exists_onApplied_eq (e : CtrlEvent) (groupId : ℕ) (info : ClusterInfo) :
    ∃ app : AppInfo, app.groupId = groupId ∧ e.onApplied host app = some app := by
  cases hr : e.request with
  | split r =>
    refine ⟨⟨groupId, 0, info⟩, rfl, ?_⟩
    rw [onApplied, hr]
  | reconfigure r =>
    refine ⟨⟨groupId, r.version, info⟩, rfl, ?_⟩
    rw [onApplied, hr]
    exact if_pos (Nat.le_refl _)

theorem applyEvent_eq_some {app : AppInfo} {s : CtrlState} {x : AppInfo × CtrlState} :
    e.applyEvent host app s = some x ↔
      e.apply app.groupId s = some x.2 ∧ e.onApplied host app = some x.1 := by
  simp only [applyEvent, Option.bind_eq_bind, Option.bind_eq_some_iff, Option.pure_def,
    Option.some.injEq]
  constructor
  · rintro ⟨t, ht, app', happ, rfl⟩
    exact ⟨ht, happ⟩
  · rintro ⟨ht, happ⟩
    exact ⟨_, ht, _, happ, rfl⟩

end CtrlEvent

/-- A replica on `host`: decode an entry of the log and apply its events. -/
def Wire.replay {π ρ : Type} (w : Wire π ρ) (host : Host) (app : AppInfo) (entry : ρ)
    (s : CtrlState) : Option (AppInfo × CtrlState) := do
  CtrlEvent.applyEvents host (← w.decodeEvents entry) app s

/-- An event with the ids that `persistAsync` gives to the first of a command. -/
def CtrlEvent.assigned (commandId : ℕ) (e : CtrlEvent) : CtrlEvent :=
  { e with metaData := { e.metaData with id := 0, commandId := commandId } }

/-- **What a command that makes an event leaves in the log**: an entry from which a replica applies
that event, with its ids. -/
theorem CommandProcessLoop.exists_entry {π ρ : Type} (w : Wire π ρ) {app : AppInfo}
    {memory : EventMetaData} {time : ℕ} {c : CtrlCommand} {loop : CommandProcessLoop}
    (he : (c.process app memory time loop.state).2 = [e]) :
    ∃ entry, loop.processCommand w app memory time c =
        ((e.apply app.groupId loop.state).map fun s =>
          (⟨(loop.lastCommandId + 1) % 2 ^ 64, s⟩, (c.process app memory time loop.state).1,
            some entry)) ∧
      ∀ host replica s, w.replay host replica entry s =
        (e.assigned ((loop.lastCommandId + 1) % 2 ^ 64)).applyEvent host replica s := by
  have heq : e = ⟨memory.fresh c.request.type time, c.request⟩ := by
    rcases c.process_events app memory time loop.state with h | h
    · rw [he] at h
      cases h
    · exact List.singleton_inj.mp (he.symm.trans h)
  generalize hk : (loop.lastCommandId + 1) % 2 ^ 64 = k
  refine ⟨w.payload.serialize ⟨w.encodeCommand { c with metaData := { c.metaData with id := k } },
    [w.encodeEvent (e.assigned k)]⟩, ?_, fun host replica s => ?_⟩
  · rw [processCommand, AppInfo.processCommandAndApply]
    simp only [he, hk, CtrlEvent.applyAll]
    cases e.apply app.groupId loop.state with
    | none => rfl
    | some s => rfl
  · rw [Wire.replay, Wire.decodeEvents, w.payload.parse_serialize]
    have hdecode : w.decodeEvent (w.encodeEvent (e.assigned k)) = some (e.assigned k) :=
      w.decodeEvent_encodeEvent (by rw [heq]; rfl)
    simp only [Option.bind_eq_bind, Option.bind_some, List.mapM_cons, List.mapM_nil, hdecode,
      Option.pure_def, CtrlEvent.applyEvents]
    exact Option.bind_fun_some _

/-- **When a replayed state equals the processed state.** On every replica of the cluster the state
after a control command is the one the leader has, exactly if the event does not record the command
id, or the memory of the event already holds it. -/
theorem replayed_state_eq_processed_iff {π ρ : Type} (w : Wire π ρ) (app : AppInfo)
    (memory : EventMetaData) (time : ℕ) (c : CtrlCommand) {loop loop' : CommandProcessLoop}
    {hint : ProcessHint} {entry : ρ} (hmemory : memory.commandId < 2 ^ 64)
    (h : loop.processCommand w app memory time c = some (loop', hint, some entry)) :
    (∀ host replica, replica.groupId = app.groupId →
      ∀ x, w.replay host replica entry loop.state = some x → x.2 = loop'.state) ↔
      ¬ c.request.RecordsCommandId app.groupId ∨
        memory.commandId = (loop.lastCommandId + 1) % 2 ^ 64 := by
  rcases c.process_events app memory time loop.state with hevents | hevents
  · rw [CommandProcessLoop.processCommand, AppInfo.processCommandAndApply] at h
    simp only [hevents] at h
    cases h
  obtain ⟨entry', hentry, hreplay⟩ := CommandProcessLoop.exists_entry w hevents
  generalize hevent : (⟨memory.fresh c.request.type time, c.request⟩ : CtrlEvent) = e at *
  have hid : e.metaData.commandId = memory.commandId := by rw [← hevent]; rfl
  have hreq : e.request = c.request := by rw [← hevent]
  rw [hentry] at h
  obtain ⟨s, happly, heq⟩ := Option.map_eq_some_iff.mp h
  simp only [Prod.mk.injEq, Option.some.injEq] at heq
  obtain ⟨rfl, -, rfl⟩ := heq
  have hk : (loop.lastCommandId + 1) % 2 ^ 64 < 2 ^ 64 := Nat.mod_lt _ (by decide)
  generalize (loop.lastCommandId + 1) % 2 ^ 64 = k at *
  constructor
  · intro hall
    refine or_iff_not_imp_left.mpr fun hrecords => ?_
    rw [not_not, ← hreq] at hrecords
    -- a replica that has heard of the configuration already applies the event and no more
    obtain ⟨t, ht⟩ := CtrlEvent.exists_apply_of (e := e) (f := e.assigned k) rfl happly
    obtain ⟨replica, hgroup, happ⟩ :=
      (e.assigned k).exists_onApplied_eq ⟨"", none⟩ app.groupId app.clusterInfo
    have hx := (CtrlEvent.applyEvent_eq_some (x := (replica, t)) _).mpr ⟨hgroup ▸ ht, happ⟩
    obtain rfl : t = s := hall _ replica hgroup _ ((hreplay _ _ _).trans hx)
    rw [← hid]
    exact CtrlEvent.commandId_eq (f := e.assigned k) rfl hrecords (hid ▸ hmemory) hk happly ht
  · intro hcond host replica hgroup x hx
    rw [hreplay, CtrlEvent.applyEvent_eq_some, hgroup] at hx
    have hcongr := CtrlEvent.apply_congr (e := e) (f := e.assigned k) rfl
      (by rw [hreq, hid]; exact hcond) loop.state
    exact Option.some.inj (hx.1.symm.trans (hcongr.symm.trans happly))

/-! ## A reconfiguration -/

namespace Scenario

/-- Encodings that keep what they are given. -/
def transparent : Wire CtrlRequest (RaftPayload CtrlRequest) where
  split :=
    { serialize := .split
      parse := fun r => match r with
        | .split r => some r
        | .reconfigure _ => none
      parse_serialize := fun _ => rfl }
  reconfigure :=
    { serialize := .reconfigure
      parse := fun r => match r with
        | .split _ => none
        | .reconfigure r => some r
      parse_serialize := fun _ => rfl }
  payload :=
    { serialize := id
      parse := some
      parse_serialize := fun _ => rfl }

/-- Three voters. -/
def clusterOfThree : ClusterConfiguration :=
  ⟨0, [⟨1, "a", 1, .voter⟩, ⟨2, "b", 1, .voter⟩, ⟨3, "c", 1, .voter⟩], [], [], []⟩

/-- A node of the cluster `0`, which has three voters. -/
def appOfThree : AppInfo := ⟨0, 0, clusterOfThree.syncFromProto⟩

/-- The host of the second node. -/
def secondHost : Host := ⟨"b", none⟩

/-- A control state that nothing has been applied to. -/
def initialState : CtrlState := ⟨Table.empty, 0, "", 0, 0, 0, clusterOfThree.syncFromProto, 0⟩

/-- Memory that is zero. -/
def zeroed : EventMetaData := ⟨0, 0, 0, 0, 0, 0, 0, ""⟩

/-- A command with the given request. -/
def command (request : CtrlRequest) : CtrlCommand := ⟨⟨0, request.type, 5, 0, 0, 0, ""⟩, request⟩

/-- The first reconfiguration, which keeps the three voters. -/
def reconfiguration : CtrlCommand := command (.reconfigure ⟨1, clusterOfThree⟩)

/-- A split that gives the cluster `0` the groups `1` and `2` of three. -/
def division : CtrlCommand :=
  command (.split ⟨1, "plan", [⟨⟨7, [1, 2], 3⟩, 0, false⟩, ⟨⟨7, [3], 3⟩, 1, true⟩]⟩)

end Scenario

open Scenario

/-- **The index of a reconfiguration drifts.** After ten commands the leader processes a
reconfiguration, and its event is created in memory that is zero. The control state of the leader
says that the reconfiguration is at index `0`; a replica that replays the entry says `11`. -/
theorem reconfigure_index_drifts :
    ∃ (loop loop' : CommandProcessLoop) (hint : ProcessHint) (entry : RaftPayload CtrlRequest)
      (x : AppInfo × CtrlState),
      reconfiguration.verifyCommand appOfThree =
        ReconfigureRequest.verifiedSuccess ∧
      loop.processCommand transparent appOfThree zeroed 6
        reconfiguration = some (loop', hint, some entry) ∧
      transparent.replay secondHost appOfThree entry loop.state =
        some x ∧
      loop'.state.clusterReconfigureIndex = 0 ∧ x.2.clusterReconfigureIndex = 11 ∧
      x.2 ≠ loop'.state := by
  refine ⟨⟨10, initialState⟩, _, _, _, _, by decide +kernel, rfl, rfl, rfl, rfl, ?_⟩
  exact fun heq => absurd (congrArg CtrlState.clusterReconfigureIndex heq) (by decide +kernel)

theorem replayed_state_eq_processed_iff_division :
    ∃ (loop loop' : CommandProcessLoop) (hint : ProcessHint) (entry : RaftPayload CtrlRequest),
      loop.processCommand transparent appOfThree zeroed 6
        division = some (loop', hint, some entry) ∧
      (∃ x, transparent.replay secondHost appOfThree entry loop.state =
        some x ∧ x.2.epoch = 1) ∧
      ∀ x, transparent.replay secondHost appOfThree entry loop.state =
        some x → x.2 = loop'.state := by
  have hnew : ¬ division.request.RecordsCommandId appOfThree.groupId := by
    decide +kernel
  exact ⟨⟨10, initialState⟩, _, _, _, rfl, ⟨_, rfl, rfl⟩,
    (replayed_state_eq_processed_iff _ _ zeroed 6 _ (by decide) rfl).mpr (Or.inl hnew)
      _ _ rfl⟩

end Gringofts
