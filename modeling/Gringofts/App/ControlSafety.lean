import Gringofts.App.Replay

/-!
# Applying accepted control commands

The events of a control command are applied by the leader that processes it and by every node that
replays it. Applying a split fails in one place: an impact on this cluster that calls it a new one,
when this is the cluster `0`. The validators of a split look at plan, epoch and groups, and never at
that flag. Applying a reconfiguration records it and cannot fail; what the event apply loop does
after that can, on a node of another cluster, and on a host that the configuration does not have and
that does not know its member id.

## Main definitions

* `CtrlRequest.FoundsZero` — the request calls the cluster `0` a new one
* `ReconfigureRequest.Stuck` — the node cannot announce the configuration
* `CtrlRequest.Aborts` — where replaying the request fails

## Main results

* `ReconfigureRequest.onApplied_eq_none_iff` — when announcing a reconfiguration fails
* `control_command_applies_iff`, `accepted_split_aborts`
-/

namespace Gringofts

open Scenario

variable {e : CtrlEvent} {s : CtrlState} {host : Host}

/-- The request calls the cluster `0` a new one. -/
def CtrlRequest.FoundsZero : CtrlRequest → Prop
  | .split r => r.Founds 0
  | .reconfigure _ => False

instance (r : CtrlRequest) : Decidable r.FoundsZero :=
  match r with
  | .split r => inferInstanceAs (Decidable (r.Founds 0))
  | .reconfigure _ => inferInstanceAs (Decidable False)

/-- **When applying an event fails**: on the cluster `0`, if the event calls it a new one. -/
theorem CtrlEvent.apply_eq_none {groupId : ℕ} :
    e.apply groupId s = none ↔ groupId = 0 ∧ e.request.FoundsZero := by
  rw [apply]
  cases e.request with
  | split r => exact SplitRequest.apply_eq_none_iff
  | reconfigure r => exact iff_of_false (Option.some_ne_none _) fun h => h.2

/-! ## Announcing a reconfiguration -/

/-- The host is a node of the configuration: by its name, or by its member id. -/
def ClusterInfo.Includes (info : ClusterInfo) (host : Host) : Prop :=
  (∃ id node, info.nodes.find? id = some node ∧ node.hostName = host.hostName) ∨
    ∃ id ∈ info.nodes.keys, host.memberId = some id

/-- The three ways in which a node looks for itself. -/
theorem ClusterInfo.deduceSelfNodeId_cases (info : ClusterInfo) (host : Host) :
    (info.Includes host ∧ ∃ id ∈ info.nodes.keys, info.deduceSelfNodeId host = some (some id)) ∨
      (¬ info.Includes host ∧ host.memberId ≠ none ∧ info.deduceSelfNodeId host = some none) ∨
      (¬ info.Includes host ∧ host.memberId = none ∧ info.deduceSelfNodeId host = none) := by
  rw [deduceSelfNodeId]
  cases hrow : info.nodes.rows.find? fun row => row.2.hostName = host.hostName with
  | some row =>
    have hnode := Table.mem_rows.mp (List.mem_of_find?_eq_some hrow)
    have hname : row.2.hostName = host.hostName := by simpa using List.find?_some hrow
    exact Or.inl ⟨Or.inl ⟨_, _, hnode, hname⟩, _, Table.mem_keys.mpr ⟨_, hnode⟩, rfl⟩
  | none =>
    have hnames : ¬ ∃ id node, info.nodes.find? id = some node ∧
        node.hostName = host.hostName := by
      rintro ⟨id, node, hnode, hname⟩
      exact List.find?_eq_none.mp hrow (id, node) (Table.mem_rows.mpr hnode) (by simpa using hname)
    rw [Includes, or_iff_right hnames]
    cases hmember : host.memberId with
    | none => exact Or.inr (Or.inr ⟨by simp, rfl, rfl⟩)
    | some id =>
      by_cases hid : id ∈ info.nodes.keys
      · exact Or.inl ⟨⟨id, hid, rfl⟩, id, hid, congrArg some (if_pos hid)⟩
      · refine Or.inr (Or.inl ⟨?_, nofun, congrArg some (if_neg hid)⟩)
        rintro ⟨id', hid', ⟨⟩⟩
        exact hid hid'

/-- The node has not heard of the configuration, and either it is in it and of another cluster, or
it is not in it and has no member id. -/
def ReconfigureRequest.Stuck (r : ReconfigureRequest) (host : Host) (app : AppInfo) : Prop :=
  app.clusterVersion < r.version ∧
    ((r.configuration.syncFromProto.Includes host ∧
        app.groupId ≠ r.configuration.syncFromProto.clusterId) ∨
      (¬ r.configuration.syncFromProto.Includes host ∧ host.memberId = none))

/-- **When announcing a reconfiguration fails.** -/
theorem ReconfigureRequest.onApplied_eq_none_iff {r : ReconfigureRequest} {app : AppInfo}
    (hids : ∀ m ∈ r.configuration.members, m.id ≠ 0) :
    r.onApplied host app = none ↔ r.Stuck host app := by
  rw [onApplied, Stuck]
  by_cases hversion : r.version ≤ app.clusterVersion
  · rw [if_pos hversion]
    exact iff_of_false nofun fun h => Nat.not_lt.mpr hversion h.1
  rw [if_neg hversion, and_iff_right (Nat.not_le.mp hversion)]
  rcases r.configuration.syncFromProto.deduceSelfNodeId_cases host with
    ⟨hin, id, hid, hself⟩ | ⟨hnot, hmember, hself⟩ | ⟨hnot, hmember, hself⟩
  · have hzero : id ≠ 0 := by
      obtain ⟨m, hm, rfl⟩ := ClusterConfiguration.mem_keys_syncFromProto.mp hid
      exact hids m hm
    rw [hself, or_iff_left fun h => h.1 hin, and_iff_right hin]
    change AppInfo.setClusterInfo app r.version id _ = none ↔ _
    rw [AppInfo.setClusterInfo]
    by_cases hgroup : app.groupId = r.configuration.syncFromProto.clusterId
    · rw [if_pos ⟨hgroup, Nat.not_le.mp hversion, hzero⟩]
      exact iff_of_false nofun (not_not.mpr hgroup)
    · rw [if_neg fun h => hgroup h.1]
      exact iff_of_true rfl hgroup
  · rw [hself]
    exact iff_of_false nofun fun h => h.elim (fun h => hnot h.1) fun h => hmember h.2
  · rw [hself]
    exact iff_of_true rfl (Or.inr ⟨hnot, hmember⟩)

/-! ## Commands -/

/-- Where replaying the request fails: a split on the cluster `0`, if it calls that a new one, and a
reconfiguration where it cannot be announced. -/
def CtrlRequest.Aborts (host : Host) (replica : AppInfo) : CtrlRequest → Prop
  | .split r => replica.groupId = 0 ∧ r.Founds 0
  | .reconfigure r => r.Stuck host replica

theorem CtrlEvent.applyEvent_eq_none {replica : AppInfo} : e.applyEvent host replica s = none ↔
      e.apply replica.groupId s = none ∨ e.onApplied host replica = none := by
  rw [applyEvent]
  cases e.apply replica.groupId s with
  | none => exact iff_of_true rfl (Or.inl rfl)
  | some t => cases e.onApplied host replica <;> simp

/-- **When an accepted control command applies.** The command loop that processes it fails exactly
if the command is a split that calls the cluster `0` a new one, and this is the cluster. And the
event apply loop of any node of any cluster that replays the entry, in any state, fails exactly if
the request aborts there. -/
theorem control_command_applies_iff {π ρ : Type} (w : Wire π ρ) {app : AppInfo}
    {memory : EventMetaData} {time : ℕ} {c : CtrlCommand} {loop : CommandProcessLoop}
    (hverified : c.verifyCommand app = ReconfigureRequest.verifiedSuccess)
    (hemits : (c.process app memory time loop.state).2 ≠ []) :
    (loop.processCommand w app memory time c = none ↔
      app.groupId = 0 ∧ c.request.FoundsZero) ∧
    ∀ loop' hint entry?, loop.processCommand w app memory time c = some (loop', hint, entry?) →
      ∃ entry, entry? = some entry ∧ ∀ host replica s,
        w.replay host replica entry s = none ↔ c.request.Aborts host replica := by
  obtain ⟨entry, hentry, hreplay⟩ := CommandProcessLoop.exists_entry w
    ((c.process_events app memory time loop.state).resolve_left hemits)
  constructor
  · rw [hentry, Option.map_eq_none_iff, CtrlEvent.apply_eq_none]
  intro loop' hint entry? h
  rw [hentry] at h
  obtain ⟨s, -, heq⟩ := Option.map_eq_some_iff.mp h
  cases heq
  refine ⟨entry, rfl, fun host replica s => ?_⟩
  rw [hreplay, CtrlEvent.applyEvent_eq_none, CtrlEvent.apply_eq_none]
  change (_ ∧ c.request.FoundsZero) ∨ CtrlEvent.onApplied host ⟨_, c.request⟩ replica = none ↔ _
  rw [CtrlCommand.verifyCommand] at hverified
  rw [CtrlEvent.onApplied]
  cases hr : c.request with
  | split r => exact or_iff_left (Option.some_ne_none _)
  | reconfigure r =>
    rw [hr] at hverified
    exact (or_iff_right fun h => h.2).trans (ReconfigureRequest.onApplied_eq_none_iff
      (ReconfigureRequest.verified_of_verifyCommand hverified).id_ne)

/-- A split that calls the cluster `0` a new one. -/
def Scenario.refounding : CtrlCommand :=
  command (.split ⟨1, "plan", [⟨⟨7, [1, 2], 2⟩, 0, true⟩]⟩)

/-- **An accepted split aborts.** The split passes `verifyCommand` and emits its event. The command
loop of the cluster `0` fails to apply it, and so does every node of the cluster that is given the
event. -/
theorem accepted_split_aborts :
    ∃ (c : CtrlCommand) (loop : CommandProcessLoop) (e : CtrlEvent),
      c.verifyCommand appOfThree = ReconfigureRequest.verifiedSuccess ∧
      (c.process appOfThree zeroed 6 loop.state).2 = [e] ∧
      loop.processCommand transparent appOfThree zeroed 6 c = none ∧
      ∀ s, e.apply 0 s = none := by
  refine ⟨refounding, ⟨10, initialState⟩, _, by decide +kernel, rfl, rfl, ?_⟩
  exact fun s => SplitRequest.apply_eq_none_iff.mpr ⟨rfl, by decide +kernel⟩

theorem control_command_applies_iff_reconfiguration :
    ∃ loop' hint entry, CommandProcessLoop.processCommand transparent
        appOfThree zeroed 6 reconfiguration ⟨10, initialState⟩ =
          some (loop', hint, some entry) ∧
      (∀ s, transparent.replay secondHost appOfThree entry s ≠ none) ∧
      ∀ s, transparent.replay secondHost { appOfThree with groupId := 1 }
        entry s = none := by
  have hemits : (reconfiguration.process appOfThree zeroed 6
      (CommandProcessLoop.mk 10 initialState).state).2 ≠ [] := by decide +kernel
  obtain ⟨entry, ⟨⟩, hreplay⟩ :=
    (control_command_applies_iff transparent (by decide +kernel) hemits).2 _ _ _ rfl
  have hin : clusterOfThree.syncFromProto.Includes secondHost := Or.inl ⟨2, _, rfl, rfl⟩
  refine ⟨_, _, _, rfl, fun s h => ?_, fun s => ?_⟩
  · exact ((hreplay _ _ s).mp h).2.elim (fun h => h.2 rfl) fun h => h.1 hin
  · exact (hreplay _ _ s).mpr ⟨Nat.one_pos, Or.inl ⟨hin, by decide⟩⟩

end Gringofts
