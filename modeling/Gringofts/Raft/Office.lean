import Gringofts.App.ReconfigureCommand
import Gringofts.Raft.Safety

/-!
# A leader in its term

`RaftLogStore` relies on a promise of `RaftCore`: a leader does not step down during its term. It
skips a transition that contradicts it, and `handleAppendEntriesResponse` asserts it.

A reconfiguration breaks the promise. `configurationSwitch` takes the role of the node from the
new configuration, so that a leader which the configuration makes a learner or a prefollower is
that from then on, in the same term (`leader_demoted_by_reconfiguration`). Nothing else breaks it:
the promise holds in every run in which no leader is handed such a configuration.

## Main definitions

* `Node.RunsTo` — the runs of one node, with any events
* `Event.Demotes` — a reconfiguration that makes a node something other than a voter

## Main results

* `leader_keeps_office`
-/

namespace Gringofts

open Outcome Scenario

/-- One node runs from `n` on, with events that are allowed where they happen. Restarts are not
part of a run. -/
inductive Node.RunsTo (cfg : RaftConfig) (allowed : Node → Event → Prop) (n : Node) : Node → Prop
  | refl : Node.RunsTo cfg allowed n n
  | tail {m k : Node} {ev : Event} {x : Option Answer} (h : Node.RunsTo cfg allowed n m)
      (hev : allowed m ev) (hs : (m.handle cfg ev).result = .ok (k, x)) :
      Node.RunsTo cfg allowed n k

/-- A reconfiguration whose `ClusterInfo` gives the node the initial role of a learner or a
prefollower. -/
def Event.Demotes : Event → Prop
  | .reconfigureRequest _ selfId info =>
    info.roleOf? selfId = some .learner ∨ info.roleOf? selfId = some .preFollower
  | _ => False

namespace Node

variable {n : Node}

/-- The membership of a configuration has the roles that the configuration assigns. -/
theorem initClusterConf_sat (info : ClusterInfo) (selfId : ℕ) :
    (initClusterConf info selfId).Sat (fun _ => False)
      (fun m => m.selfId = selfId ∧ ∃ r, info.roleOf? selfId = some r ∧
        m.initialRole selfId = pure r) fun _ => True := by
  refine Sat.bind (R := fun self => info.nodes.find? selfId = some self)
    (sat_ofOption.mpr ⟨fun _ => id, fun _ => trivial⟩) fun self hself => ?_
  refine (reads_check _ _).sat.bind fun _ _ => sat_pure.mpr ⟨rfl, ?_⟩
  refine ⟨self.initialRole.toRaftRole, by rw [ClusterInfo.roleOf?, hself]; rfl, ?_⟩
  rw [ClusterMemberShip.initialRole, ClusterInfo.memberShip, Table.find?_map, hself]
  rfl

theorem switchedRole_sat {members : ClusterMemberShip} {r : RaftRole}
    (hr : members.initialRole members.selfId = pure r) :
    (n.switchedRole members).Sat (fun _ => False)
      (fun role => role ≠ .syncer ∧
        (n.role = .leader → ¬ (r = .learner ∨ r = .preFollower) → role = .leader))
      fun _ => True := by
  rw [switchedRole, ClusterMemberShip.isLearner, ClusterMemberShip.isPreFollower, hr]
  by_cases hlearner : r = .learner
  · simp [hlearner, sat_pure]
  by_cases hpre : r = .preFollower
  · simp [hpre, sat_pure]
  by_cases hl : n.role = .leader
  · simp [hlearner, hpre, hl, sat_pure]
  · simp [hlearner, hpre, hl, sat_pure]

/-- A reconfiguration that leaves a leader a voter leaves it in office. -/
theorem handleReconfigureRequest_stays (clk : Clock) (selfId : ℕ) (info : ClusterInfo)
    (hok : n.role = .leader → ¬ (Event.reconfigureRequest clk selfId info).Demotes) :
    (n.handleReconfigureRequest clk selfId info).Sat (fun _ => False) n.Stays fun _ => True := by
  rw [handleReconfigureRequest]
  split
  · exact sat_pure.mpr (stays_of_eq rfl rfl)
  refine (initClusterConf_sat info selfId).bind ?_
  rintro members ⟨rfl, r, hrole, hinit⟩
  refine (reads_check _ _).sat.bind fun _ _ => ?_
  refine (switchedRole_sat hinit).bind fun role hsw => sat_pure.mpr ?_
  have hkeep : n.role = .leader → role = .leader := by
    intro hl
    have hnot := hok hl
    rw [Event.Demotes, hrole, Option.some_inj, Option.some_inj] at hnot
    exact hsw.2 hl hnot
  split
  · exact ⟨Nat.le_refl _, fun hl _ => hkeep hl, fun _ => hsw.1⟩
  · exact ⟨Nat.le_refl _, fun hl _ => hkeep hl, fun _ => hsw.1⟩

/-- **Every event leaves a leader in office**, but for a reconfiguration that demotes it. -/
theorem handle_stays (cfg : RaftConfig) {ev : Event} (hs : n.role ≠ .syncer)
    (hok : n.role = .leader → ¬ ev.Demotes) :
    (n.handle cfg ev).Sat (fun _ => True) (fun x => n.Stays x.1) fun _ => True := by
  cases ev with
  | reconfigureRequest clk selfId info =>
    refine Sat.bind ((handleReconfigureRequest_stays (n := { n with outbox := [] }) clk
      selfId info hok).mono (fun _ _ => trivial) (fun _ => id) fun _ => id) fun m hm => ?_
    exact sat_pure.mpr { hm with }
  | _ =>
    exact (handle_sat cfg (fun _ _ _ => hs) fun _ _ _ h => by cases h).mono (fun _ _ => trivial)
      (fun _ hx => { hx.stays with }) fun _ => id

end Node

/-- **A leader keeps its role for its whole term**, in every run of the node in which no leader is
handed a configuration that makes it a learner or a prefollower. -/
theorem leader_keeps_office {cfg : RaftConfig} {n m : Node}
    (hrun : n.RunsTo cfg (fun k ev => k.role = .leader → ¬ ev.Demotes) m)
    (hl : n.role = .leader) (ht : m.log.currentTerm = n.log.currentTerm) : m.role = .leader := by
  have hstays : n.Stays m := by
    clear ht
    induction hrun with
    | refl => exact Node.stays_of_eq rfl rfl
    | @tail m k ev x _ hev hs ih =>
      have hne : m.role ≠ .syncer := ih.role_ne (by rw [hl]; exact nofun)
      exact ih.trans ((Node.handle_stays cfg hne hev).of_result hs)
  exact hstays.office hl ht

namespace Scenario

/-- One node handles events, one after the other. -/
def handleAll (cfg : RaftConfig) : List Event → Node → Option Node
  | [], n => some n
  | ev :: evs, n => (n.handle cfg ev).value?.bind fun x => handleAll cfg evs x.1

theorem runsTo_of_handleAll {cfg : RaftConfig} {evs : List Event} {n m k : Node}
    (hn : k.RunsTo cfg (fun _ _ => True) n) (h : handleAll cfg evs n = some m) :
    k.RunsTo cfg (fun _ _ => True) m := by
  induction evs generalizing n with
  | nil =>
    obtain rfl : n = m := Option.some.inj h
    exact hn
  | cons ev evs ih =>
    obtain ⟨x, hx, hrest⟩ := Option.bind_eq_some_iff.mp h
    exact ih (.tail hn trivial (Outcome.value?_eq_some.mp hx)) hrest

/-- Node `1` of three voters as it starts. -/
def fresh : Node := threeVoters.start 1 ⟨0, 0⟩ .follower Log.empty

/-- Node `1` wins term `1` with the vote of node `2`. -/
def winning : List Event :=
  [.electionTimeout ⟨10, 1⟩, .requestVote ⟨11, 1⟩,
    .requestVoteResponse ⟨12, 1⟩ 2 (some ⟨1, true, 2, 1, false⟩), .becomeLeader ⟨13, 1⟩]

/-- A request that makes node `1` a learner and changes nothing else. -/
def demotion : ReconfigureRequest :=
  ⟨1, ⟨0, [⟨1, "a", 1, .learner⟩, ⟨2, "b", 1, .voter⟩, ⟨3, "c", 1, .voter⟩], [], [], []⟩⟩

end Scenario

/-- **A leader that loses its office in its term.** Node `1` leads in term `1`. The request that
makes it a learner is accepted, and when the node has handled it, it is a learner in term `1`. The
next response of a follower to a request of that term makes it abort. -/
theorem leader_demoted_by_reconfiguration :
    ∃ (n m : Node) (ev : ReconfigureEvent) (x : Option Answer) (r : AppendEntriesResponse),
      fresh.RunsTo config (fun _ _ => True) n ∧ n.role = .leader ∧
      demotion.verifyCommand 0 = ReconfigureRequest.verifiedSuccess ∧
      demotion.process 0 0 threeVoters.info threeVoters.info =
        .ok ev ∧
      1 ∈ ev.clusterConfiguration.nodes.keys ∧
      (n.handle config (.reconfigureRequest ⟨20, 1⟩ 1 ev.clusterConfiguration)).result =
        .ok (m, x) ∧
      m.log.currentTerm = n.log.currentTerm ∧ m.role = .learner ∧
      r.savedTerm = n.log.currentTerm ∧
      (m.handle config (.appendEntriesResponse ⟨21, 1⟩ 2 (some r))).result =
        .error .stillLeader := by
  have hrun : (handleAll config winning fresh).any
      (fun n => n.role = .leader ∧ n.log.currentTerm = 1 ∧
        (n.handle config (.reconfigureRequest ⟨20, 1⟩ 1
          demotion.configuration.syncFromProto)).value?.any fun x =>
            x.1.log.currentTerm = 1 ∧ x.1.role = .learner ∧
            (x.1.handle config (.appendEntriesResponse ⟨21, 1⟩ 2
              (some ⟨1, true, 2, 1, 0, 0, 0⟩))).error? = some .stillLeader) = true := by
    decide +kernel
  obtain ⟨n, hn, hp⟩ := (Option.any_eq_true _ _).mp hrun
  obtain ⟨hlead, hterm, hp⟩ := of_decide_eq_true hp
  obtain ⟨x, hx, hp⟩ := (Option.any_eq_true _ _).mp hp
  obtain ⟨hterm', hrole, herr⟩ := of_decide_eq_true hp
  refine ⟨n, x.1, ⟨1, demotion.configuration.syncFromProto⟩, x.2,
    ⟨1, true, 2, 1, 0, 0, 0⟩, runsTo_of_handleAll .refl hn, hlead, by decide +kernel, rfl,
    by decide +kernel, Outcome.value?_eq_some.mp hx, hterm'.trans hterm.symm, hrole, hterm.symm,
    Outcome.error?_eq_some.mp herr⟩

theorem leader_keeps_office_reconfigured :
    ∃ (n m : Node) (x : Option Answer),
      fresh.RunsTo config (fun _ _ => True) n ∧ n.role = .leader ∧
      (n.handle config (.reconfigureRequest ⟨20, 1⟩ 1 threeVoters.info)).result =
        .ok (m, x) ∧ m.log.currentTerm = n.log.currentTerm ∧ m.role = .leader := by
  have hrun : (handleAll config winning fresh).any
      (fun n => n.role = .leader ∧
        (n.handle config (.reconfigureRequest ⟨20, 1⟩ 1
          threeVoters.info)).value?.any fun x =>
            x.1.log.currentTerm = n.log.currentTerm) = true := by
    decide +kernel
  obtain ⟨n, hn, hp⟩ := (Option.any_eq_true _ _).mp hrun
  obtain ⟨hlead, hp⟩ := of_decide_eq_true hp
  obtain ⟨x, hx, hp⟩ := (Option.any_eq_true _ _).mp hp
  have hterm := of_decide_eq_true hp
  have hres := Outcome.value?_eq_some.mp hx
  have hkept : ¬ (Event.reconfigureRequest ⟨20, 1⟩ 1 threeVoters.info).Demotes := by
    rintro (h | h) <;> exact absurd h (by decide)
  exact ⟨n, x.1, x.2, runsTo_of_handleAll .refl hn, hlead, hres, hterm,
    leader_keeps_office (.tail .refl (fun _ => hkept) hres) hlead hterm⟩

end Gringofts
