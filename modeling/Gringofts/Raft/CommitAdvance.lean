import Gringofts.Raft.Safety

/-!
# Advancing the commit index

A leader looks up the term of the majority index in its own log, and asserts that it finds it. The
match indices that it takes the majority of come from its followers, and a follower acknowledges a
request whose previous index lies below its own window without a look at it. So a leader that has
come back with a truncated log, and with its commit index back at `0`, can be told of a match index
below its window that it does not know to be committed. When such an index is the majority index,
the leader aborts (`commit_advance_aborts`).

As long as no leader records such a match index, the majority index lies in the window.

## Main definitions

* `Node.Admits` — a response that speaks of the window or of what is committed
* `Node.Anchored` — what then holds of the match indices of a leader

## Main results

* `commit_advance_in_window`
-/

namespace Gringofts

open Replication Outcome Scenario

variable {S : Setup} {c : Cluster} {i k : ℕ}

namespace Node

variable {n m : Node}

/-- A success that a leader records does not speak of an index that lies below the window and
above the commit index. -/
def Admits (n : Node) (r : AppendEntriesResponse) : Prop :=
  n.role = .leader → r.savedTerm = n.log.currentTerm → r.success = true →
    r.matchIndex ≤ n.commitIndex ∨ n.log.firstIndex - 1 ≤ r.matchIndex

/-- Every match index of a leader lies in its window, or is committed. -/
def Anchored (n : Node) : Prop :=
  n.role = .leader → ∀ id x, n.progress id = some x →
    x.2 ≤ n.commitIndex ∨ n.log.firstIndex - 1 ≤ x.2

theorem Anchored.quiet (h : n.Anchored) (hq : n.Quiet m) : m.Anchored := by
  intro hr id x hx
  obtain ⟨hrole, -, hcommit, hfirst, hprogress⟩ := hq.leader hr
  rw [hprogress] at hx
  rw [hfirst]
  exact (h hrole id x hx).imp_left fun hle => hle.trans hcommit

/-- The event may happen at the node: it is not a response that the node should not record. -/
def AdmitsEvent (n : Node) : Event → Prop
  | .appendEntriesResponse _ _ (some r) => n.Admits r
  | _ => True

instance (ev : Event) : Decidable (n.AdmitsEvent ev) :=
  match ev with
  | .appendEntriesResponse _ _ (some r) =>
    inferInstanceAs (Decidable (n.role = .leader → r.savedTerm = n.log.currentTerm →
      r.success = true → r.matchIndex ≤ n.commitIndex ∨ n.log.firstIndex - 1 ≤ r.matchIndex))
  | .appendEntriesResponse _ _ none => isTrue trivial
  | .appendEntries _ _ => isTrue trivial
  | .requestVote _ => isTrue trivial
  | .appendEntriesRequest _ _ => isTrue trivial
  | .requestVoteRequest _ _ => isTrue trivial
  | .requestVoteResponse _ _ _ => isTrue trivial
  | .clientRequests _ => isTrue trivial
  | .syncRequest _ _ => isTrue trivial
  | .reconfigureRequest _ _ _ => isTrue trivial
  | .advanceCommitIndex => isTrue trivial
  | .becomeCandidate _ => isTrue trivial
  | .becomeLeader _ => isTrue trivial
  | .electionTimeout _ => isTrue trivial
  | .leadershipTimeout _ => isTrue trivial
  | .truncatePrefix _ => isTrue trivial

/-- **Every event keeps the match indices anchored.** -/
theorem Anchored.handle (cfg : RaftConfig) {ev : Event} (h : n.Anchored) (hs : n.role ≠ .syncer)
    (hconf : ∀ clk selfId info, ev ≠ .reconfigureRequest clk selfId info)
    (hok : n.AdmitsEvent ev) :
    (n.handle cfg ev).Sat (fun _ => True) (fun x => x.1.Anchored) fun _ => True := by
  refine (handle_sat cfg (fun _ _ _ => hs) hconf).mono (fun _ _ => trivial) ?_ fun _ => id
  intro x hx hl id y hy
  rcases hx.quiet_or with hq | ⟨clk, peerId, r, rfl, hr⟩ | ⟨clk, -, hw⟩ | ⟨k, hk, heq⟩
  · exact Anchored.quiet (n := { n with outbox := [] }) h hq hl id y hy
  · rw [hr.commit_eq, hr.log_eq]
    by_cases hid : id = r.id
    · subst hid
      rcases hr.match_cases y hy with ⟨hsuccess, heq⟩ | heq | ⟨z, hz, heq⟩
      · rw [heq]
        exact hok hr.leader hr.term_eq hsuccess
      · exact Or.inl (heq.le.trans (Nat.zero_le _))
      · rw [heq]
        exact h hr.leader r.id z hz
    · exact h hr.leader id y ((hr.other id hid).symm.trans hy)
  · -- a new leader knows of no match
    exact Or.inl ((hw.match_eq id y hy).le.trans (Nat.zero_le _))
  · rw [heq] at hl hy ⊢
    have hold := h hl id y hy
    change y.2 ≤ n.commitIndex ∨ (n.log.truncatePrefix k).firstIndex - 1 ≤ y.2
    rw [Log.truncatePrefix_firstIndex]
    have hk : k ≤ n.commitIndex := hk
    omega

end Node

/-! ## Whole runs -/

/-- A step in which no leader records a success it should not. -/
def Cluster.Admits (c : Cluster) : Action → Prop
  | .run i inp => ∀ x ∈ c.event? i inp, (c.nodes i).AdmitsEvent x.1
  | .crash _ _ _ _ _ => True

instance (c : Cluster) (act : Action) : Decidable (c.Admits act) :=
  match act with
  | .run i inp => inferInstanceAs (Decidable (∀ x ∈ c.event? i inp, (c.nodes i).AdmitsEvent x.1))
  | .crash _ _ _ _ _ => isTrue trivial

/-- In a run of such steps the match indices of every leader are anchored. -/
theorem RunsUnder.anchored (hc : RunsUnder S Cluster.Admits S.init c) (hi : i ∈ S.info.nodes.keys) :
    (c.nodes i).Anchored := by
  have hstart : ∀ clk role l, (S.start i clk role l).Anchored := by
    intro clk role l hr
    cases role <;> cases hr
  induction hc with
  | refl => exact hstart _ _ _
  | @tail c c' act hrun hok hs ih =>
    obtain ⟨a, ha⟩ := Reachable.refines hrun.runsTo
    rcases Cluster.step_cases hs with ⟨j, inp, ev, origin, m, x, rfl, hj, hev, hres, rfl⟩ |
      ⟨j, inp, ev, origin, k, role, clk, l, rfl, hj, hev, hl, rfl⟩
    · by_cases hij : i = j
      · subst hij
        have hm := (ih.handle (S.config i) (ha.nodes i hi).role_ne
          (Cluster.event?_ne_reconfigure hev) (hok (ev, origin) hev)).of_result hres
        simpa [Cluster.setNode] using hm
      · simpa [Cluster.setNode, hij] using ih
    · by_cases hij : i = j
      · subst hij
        simpa [Cluster.setNode] using hstart clk role l
      · simpa [Cluster.setNode, hij] using ih

/-- The majority index of a leader does not lie above its log, and is its last index or the match
index of a peer. -/
theorem Refines.majorityIndex_cases {a : State ℕ LogEntry} (h : Refines S c a)
    (hi : i ∈ S.info.nodes.keys) (hl : (c.nodes i).role = .leader)
    (hk : (c.nodes i).getMajorityIndex.result = .ok k) :
    k = 0 ∨ k = (c.nodes i).log.lastIndex ∨ (k ≤ (c.nodes i).log.lastIndex ∧
      ∃ id x, (c.nodes i).progress id = some x ∧ x.2 = k) := by
  have hd := h.nodes i hi
  obtain ⟨⟨id, -, hkid⟩, -⟩ := (Node.getMajorityIndex_sat hd.members hi).of_result hk
  rw [Node.knownIndex] at hkid
  split at hkid
  · exact Or.inr (Or.inl hkid)
  · cases hp : (c.nodes i).peer? id with
    | none =>
      rw [hp] at hkid
      exact Or.inl hkid
    | some p =>
      rw [hp] at hkid
      have hkp : k = p.matchIndex := hkid
      have hpeer := hd.peers hl id p hp
      refine Or.inr (Or.inr ⟨?_, id, (p.nextIndex, p.matchIndex), ?_, hkp.symm⟩)
      · rw [hd.durable.lastIndex_eq, hkp]
        have h1 := hpeer.match_lt
        have h2 := hpeer.next_le
        omega
      · rw [Node.progress, hp]
        rfl

namespace Node

variable {n m : Node}

theorem collect_congr (h : n.members = m.members) (role : RaftRole) {value value' : ℕ → Act ℕ}
    (hv : ∀ id, value id = value' id) (ids : List ℕ) :
    n.collect role value ids = m.collect role value' ids := by
  induction ids with
  | nil => rfl
  | cons id ids ih => rw [collect, collect, h, ih, hv]

/-- The majority index is read off the members and the log. -/
theorem getMajorityIndex_congr (h : n.members = m.members) (hl : n.log = m.log) :
    n.getMajorityIndex = m.getMajorityIndex := by
  have hpeer : ∀ id, n.peerAt id = m.peerAt id := fun id => by rw [peerAt, peerAt, peer?, peer?, h]
  have hv : ∀ ids, n.getMajorityIndexofVoters ids = m.getMajorityIndexofVoters ids := by
    intro ids
    rw [getMajorityIndexofVoters, getMajorityIndexofVoters, collect_congr h]
    intro id
    rw [contribution, contribution, selfId, selfId, h, hl, hpeer]
  have hl : ∀ ids, n.getMajorityIndexofLearners ids = m.getMajorityIndexofLearners ids := by
    intro ids
    rw [getMajorityIndexofLearners, getMajorityIndexofLearners, collect_congr h]
    intro id
    rw [hpeer]
  rw [getMajorityIndex, getMajorityIndex, h]
  simp only [hv, hl]

/-- With a majority index above the commit index whose term is found, a leader goes on. -/
theorem advanceCommitIndex_sat {t : ℕ} (hl : n.role = .leader)
    (hk : n.getMajorityIndex.result = .ok k) (hlt : n.commitIndex < k)
    (ht : n.log.getTerm k = some t) (hlast : k ≤ n.log.lastIndex) :
    n.advanceCommitIndex.Sat (fun _ => True) (fun _ => True) fun _ => False := by
  rw [advanceCommitIndex, if_neg (not_not.mpr hl), n.getMajorityIndex_reads.eq_pure hk, pure_bind,
    if_neg (Nat.not_le.mpr hlt), termOfLogEntryAt, ht]
  change (pure t >>= _ : Act Node).Sat _ _ _
  rw [pure_bind]
  split
  · exact sat_pure.mpr trivial
  · exact sat_check_bind (fun hcon => hcon hlast)
      fun _ => sat_pure.mpr trivial

end Node

/-- **A leader never aborts while it advances its commit index**, in every run in which no leader
records a match index below its window and above its commit index: the majority index lies in its
window or just below, and its term is found. -/
theorem commit_advance_in_window {c : Cluster} (hc : RunsUnder S Cluster.Admits S.init c)
    {i k : ℕ} (hi : i ∈ S.info.nodes.keys) (hl : (c.nodes i).role = .leader)
    (hk : (c.nodes i).getMajorityIndex.result = .ok k) (hlt : (c.nodes i).commitIndex < k) :
    ((c.nodes i).log.firstIndex - 1 ≤ k ∧ k ≤ (c.nodes i).log.lastIndex) ∧
      (∃ t, ((c.nodes i).termOfLogEntryAt k).result = .ok t) ∧
      ∃ x, ((c.nodes i).handle (S.config i) .advanceCommitIndex).result = .ok x := by
  obtain ⟨a, ha⟩ := Reachable.refines hc.runsTo
  have hd := ha.nodes i hi
  have hfirst := (c.nodes i).log.lastIndex_add_one
  have hrange : (c.nodes i).log.firstIndex - 1 ≤ k ∧ k ≤ (c.nodes i).log.lastIndex := by
    rcases ha.majorityIndex_cases hi hl hk with h0 | hlast | ⟨hle, id, x, hx, rfl⟩
    · omega
    · omega
    · rcases hc.anchored hi hl id x hx with hcommit | hwindow
      · omega
      · exact ⟨hwindow, hle⟩
  have hterm : ∃ t, (c.nodes i).log.getTerm k = some t := by
    rcases Nat.lt_or_ge k (c.nodes i).log.firstIndex with hlow | hin
    · exact ⟨0, if_pos (by omega)⟩
    · exact ⟨_, hd.durable.getTerm_eq hin hrange.2⟩
  obtain ⟨t, ht⟩ := hterm
  refine ⟨hrange, ⟨t, by rw [Node.termOfLogEntryAt, ht]; rfl⟩, ?_⟩
  have hsame : Node.getMajorityIndex { c.nodes i with outbox := [] } =
      (c.nodes i).getMajorityIndex := Node.getMajorityIndex_congr rfl rfl
  have hstep := Node.advanceCommitIndex_sat (n := { c.nodes i with outbox := [] }) hl
    (hsame ▸ hk) hlt ht hrange.2
  have hall : ((c.nodes i).handle (S.config i) .advanceCommitIndex).Sat (fun _ => True)
      (fun _ => True) fun _ => False :=
    Sat.bind hstep fun _ _ => sat_pure.mpr trivial
  obtain ⟨x, hx, -⟩ := hall.exists_result
  exact ⟨x, hx⟩

theorem commit_advance_in_window_replicated :
    ∃ c, RunsUnder threeVoters Cluster.Admits threeVoters.init c ∧
      (c.nodes 2).role = .leader ∧ (c.nodes 2).getMajorityIndex.result = .ok 2 ∧
      (c.nodes 2).commitIndex < 2 ∧
      ∃ x, ((c.nodes 2).handle config .advanceCommitIndex).result = .ok x := by
  have hrun : (threeVoters.init.runUnder threeVoters Cluster.Admits
      replicated).any (fun c => (c.nodes 2).role = .leader ∧
        (c.nodes 2).getMajorityIndex.value? = some 2 ∧ (c.nodes 2).commitIndex < 2) = true := by
    decide +kernel
  obtain ⟨c, hc, hp⟩ := (Option.any_eq_true _ _).mp hrun
  obtain ⟨hl, hk, hlt⟩ := of_decide_eq_true hp
  have hc := runsUnder_of_runUnder .refl hc
  have hk := Outcome.value?_eq_some.mp hk
  exact ⟨c, hc, hl, hk, hlt, (commit_advance_in_window hc (by decide) hl hk hlt).2.2⟩

/-- Node `2` of three voters commits what it has replicated to node `1`, cuts off its first entry
and appends another one. Node `1` wins term `2`, brings its log to node `3`, commits it and cuts
off its first two entries. It stops, wins term `3`, and probes node `2`: the second probe lies
below the window of node `2`, which acknowledges it. -/
def Scenario.stranded : List Action :=
  replicated ++ [own 2 .advanceCommitIndex, own 2 (.truncatePrefix 2),
    own 2 (.clientRequests [⟨⟨1, 3, false, 0, [], 0, none⟩, none⟩])] ++
  elected ++ [own 1 (.becomeLeader ⟨3000004, 1⟩), replicate 1 3000005, deliver 3 12 3000006,
    deliver 1 13 3000007, replicate 1 6000000, deliver 3 14 6000001, deliver 1 15 6000002,
    replicate 1 9000000, deliver 3 16 9000001, deliver 1 17 9000002, own 1 .advanceCommitIndex,
    own 1 (.truncatePrefix 3), .crash 1 (.own .advanceCommitIndex) 0 .follower ⟨9000003, 1⟩] ++
  stand 1 9000004 ++ [deliver 3 19 9000006, deliver 1 20 9000007,
    own 1 (.becomeLeader ⟨9000008, 1⟩), replicate 1 9000009, deliver 2 21 9000010,
    deliver 1 23 9000011, replicate 1 12000000, deliver 2 24 12000001, deliver 1 25 12000002]

/-- **A leader that aborts.** The window of node `1` starts at index `3`, its commit index is `0`,
and the majority index is `1`. -/
theorem commit_advance_aborts :
    ∃ c k, Reachable threeVoters c ∧ (c.nodes 1).role = .leader ∧
      (c.nodes 1).getMajorityIndex.result = .ok k ∧ (c.nodes 1).commitIndex < k ∧
      k < (c.nodes 1).log.firstIndex - 1 ∧
      ((c.nodes 1).handle config .advanceCommitIndex).result =
        .error (.termOfLogEntryAt k) := by
  obtain ⟨c, hc, hp⟩ := exists_reachable threeVoters stranded
    (p := fun c => (c.nodes 1).role = .leader ∧ (c.nodes 1).getMajorityIndex.value? = some 1 ∧
      (c.nodes 1).commitIndex < 1 ∧ 1 < (c.nodes 1).log.firstIndex - 1 ∧
      ((c.nodes 1).handle config .advanceCommitIndex).error? =
        some (.termOfLogEntryAt 1)) (by decide +kernel)
  obtain ⟨hl, hk, hlt, hlow, herr⟩ := of_decide_eq_true hp
  exact ⟨c, 1, hc, hl, Outcome.value?_eq_some.mp hk, hlt, hlow, Outcome.error?_eq_some.mp herr⟩

end Gringofts
