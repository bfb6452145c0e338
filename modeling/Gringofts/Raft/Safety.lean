import Gringofts.Raft.Evolution
import Gringofts.Raft.Refinement.Simulation

/-!
# Safety of the replicated log

What the refinement says about the logs of a cluster, as far as the nodes still have them.

## A node that may lose what another has committed

A node of a lower term can still be led by a leader of a lower term. When it holds an entry that
a later leader has committed without it, the request of the earlier leader makes it give the entry
up (`committed_entry_replaced`). So a node is sure to keep an entry that has been counted as
committed from the moment on at which its term has caught up with that of the node that counted.

## Main results

* `retained_log_matching` — two windows that agree on a term agree below it
* `state_machine_safety` — what is committed is the same everywhere and is kept
* `later_leader_has_committed` — a later leader has what was committed
* `election_safety` — one leader and one vote in a term
* `genuine_request_handled` — the request of a leader makes no node abort
-/

namespace Gringofts

open Replication Outcome Node

variable {S : Setup} {l : Log} {f : LogEntry} {a : State ℕ LogEntry} {n : Node} {src v : ℕ}
  {r : AppendEntriesRequest} {c : Cluster}

/-! ## Small clusters

Concrete clusters, in which the results below are shown to say something. -/

/-- A run that can be taken leads to a reachable state. -/
theorem exists_reachable (S : Setup) (as : List Action) {p : Cluster → Bool}
    (h : (S.init.run S as).any p = true) : ∃ c, Reachable S c ∧ p c = true := by
  obtain ⟨c, hc, hp⟩ := (Option.any_eq_true _ _).mp h
  exact ⟨c, runsTo_of_run hc, hp⟩

namespace Scenario

/-- The configurable variables of every node. -/
def config : RaftConfig where
  maxBatchSize := 10
  maxLenInBytes := 1000
  maxDecrStep := 100
  preVoteEnabled := false
  heartBeatIntervalInMillis := 1
  maxElectionTimeoutInMillis := 10
  initialElectionTimeout := 0
  byteSize _ := 1
  latestSecKeyVersion := 0
  maxBatchSize_pos := Nat.succ_pos 9
  maxLenInBytes_pos := Nat.succ_pos 999
  maxDecrStep_pos := Nat.succ_pos 99

/-- A cluster without joint sets and without in-sync learners, of which node `1` is a voter. -/
def setup (nodes : Table ClusterInfo.Node)
    (hids : ∀ id ∈ nodes.keys.elems, id ≠ 0 ∧ id < 2 ^ 32)
    (h1 : ((nodes.find? 1).map fun n => n.initialRole.toRaftRole) = some .follower) : Setup where
  info :=
    { clusterId := 0, nodes := nodes, oldJointMembers := IdSet.empty,
      newJointMembers := IdSet.empty, insyncLearners := IdSet.empty }
  wellFormed := ⟨fun h0 => (hids 0 h0).1 rfl, ⟨1, h1⟩, nofun, nofun, nofun, nofun, nofun⟩
  id_lt id hid := (hids id hid).2
  config _ := config
  bootRole id := if (nodes.find? id).map ClusterInfo.Node.initialRole = some .learner then .learner
    else .follower

/-- Three voters. -/
def threeVoters : Setup :=
  setup ⟨[(1, ⟨"a", 1, .voter⟩), (2, ⟨"b", 1, .voter⟩), (3, ⟨"c", 1, .voter⟩)], by decide⟩
    (by decide) (by decide)

/-- Three voters and a learner. -/
def threeVotersOneLearner : Setup :=
  setup ⟨[(1, ⟨"a", 1, .voter⟩), (2, ⟨"b", 1, .voter⟩), (3, ⟨"c", 1, .voter⟩),
    (4, ⟨"d", 1, .learner⟩)], by decide⟩ (by decide) (by decide)

/-- Node `i` takes a step of its own. -/
def own (i : ℕ) (ev : Event) : Action := .run i (.own ev)

/-- Node `i` receives the `k`-th message at time `t`. -/
def deliver (i k t : ℕ) : Action := .run i (.deliver k ⟨t, 1⟩)

/-- Node `i` sends AE requests at time `t`; every segment is long enough. -/
def replicate (i t : ℕ) : Action := own i (.appendEntries ⟨t, 1⟩ fun _ => 100)

/-- Node `i` stands for election at time `t` and asks for votes. -/
def stand (i t : ℕ) : List Action :=
  [own i (.electionTimeout ⟨t, 1⟩), own i (.requestVote ⟨t + 1, 1⟩)]

/-- Node `2` of three voters wins term `1`, and replicates its first entry and one of a client to
node `1`. -/
def replicated : List Action :=
  stand 2 10 ++ [deliver 1 0 12, deliver 2 2 13, own 2 (.becomeLeader ⟨14, 1⟩),
    own 2 (.clientRequests [⟨⟨1, 2, false, 0, [], 0, none⟩, none⟩]),
    replicate 2 15, deliver 1 3 16, deliver 2 5 17, replicate 2 2000000, deliver 1 6 2000001,
    deliver 2 7 2000002]

/-- Node `1` wins term `2` with the vote of node `3`, up to taking office. -/
def elected : List Action := stand 1 3000000 ++ [deliver 3 9 3000002, deliver 1 10 3000003]

/-- Node `1` of three voters and a learner wins term `1` and brings its first entry to the learner,
node `4`, only. Node `3` wins term `2`, and its first entry is on the way to the learner
(message `16`). Then node `1` wins term `3` and commits its log with the help of node `2`. -/
def overtaken : List Action :=
  stand 1 10 ++ [deliver 2 0 12, deliver 1 2 13, own 1 (.becomeLeader ⟨14, 1⟩),
    replicate 1 15, deliver 4 5 16, deliver 1 6 17, replicate 1 2000000, deliver 4 7 2000001] ++
  own 3 (.electionTimeout ⟨2000000, 1⟩) :: stand 3 2000002 ++
  [deliver 2 10 2000004, deliver 3 11 2000005, own 3 (.becomeLeader ⟨2000006, 1⟩),
    replicate 3 2000007, deliver 4 14 2000008, deliver 3 15 2000009, replicate 3 4000010,
    deliver 1 9 4000011] ++
  stand 1 4000012 ++ [deliver 2 18 4000014, deliver 1 20 4000015,
    own 1 (.becomeLeader ⟨4000016, 1⟩),
    replicate 1 4000017, deliver 2 21 4000018, deliver 1 24 4000019,
    replicate 1 6000020, deliver 2 25 6000021, deliver 1 26 6000022,
    replicate 1 8000023, deliver 2 27 8000024, deliver 1 28 8000025, own 1 .advanceCommitIndex]

end Scenario

open Scenario

/-! ## Windows -/

section Windows

variable {c : Cluster} {a : State ℕ LogEntry} {u v j : ℕ} {e : LogEntry}

theorem Durable.entryAt_of_getEntry (h : Durable a u l) (he : l.getEntry j = some e) :
    entryAt (a.log u) j = some e := by
  rw [← h.getEntry_eq (Log.first_le_of_getEntry he), he]

/-- The whole logs of two nodes that have one entry agree up to it. -/
theorem Refines.agree_of_getEntry (h : Refines S c a) (hu : u ∈ S.info.nodes.keys)
    (hv : v ∈ S.info.nodes.keys) (he : (c.nodes u).log.getEntry j = some e)
    (hf : (c.nodes v).log.getEntry j = some f) (ht : e.term = f.term) :
    Agree (a.log u) (a.log v) j := by
  have he' := (h.nodes u hu).durable.entryAt_of_getEntry he
  have hf' := (h.nodes v hv).durable.entryAt_of_getEntry hf
  have hle := le_length_of_entryAt he'
  refine h.inv.log_matching hle.1 hle.2 (le_length_of_entryAt hf').2 ?_
  rw [termAt_of_entryAt he', termAt_of_entryAt hf']
  exact ht

/-- What two whole logs share, two windows share as far as they reach. -/
theorem Refines.eq_of_agree {i : ℕ} (h : Refines S c a) (hu : u ∈ S.info.nodes.keys)
    (hv : v ∈ S.info.nodes.keys) (ha : Agree (a.log u) (a.log v) i) (hj : j ≤ i)
    (he : (c.nodes u).log.getEntry j = some e) (hf : (c.nodes v).log.getEntry j = some f) :
    e = f := by
  have he' := (h.nodes u hu).durable.entryAt_of_getEntry he
  have hf' := (h.nodes v hv).durable.entryAt_of_getEntry hf
  rw [ha.entryAt_eq hj, hf'] at he'
  exact (Option.some.inj he').symm

end Windows

/-- **Log matching.** When two nodes retain an index and have the same term there, they have the
same entries wherever below it both retain one. -/
theorem retained_log_matching {c : Cluster} (hc : Reachable S c) {u v i j : ℕ}
    {e f e' f' : LogEntry} (hu : u ∈ S.info.nodes.keys) (hv : v ∈ S.info.nodes.keys)
    (he : (c.nodes u).log.getEntry i = some e) (hf : (c.nodes v).log.getEntry i = some f)
    (ht : e.term = f.term) (hj : j ≤ i) (he' : (c.nodes u).log.getEntry j = some e')
    (hf' : (c.nodes v).log.getEntry j = some f') : e' = f' := by
  obtain ⟨a, ha⟩ := hc.refines
  exact ha.eq_of_agree hu hv (ha.agree_of_getEntry hu hv he hf ht) hj he' hf'

theorem retained_log_matching_replicated :
    ∃ c e f e' f', Reachable threeVoters c ∧ (c.nodes 1).log.getEntry 2 = some e ∧
      (c.nodes 2).log.getEntry 2 = some f ∧ e.term = f.term ∧
      (c.nodes 1).log.getEntry 1 = some e' ∧ (c.nodes 2).log.getEntry 1 = some f' ∧ e' = f' := by
  obtain ⟨c, hc, hp⟩ := exists_reachable threeVoters replicated
    (p := fun c => [1, 2].all fun v =>
      (c.nodes v).log.getEntry 2 = some ⟨1, 2, false, 0, [], 0, none⟩ ∧
      (c.nodes v).log.getEntry 1 = some ⟨1, 1, true, 14, [], 0, none⟩) (by decide +kernel)
  simp only [List.all_cons, List.all_nil, Bool.and_true, Bool.and_eq_true, decide_eq_true_eq] at hp
  obtain ⟨⟨h12, h11⟩, h22, h21⟩ := hp
  exact ⟨c, _, _, _, _, hc, h12, h22, rfl, h11, h21,
    retained_log_matching hc (by decide) (by decide) h12 h22 rfl (by decide) h11 h21⟩

/-! ## What is kept -/

section Keeps

variable {i t k j : ℕ} {e : LogEntry}

/-- A node that has an entry of a leader's log agrees with that log up to it. -/
theorem Durable.agree_llog (h : Durable a i l) (ha : S.protocol.Inv a) (he : l.getEntry j = some e)
    (hl : entryAt (a.llog t) j = some e) : Agree (a.log i) (a.llog t) j := by
  have he' := h.entryAt_of_getEntry he
  have hle := le_length_of_entryAt he'
  refine (ha.log_rooted i).agree (ha.llog_rooted t) hle.1 hle.2 (le_length_of_entryAt hl).2 ?_
  rw [termAt_of_entryAt he', termAt_of_entryAt hl]

/-- Once a node of a term not below `t` has stepped down, the rest of an AE request leaves it
what a leader of term `t` has committed. -/
theorem Node.acceptOrReject_keeps {a : S.Abstract} (clk : Clock) (hd : Describes S a.1 i n)
    (hf : n.Following) (hr : AppendEntriesOk S a.1 src i r) (hterm : a.1.term i = r.term)
    (hc : S.protocol.Committed a.1 t k) (ht : t ≤ a.1.term i) (hj : j ≤ k)
    (hlead : entryAt (a.1.llog t) j = some e) (he : n.log.getEntry j = some e) :
    (n.acceptOrReject clk r).Sat (fun l => l.getEntry j = some e)
      (fun x => x.1.log.getEntry j = some e) fun _ => True := by
  have hkeep : ∀ (b : S.Abstract) (l : Log), (S.abstraction i).reach a b → Durable b.1 i l →
      n.log.Follows r.entries l → l.getEntry j = some e := by
    intro b l hab hl hfront
    have hfirst : l.firstIndex ≤ j := hfront.first_eq ▸ Log.first_le_of_getEntry he
    have hag := Protocol.Steps.keeps_committed a.2 hab hc ht hj
      (hd.durable.agree_llog a.2 he hlead)
    rw [hl.getEntry_eq hfirst, hag.entryAt_eq (Nat.le_refl j), hd.durable.entryAt_of_getEntry he]
  refine ((acceptOrReject_sim clk hd hf hr hterm).and (acceptOrReject_sat clk r)).mono
    ?_ ?_ fun _ _ => trivial
  · rintro l ⟨⟨b, hab, hl⟩, hfront⟩
    exact hkeep b l hab hl hfront
  · rintro x ⟨⟨b, hab, hx, -⟩, hobeys⟩
    exact hkeep b x.1.log hab hx.durable hobeys.log

/-- **An AE request takes nothing committed** from a node whose term, after it, is not below that
of the leader that committed. -/
theorem Node.handleAppendEntriesRequest_keeps {a : S.Abstract} (clk : Clock)
    (hd : Describes S a.1 i n) (hr : AppendEntriesOk S a.1 src i r)
    (hc : S.protocol.Committed a.1 t k) (hj : j ≤ k) (hlead : entryAt (a.1.llog t) j = some e)
    (he : n.log.getEntry j = some e) :
    (n.handleAppendEntriesRequest clk r).Sat
      (fun l => t ≤ l.currentTerm → l.getEntry j = some e)
      (fun x => t ≤ x.1.log.currentTerm → x.1.log.getEntry j = some e) fun _ => True := by
  have hmem : r.leaderId ∈ S.info.nodes.keys := hr.leaderId_eq ▸ hr.src_mem
  rw [handleAppendEntriesRequest, S.roleKey_eq hmem, hd.members.isVoter_eq hmem, pure_bind]
  split
  · exact sat_pure.mpr fun _ => he
  split
  · exact sat_pure.mpr fun _ => he
  next hge =>
  split
  · exact sat_pure.mpr fun _ => he
  have hle : a.1.term i ≤ r.term := by
    rw [← hd.durable.term_eq]
    omega
  have hdown := (stepDownForLeader_sim clk hd hr hle).and (stepDownForLeader_sat clk r)
  refine Sat.bind
    (hdown.mono (fun l hl _ => hl.2.keeps.entry j e he) (fun _ => id) fun _ _ => trivial) ?_
  rintro m ⟨⟨b, hab, hdm, hfm, hterm⟩, hidle, -⟩
  have hg := S.grows_of_reach hab
  have hrb := hr.grows hg
  have hhail := (hail_sim (hdm.updateElectionTimePoint clk) hfm hrb hterm).and
    (hail_sat r.leaderId)
  refine Sat.bind (hhail.mono (fun l hl => hl.2.elim) (fun _ => id) fun _ _ => trivial) ?_
  rintro m' ⟨⟨b', -, rfl, hdm', hfm', -⟩, hidle', -⟩
  have he' : m'.log.getEntry j = some e :=
    hidle'.log.keeps.entry j e (hidle.log.keeps.entry j e he)
  -- the term does not change any more, so either the node has caught up or it has not
  by_cases ht : t ≤ b'.1.term i
  · have hlead' : entryAt (b'.1.llog t) j = some e := by
      rw [← hlead]
      exact (hg.llog_agree (le_length_of_entryAt hlead).2).entryAt_eq (Nat.le_refl j)
    have hkeep :=
      acceptOrReject_keeps clk hdm' hfm' hrb hterm (hg.committed hc) ht hj hlead' he'
    exact Sat.bind (hkeep.mono (fun _ hl _ => hl) (fun _ => id) fun _ => id)
      fun x hx => sat_pure.mpr fun _ => hx
  · have hlow : ∀ l : Log, m'.log.Follows r.entries l → ¬ t ≤ l.currentTerm := by
      intro l hl
      rw [hl.term_eq, hdm'.durable.term_eq]
      exact ht
    exact Sat.bind ((acceptOrReject_sat clk r).mono
      (fun l hl h => absurd h (hlow l hl)) (fun x hx => hlow x.1.log hx.log) fun _ => id)
      fun x hx => sat_pure.mpr fun h => absurd h hx

/-- **One step takes nothing committed** from a node whose term, after it, is not below that of
the leader that committed; it may cut it off at the front. -/
theorem Refines.step_keeps {c' : Cluster} {act : Action} {a : S.Abstract} (h : Refines S c a.1)
    (hs : c.step S act = some c') (hv : v ∈ S.info.nodes.keys) (hc : S.protocol.Committed a.1 t k)
    (hj : j ≤ k) (hlead : entryAt (a.1.llog t) j = some e)
    (he : (c.nodes v).log.getEntry j = some e) (ht : t ≤ (c'.nodes v).log.currentTerm) :
    (c'.nodes v).log.getEntry j = some e ∨ j < (c'.nodes v).log.firstIndex := by
  have hd := h.nodes v hv
  refine Cluster.step_log (W := fun l => t ≤ l.currentTerm →
    l.getEntry j = some e ∨ j < l.firstIndex) hs (fun _ => Or.inl he) ?_ ht
  intro inp ev origin _ hev
  by_cases hreq : ∃ clk r, ev = .appendEntriesRequest clk r
  · obtain ⟨clk, r, rfl⟩ := hreq
    -- a request comes from the network
    obtain ⟨hlocal, -⟩ | ⟨m, clk', hm, hdst, heq, -⟩ := Cluster.event?_cases hev
    · cases hlocal
    · have hok := h.net m hm
      obtain ⟨src, dst, call, msg⟩ := m
      cases msg <;> cases heq
      obtain rfl : dst = v := hdst
      refine Sat.bind ((handleAppendEntriesRequest_keeps clk hd.clearOutbox hok hc hj
        hlead he).mono (fun _ hl hle => Or.inl (hl hle)) (fun _ => id) fun _ => id) ?_
      exact fun x hx => sat_pure.mpr fun hle => Or.inl (hx hle)
  · refine (handle_sheds (S.config v) hd.role_ne (Cluster.event?_ne_reconfigure hev)
      fun clk r h => hreq ⟨clk, r, h⟩).mono (fun l hl _ => ?_) (fun x hx _ => ?_) fun _ => id
    · exact (Nat.lt_or_ge j l.firstIndex).symm.imp_left fun hge => hl.entry j e hge he
    · exact (Nat.lt_or_ge j x.1.log.firstIndex).symm.imp_left fun hge => hx.entry j e hge he

/-- What a node has counted was committed by a leader of no later term, and is in that leader's
log. -/
theorem Refines.exists_committed {x : ℕ} (h : Refines S c a) (hx : x ∈ S.info.nodes.keys)
    (hj : j ≤ (c.nodes x).commitIndex) (he : (c.nodes x).log.getEntry j = some e) :
    ∃ t k, t ≤ (c.nodes x).log.currentTerm ∧ S.protocol.Committed a t k ∧ j ≤ k ∧
      entryAt (a.llog t) j = some e := by
  have hd := h.nodes x hx
  have hpos : 1 ≤ j := (c.nodes x).log.first_pos.trans (Log.first_le_of_getEntry he)
  have hcom := hj.trans hd.commit_le
  rcases h.inv.committed_log x with h0 | ⟨t, k, ht, hc, hk, hag⟩
  · omega
  · refine ⟨t, k, hd.durable.term_eq ▸ ht, hc, hcom.trans hk, ?_⟩
    rw [← hag.entryAt_eq hcom]
    exact hd.durable.entryAt_of_getEntry he

theorem Grows.entryAt_llog {b : State ℕ LogEntry} (hg : Grows a b)
    (h : entryAt (a.llog t) j = some e) : entryAt (b.llog t) j = some e := by
  rw [(hg.llog_agree (le_length_of_entryAt h).2).entryAt_eq (Nat.le_refl j), h]

end Keeps

/-- **State machine safety.** Two nodes that have both counted an index as committed and retain it
have the same entry there. And once a node has counted an entry, no node of the same or a later
term that holds the entry loses it, but by truncating a committed prefix of its log. -/
theorem state_machine_safety {c : Cluster} (hc : Reachable S c) :
    (∀ u ∈ S.info.nodes.keys, ∀ v ∈ S.info.nodes.keys, ∀ (i : ℕ) (e f : LogEntry),
      i ≤ (c.nodes u).commitIndex → i ≤ (c.nodes v).commitIndex →
      (c.nodes u).log.getEntry i = some e → (c.nodes v).log.getEntry i = some f → e = f) ∧
    (∀ x ∈ S.info.nodes.keys, ∀ (i : ℕ) (e : LogEntry), i ≤ (c.nodes x).commitIndex →
      (c.nodes x).log.getEntry i = some e →
      ∀ (d d' : Cluster) (act : Action), RunsTo S c d → d.step S act = some d' →
      ∀ v ∈ S.info.nodes.keys, (d.nodes v).log.getEntry i = some e →
        (c.nodes x).log.currentTerm ≤ (d'.nodes v).log.currentTerm →
        (d'.nodes v).log.getEntry i = some e ∨ i < (d'.nodes v).log.firstIndex) := by
  obtain ⟨a, ha⟩ := hc.refines
  constructor
  · intro u hu v hv i e f hiu hiv he hf
    refine ha.eq_of_agree hu hv (ha.inv.committed_agree_committed u v) ?_ he hf
    exact Nat.le_min.mpr
      ⟨hiu.trans (ha.nodes u hu).commit_le, hiv.trans (ha.nodes v hv).commit_le⟩
  · intro x hx i e hi he d d' act hrun hs v hv hev hterm
    obtain ⟨t, k, ht, hcom, hik, hlead⟩ := ha.exists_committed hx hi he
    obtain ⟨b, hg, hb⟩ := hrun.refines ha
    exact hb.step_keeps hs hv (hg.committed hcom) hik (Grows.entryAt_llog hg hlead) hev
      (ht.trans hterm)

/-- **A committed entry that is replaced.** Node `1` has counted the entry at index `1`, and the
learner holds it. The request of the leader of term `2` arrives late and puts another entry in its
place. -/
theorem committed_entry_replaced :
    ∃ (c d : Cluster) (act : Action) (e f : LogEntry),
      Reachable threeVotersOneLearner c ∧ 1 ≤ (c.nodes 1).commitIndex ∧
      (c.nodes 1).log.getEntry 1 = some e ∧ (c.nodes 4).log.getEntry 1 = some e ∧
      c.step threeVotersOneLearner act = some d ∧
      (d.nodes 4).log.getEntry 1 = some f ∧ f ≠ e := by
  obtain ⟨c, hc, hp⟩ := exists_reachable threeVotersOneLearner overtaken
    (p := fun c => 1 ≤ (c.nodes 1).commitIndex ∧
      (c.nodes 1).log.getEntry 1 = some ⟨1, 1, true, 14, [], 0, none⟩ ∧
      (c.nodes 4).log.getEntry 1 = some ⟨1, 1, true, 14, [], 0, none⟩ ∧
      (c.step threeVotersOneLearner (deliver 4 16 9000000)).any fun d =>
        (d.nodes 4).log.getEntry 1 = some ⟨2, 1, true, 2000006, [], 0, none⟩) (by decide +kernel)
  obtain ⟨h1, h2, h3, h4⟩ := of_decide_eq_true hp
  obtain ⟨d, hd, h5⟩ := (Option.any_eq_true _ _).mp h4
  exact ⟨c, d, _, _, _, hc, h1, h2, h3, hd, of_decide_eq_true h5, by decide⟩

theorem state_machine_safety_overtaken :
    ∃ (c d : Cluster) (act : Action) (e : LogEntry),
      Reachable threeVotersOneLearner c ∧ 1 ≤ (c.nodes 1).commitIndex ∧
      (c.nodes 1).log.getEntry 1 = some e ∧ (c.nodes 2).log.getEntry 1 = some e ∧
      (c.nodes 1).log.currentTerm ≤ (c.nodes 2).log.currentTerm ∧
      c.step threeVotersOneLearner act = some d ∧
      ((d.nodes 2).log.getEntry 1 = some e ∨ 1 < (d.nodes 2).log.firstIndex) := by
  obtain ⟨c, hc, hp⟩ := exists_reachable threeVotersOneLearner overtaken
    (p := fun c => 1 ≤ (c.nodes 1).commitIndex ∧
      (c.nodes 1).log.getEntry 1 = some ⟨1, 1, true, 14, [], 0, none⟩ ∧
      (c.nodes 2).log.getEntry 1 = some ⟨1, 1, true, 14, [], 0, none⟩ ∧
      (c.nodes 1).log.currentTerm ≤ (c.nodes 2).log.currentTerm ∧
      (c.step threeVotersOneLearner (deliver 2 13 9000000)).any fun d =>
        (c.nodes 1).log.currentTerm ≤ (d.nodes 2).log.currentTerm) (by decide +kernel)
  obtain ⟨h1, h2, h3, h4, h5⟩ := of_decide_eq_true hp
  obtain ⟨d, hd, h6⟩ := (Option.any_eq_true _ _).mp h5
  exact ⟨c, d, _, _, hc, h1, h2, h3, h4, hd, (state_machine_safety hc).2 1 (by decide) 1 _ h1 h2
    c d _ .refl hd 2 (by decide) h3 (of_decide_eq_true h6)⟩

/-! ## Leaders -/

/-- What lies below a window was cut off by the node itself, after it had counted it as
committed. -/
theorem Reachable.cut_off (hc : Reachable S c) {j : ℕ} (hv : v ∈ S.info.nodes.keys) (hpos : 1 ≤ j)
    (hj : j < (c.nodes v).log.firstIndex) :
    ∃ d e, Reachable S d ∧ RunsTo S d c ∧ (d.nodes v).log.getEntry j = some e ∧
      j ≤ (d.nodes v).commitIndex := by
  induction hc with
  | refl => exact absurd hpos (Nat.not_le.mpr hj)
  | @tail d c' act hd hs ih =>
    obtain ⟨a, ha⟩ := Reachable.refines hd
    have hdv := ha.nodes v hv
    rcases Nat.lt_or_ge j (d.nodes v).log.firstIndex with hlt | hge
    · obtain ⟨d', e, hd', hrun, he⟩ := ih hlt
      exact ⟨d', e, hd', hrun.tail hs, he⟩
    have hfirst := Cluster.step_log (W := fun l => l.firstIndex = (d.nodes v).log.firstIndex ∨
      l.firstIndex ≤ (d.nodes v).commitIndex) hs (Or.inl rfl) fun inp ev origin _ hev =>
        handle_first (S.config v) hdv.role_ne (Cluster.event?_ne_reconfigure hev)
    have hcommit : j ≤ (d.nodes v).commitIndex := by omega
    obtain ⟨e, he⟩ := exists_entryAt hpos
      ((hcommit.trans hdv.commit_le).trans (ha.inv.committed_le v))
    exact ⟨d, e, hd, .tail .refl hs, by rw [hdv.durable.getEntry_eq hge, he], hcommit⟩

/-- **Leader completeness.** When a leader has raised its commit index over an entry, every node
that becomes leader in a later term has that entry, or it has cut it off after counting it as
committed itself. -/
theorem later_leader_has_committed {c c' d d' : Cluster} {l n i : ℕ} {e : LogEntry} {clk : Clock}
    (hc : Reachable S c) (hl : l ∈ S.info.nodes.keys) (hn : n ∈ S.info.nodes.keys)
    (hcommit : c.step S (.run l (.own .advanceCommitIndex)) = some c')
    (hi : i ≤ (c'.nodes l).commitIndex) (he : (c'.nodes l).log.getEntry i = some e)
    (hrun : RunsTo S c' d) (hlead : d.step S (.run n (.own (.becomeLeader clk))) = some d')
    (hrole : (d'.nodes n).role = .leader)
    (hterm : (c'.nodes l).log.currentTerm < (d'.nodes n).log.currentTerm) :
    (d'.nodes n).log.getEntry i = some e ∨ (i < (d'.nodes n).log.firstIndex ∧
      ∃ d₀, Reachable S d₀ ∧ RunsTo S d₀ d' ∧ i ≤ (d₀.nodes n).commitIndex) := by
  have hc' : Reachable S c' := .tail hc hcommit
  obtain ⟨a, ha⟩ := hc'.refines
  obtain ⟨t, k, ht, hcom, hik, hent⟩ := ha.exists_committed hl hi he
  obtain ⟨b, hg, hb⟩ := (hrun.tail hlead).refines ha
  have hd := hb.nodes n hn
  have hoffice := (hd.leader hrole).1
  have hle : t ≤ b.1.term n := by
    rw [← hd.durable.term_eq]
    omega
  have hag := b.2.committed_agree_llog (hg.committed hcom) hle (hoffice ▸ Option.some_ne_none n)
  rcases Nat.lt_or_ge i (d'.nodes n).log.firstIndex with hlt | hge
  · refine Or.inr ⟨hlt, ?_⟩
    have hpos := (c'.nodes l).log.first_pos.trans (Log.first_le_of_getEntry he)
    obtain ⟨d₀, -, h0, h0d, -, hle⟩ := Reachable.cut_off (hc'.trans (hrun.tail hlead)) hn hpos hlt
    exact ⟨d₀, h0, h0d, hle⟩
  · refine Or.inl ?_
    rw [hd.durable.getEntry_eq hge, b.2.leader_log hoffice rfl, hag.entryAt_eq hik]
    exact Grows.entryAt_llog hg hent

theorem later_leader_has_committed_replicated :
    ∃ (c c' d d' : Cluster) (e : LogEntry), Reachable threeVoters c ∧
      c.step threeVoters (.run 2 (.own .advanceCommitIndex)) = some c' ∧
      2 ≤ (c'.nodes 2).commitIndex ∧ (c'.nodes 2).log.getEntry 2 = some e ∧
      RunsTo threeVoters c' d ∧
      d.step threeVoters (.run 1 (.own (.becomeLeader ⟨3000004, 1⟩))) = some d' ∧
      (d'.nodes 1).role = .leader ∧ ((d'.nodes 1).log.getEntry 2 = some e ∨
        (2 < (d'.nodes 1).log.firstIndex ∧ ∃ d₀, Reachable threeVoters d₀ ∧
          RunsTo threeVoters d₀ d' ∧ 2 ≤ (d₀.nodes 1).commitIndex)) := by
  obtain ⟨c, hc, hp⟩ := exists_reachable threeVoters replicated
    (p := fun c => (c.step threeVoters (.run 2 (.own .advanceCommitIndex))).any fun c' =>
      2 ≤ (c'.nodes 2).commitIndex ∧
      (c'.nodes 2).log.getEntry 2 = some ⟨1, 2, false, 0, [], 0, none⟩ ∧
      (c'.run threeVoters elected).any fun d =>
        (d.step threeVoters (.run 1 (.own (.becomeLeader ⟨3000004, 1⟩)))).any fun d' =>
          (d'.nodes 1).role = .leader ∧
          (c'.nodes 2).log.currentTerm < (d'.nodes 1).log.currentTerm) (by decide +kernel)
  obtain ⟨c', hc', hp'⟩ := (Option.any_eq_true _ _).mp hp
  obtain ⟨hi, he, hrun⟩ := of_decide_eq_true hp'
  obtain ⟨d, hd, hlead⟩ := (Option.any_eq_true _ _).mp hrun
  obtain ⟨d', hd', hrole⟩ := (Option.any_eq_true _ _).mp hlead
  obtain ⟨hr, ht⟩ := of_decide_eq_true hrole
  exact ⟨c, c', d, d', _, hc, hc', hi, he, runsTo_of_run hd, hd', hr,
    later_leader_has_committed hc (by decide) (by decide) hc' hi he (runsTo_of_run hd) hd' hr ht⟩

/-! ## Elections -/

/-- The message grants a vote in term `t`. A prevote is none. -/
def Envelope.Grants (m : Envelope) (t : ℕ) : Prop :=
  ∃ r, m.msg = .requestVoteResponse r ∧ r.voteGranted = true ∧ r.prevote = false ∧
    r.savedTerm = t

/-- A vote that was granted is on record. -/
theorem Refines.ballot_of_grants {m : Envelope} {t : ℕ} (h : Refines S c a) (hm : m ∈ c.net)
    (hg : m.Grants t) : a.ballot t m.src = some m.dst := by
  obtain ⟨r, hmsg, hgranted, hpre, rfl⟩ := hg
  have hok := h.net m hm
  rw [MessageOk, hmsg] at hok
  exact (hok.2 hgranted hpre).2

/-- **Election safety.** In the course of a run no two nodes are leader in one term, no node grants
its vote to two nodes in one term, and a node that stands for election grants it to nobody
else. -/
theorem election_safety {c d : Cluster} (hc : Reachable S c) (hrun : RunsTo S c d) :
    (∀ u ∈ S.info.nodes.keys, ∀ v ∈ S.info.nodes.keys, (c.nodes u).role = .leader →
      (d.nodes v).role = .leader → (c.nodes u).log.currentTerm = (d.nodes v).log.currentTerm →
      u = v) ∧
    (∀ m ∈ d.net, ∀ m' ∈ d.net, ∀ t, m.Grants t → m'.Grants t → m.src = m'.src →
      m.dst = m'.dst) ∧
    (∀ v ∈ S.info.nodes.keys, (c.nodes v).role = .candidate → ∀ m ∈ d.net, m.src = v →
      m.Grants (c.nodes v).log.currentTerm → m.dst = v) := by
  obtain ⟨a, ha⟩ := hc.refines
  obtain ⟨b, hg, hb⟩ := hrun.refines ha
  refine ⟨?_, ?_, ?_⟩
  · intro u hu v hv hlu hlv hterm
    have h1 := hg.leader_eq ((ha.nodes u hu).leader hlu).1
    have h2 := ((hb.nodes v hv).leader hlv).1
    rw [← (ha.nodes u hu).durable.term_eq, hterm, (hb.nodes v hv).durable.term_eq, h2] at h1
    exact (Option.some.inj h1).symm
  · intro m hm m' hm' t hgr hgr' hsrc
    have h1 := hb.ballot_of_grants hm hgr
    rw [hsrc, hb.ballot_of_grants hm' hgr'] at h1
    exact (Option.some.inj h1).symm
  · intro v hv hcand m hm hsrc hgr
    have h1 := hg.ballot_eq ((ha.nodes v hv).candidate hcand).ballot_eq
    have h2 := hb.ballot_of_grants hm hgr
    rw [(ha.nodes v hv).durable.term_eq, hsrc, h1] at h2
    exact (Option.some.inj h2).symm

theorem election_safety_elected :
    ∃ c, Reachable threeVoters c ∧ (c.nodes 1).role = .candidate ∧
      (∃ m ∈ c.net, m.Grants 2) ∧ ∀ m ∈ c.net, ∀ m' ∈ c.net, m.Grants 2 → m'.Grants 2 →
        m.src = m'.src → m.dst = m'.dst := by
  obtain ⟨c, hc, hp⟩ := exists_reachable threeVoters
    (replicated ++ elected) (p := fun c => (c.nodes 1).role = .candidate ∧
      c.net[10]? = some ⟨3, 1, 6, .requestVoteResponse ⟨2, true, 3, 2, false⟩⟩) (by decide +kernel)
  obtain ⟨h1, h2⟩ := of_decide_eq_true hp
  exact ⟨c, hc, h1, ⟨_, List.mem_of_getElem? h2, _, rfl, rfl, rfl, rfl⟩,
    fun m hm m' hm' => (election_safety hc .refl).2.1 m hm m' hm' 2⟩

/-! ## Requests of a leader -/

/-- **A follower never aborts on a genuine request.** Whatever its state and however old the
request, a node handles every AE request that was ever sent to it without failing an assertion. -/
theorem genuine_request_handled {c : Cluster} (hc : Reachable S c) {m : Envelope} (hm : m ∈ c.net)
    (hdst : m.dst ∈ S.info.nodes.keys) {r : AppendEntriesRequest}
    (hmsg : m.msg = .appendEntriesRequest r) (clk : Clock) :
    ∃ x, ((c.nodes m.dst).handle (S.config m.dst) (.appendEntriesRequest clk r)).result =
      .ok x := by
  obtain ⟨a, ha⟩ := hc.refines
  have hok := ha.net m hm
  rw [MessageOk, hmsg] at hok
  have hsat := handleAppendEntriesRequest_sim clk (ha.nodes m.dst hdst).clearOutbox hok
  have hall : ((c.nodes m.dst).handle (S.config m.dst) (.appendEntriesRequest clk r)).Sat
      _ (fun _ => True) fun _ => False :=
    Sat.bind hsat fun _ _ => sat_pure.mpr trivial
  obtain ⟨x, hx, -⟩ := hall.exists_result
  exact ⟨x, hx⟩

theorem genuine_request_handled_overtaken :
    ∃ c m r x, Reachable threeVotersOneLearner c ∧ m ∈ c.net ∧
      m.msg = .appendEntriesRequest r ∧ r.entries ≠ [] ∧
      ((c.nodes m.dst).handle config (.appendEntriesRequest ⟨9000000, 1⟩ r)).result =
        .ok x := by
  obtain ⟨c, hc, hp⟩ := exists_reachable threeVotersOneLearner overtaken
    (p := fun c => c.net[16]? = some ⟨3, 4, 11, .appendEntriesRequest
      ⟨2, 3, 0, 0, [⟨2, 1, true, 2000006, [], 0, none⟩], 0⟩⟩) (by decide +kernel)
  have hmem := List.mem_of_getElem? (of_decide_eq_true hp)
  obtain ⟨x, hx⟩ := genuine_request_handled hc hmem (by decide) rfl ⟨9000000, 1⟩
  exact ⟨c, _, _, x, hc, hmem, rfl, by simp, hx⟩

end Gringofts
