import Gringofts.Raft.Refinement.StepDown

/-!
# Elections

Standing for election, asking for votes, granting them and counting them. A candidate stands with
the log it has when it raises its term, and keeps it while it stands; the votes it knows of are
ballots that were cast for it; so a count that passes is an election.

## Main results

* `Node.becomeCandidate_sim`, `Node.electionTimeout_sim`, `Node.becomeLeader_sim`
* `Node.requestVote_sim`, `Node.handleRequestVoteRequest_sim`,
  `Node.receiveRequestVoteResponse_sim`
-/

namespace Gringofts

open Replication Abstraction Node

variable {S : Setup} {i : ℕ} {n : Node} {a : State ℕ LogEntry} {id c src : ℕ} {f : Peer → Peer}
  {l : Log} {r : RequestVoteRequest}

/-! ### Changing what is known of a peer -/

theorem ClusterMemberShip.Of.withPeers {m : ClusterMemberShip} (h : m.Of S i) {t : Table Peer}
    (ht : t.keys = m.peers.keys) : ClusterMemberShip.Of S i { m with peers := t } :=
  { h with keys_eq := ht.trans h.keys_eq }

/-- A change to one peer keeps the description when it claims no vote that was not cast and no
progress that was not made. -/
theorem Describes.modifyPeer (h : Describes S a i n)
    (hvote : n.role = .candidate → ∀ p, n.peer? id = some p → (f p).haveVote = true →
      p.haveVote = true ∨ (S.info.IsVoter id ∧ a.ballot (a.term i) id = some i))
    (hpeer : n.role = .leader → ∀ p, n.peer? id = some p →
      PeerOk a (a.term i) (a.log i).length id (f p)) : Describes S a i (n.modifyPeer id f) :=
  { h with
    members := h.members.withPeers (Table.keys_modify _ _ _)
    candidate := fun hr =>
      { h.candidate hr with
        votes := fun j p hp hv => by
          change (n.members.peers.modify id f).find? j = some p at hp
          by_cases hj : j = id
          · subst hj
            rw [Table.find?_modify_self] at hp
            obtain ⟨q, hq, rfl⟩ := Option.map_eq_some_iff.mp hp
            rcases hvote hr q hq hv with hold | hnew
            · exact (h.candidate hr).votes j q hq hold
            · exact hnew
          · rw [Table.find?_modify_of_ne _ _ hj] at hp
            exact (h.candidate hr).votes j p hp hv }
    peers := fun hr j p hp => by
      change (n.members.peers.modify id f).find? j = some p at hp
      by_cases hj : j = id
      · subst hj
        rw [Table.find?_modify_self] at hp
        obtain ⟨q, hq, rfl⟩ := Option.map_eq_some_iff.mp hp
        exact hpeer hr q hq
      · rw [Table.find?_modify_of_ne _ _ hj] at hp
        exact h.peers hr j p hp }

/-- Times are no part of the description. -/
theorem Describes.modifyPeer_times (h : Describes S a i n) (hv : ∀ p, (f p).haveVote = p.haveVote)
    (hm : ∀ p, (f p).matchIndex = p.matchIndex) (hn : ∀ p, (f p).nextIndex = p.nextIndex) :
    Describes S a i (n.modifyPeer id f) := by
  refine h.modifyPeer (fun _ p _ hp => Or.inl (hv p ▸ hp)) fun hr p hp => ?_
  have hok := h.peers hr id p hp
  exact ⟨hm p ▸ hok.match_le, hm p ▸ hn p ▸ hok.match_lt, hn p ▸ hok.next_le⟩

theorem Describes.send (h : Describes S a i n) {o : Output} (ho : OutputOk S a i o) :
    Describes S a i (n.send o) :=
  { h with
    outbox := Describes.append_outbox h.outbox fun o' ho' => by
      rw [List.mem_singleton.mp ho']
      exact ho }

/-! ### Standing -/

section

variable {a : S.Abstract}

/-- Nobody stands in a term it has not reached. -/
theorem cand_eq_none {t : ℕ} (ht : a.1.term i < t) : a.1.cand t i = none := by
  cases hc : a.1.cand t i with
  | none => rfl
  | some l => exact absurd (a.2.cand_terms hc).1.2 (by omega)

theorem Durable.stand (h : Durable a.1 i l) (hi : i ≠ 0) :
    Durable (a.1.stand i) i (l.setVoteFor i) :=
  { h with
    vote_eq := by
      rw [State.stand_vote]
      exact (if_neg hi).symm }

/-- **Standing for election**: the term is raised in one write, the vote cast in the next. The
peers have to be asked anew, so no earlier vote counts. -/
theorem Node.standForElection_sim (h : Describes S a.1 i n) (hi : i ≠ 0) (clk : Clock) :
    (S.abstraction i).Sim a (n.standForElection >>= fun m => pure (m.scheduleVotes clk))
      (fun b m => Describes S b.1 i m) fun _ => False := by
  have hself : n.selfId = i := h.members.selfId_eq
  have hcur := h.durable.term_eq
  have hlt : a.1.term i < n.log.currentTerm + 1 := by omega
  have hs1 : S.protocol.Step i a.1 (a.1.bump i (n.log.currentTerm + 1)) := .bump hlt
  have hterm : (a.1.bump i (n.log.currentTerm + 1)).term i = n.log.currentTerm + 1 :=
    State.bump_term _ _ _
  have hs2 : S.protocol.Step i (a.1.bump i (n.log.currentTerm + 1))
      ((a.1.bump i (n.log.currentTerm + 1)).stand i) := by
    refine .stand (by rw [hterm]; omega) ?_ ?_ fun e he => ?_
    · rw [hterm]
      exact ballot_eq_none hlt
    · rw [hterm]
      exact cand_eq_none hlt
    · rw [hterm]
      exact Nat.lt_of_le_of_lt (a.2.log_terms he) hlt
  have hd1 : Durable (a.after hs1).1 i (n.log.setCurrentTerm (n.log.currentTerm + 1)) :=
    h.durable.bump
  have hd2 := hd1.stand hi
  have hg := (Protocol.Step.grows a.2 hs1).trans (Protocol.Step.grows (a.after hs1).2 hs2)
  rw [standForElection, bind_assoc]
  refine .advance (S.reach_after a hs1) (.bind (R := fun b m => b = a.after hs1 ∧
    m = { n with
      role := .candidate, leaderId := 0,
      log := n.log.setCurrentTerm (n.log.currentTerm + 1) }) ?_ ?_)
  · exact .bind (sim_persist (Q := fun b _ => b = a.after hs1) hd1 rfl)
      fun b _ _ hb => sim_pure ⟨hb, rfl⟩
  rintro b m - ⟨rfl, rfl⟩
  refine .advance (S.reach_after (a.after hs1) hs2) ?_
  change (S.abstraction i).Sim _ (write _ ((Log.setCurrentTerm _ _).setVoteFor n.selfId) >>= _)
    _ _
  rw [hself, write, bind_assoc]
  refine .bind (sim_persist (Q := fun b _ => b = (a.after hs1).after hs2) hd2 rfl) ?_
  rintro b - - rfl
  rw [pure_bind]
  refine sim_pure
    { members := h.members.withPeers (Table.keys_map _ _)
      durable := hd2
      commit_le := h.commit_le
      role_ne := by simp [scheduleVotes, mapPeers, updateElectionTimePoint]
      leaderId_eq := fun h0 => absurd rfl h0
      leader := fun hr => by cases hr
      candidate := fun _ =>
        { cand_eq := State.stand_cand _ _
          ballot_eq := State.stand_ballot _ _
          leader_ne := fun hl => ?_
          votes := fun id p hp hv => ?_ }
      no_leaderId := fun _ => rfl
      peers := fun hr => by cases hr
      outbox := fun o ho => (h.outbox o ho).grows hg }
  · -- the node cannot have won a term it had not reached
    change a.1.leader ((a.1.bump i _).term i) = some i at hl
    rw [hterm] at hl
    have := a.2.leader_le hl
    omega
  · change (n.members.peers.map _).find? id = some p at hp
    rw [Table.find?_map] at hp
    obtain ⟨q, -, rfl⟩ := Option.map_eq_some_iff.mp hp
    cases hv

/-- Standing for a prevote changes nothing that is described. -/
theorem Describes.scheduleVotes {b : State ℕ LogEntry} (h : Describes S b i n) (clk : Clock)
    (hr : n.role = .preCandidate) : Describes S b i (n.scheduleVotes clk) :=
  { h with
    members := h.members.withPeers (Table.keys_map _ _)
    candidate := fun hc => by
      change n.role = .candidate at hc
      rw [hr] at hc
      cases hc
    peers := fun hl => by
      change n.role = .leader at hl
      rw [hr] at hl
      cases hl }

theorem Node.becomeCandidate_sim (h : Describes S a.1 i n) (hi : i ∈ S.info.nodes.keys)
    (clk : Clock) :
    (S.abstraction i).Sim a (n.becomeCandidate clk) (fun b m => Describes S b.1 i m)
      fun _ => False := by
  have h0 : i ≠ 0 := fun h0 => S.wellFormed.zero_not_mem (h0 ▸ hi)
  rw [becomeCandidate]
  refine .ite (fun _ => sim_pure h) fun _ => ?_
  rw [checkVotePass_eq h.members hi, pure_bind]
  exact .ite (fun _ => standForElection_sim h h0 clk) fun _ => sim_pure h

theorem Node.electionTimeout_sim (h : Describes S a.1 i n) (hi : i ∈ S.info.nodes.keys)
    (cfg : RaftConfig) (clk : Clock) :
    (S.abstraction i).Sim a (n.electionTimeout cfg clk) (fun b m => Describes S b.1 i m)
      fun _ => False := by
  have h0 : i ≠ 0 := fun h0 => S.wellFormed.zero_not_mem (h0 ▸ hi)
  rw [electionTimeout]
  refine .ite (fun _ => sim_pure h) fun _ => .ite (fun _ => sim_pure h)
    fun _ => .ite (fun _ => sim_pure ?_)
      fun _ => standForElection_sim h h0 clk
  refine Describes.scheduleVotes ?_ clk rfl
  exact
    { h with
      role_ne := by simp
      leaderId_eq := fun h0 => absurd rfl h0
      leader := fun hr => by cases hr
      candidate := fun hr => by cases hr
      no_leaderId := fun _ => rfl
      peers := fun hr => by cases hr }

/-! ### Winning -/

/-- The members whose votes a candidate knows of. -/
def votesOf (S : Setup) (n : Node) : Finset ℕ :=
  (S.info.nodes.keys.elems.filter n.Voted).toFinset

theorem mem_votesOf : id ∈ votesOf S n ↔ id ∈ S.info.nodes.keys ∧ n.Voted id = true := by
  rw [votesOf, List.mem_toFinset, List.mem_filter]
  rfl

/-- **A count that passes is an election.** -/
theorem Standing.elects (h : Describes S a.1 i n) (hst : Standing S a.1 i n.members.peers)
    (hpass : ∀ q ∈ S.info.quorumSets,
      (S.info.electorate q).length / 2 < (S.info.electorate q).countP n.Voted) :
    S.info.Elects (votesOf S n) ∧
      ∀ v ∈ votesOf S n, a.1.ballot (a.1.term i) v = some i := by
  have hself : n.selfId = i := h.members.selfId_eq
  have hvoted : ∀ v ∈ votesOf S n, v = i ∨
      (S.info.IsVoter v ∧ a.1.ballot (a.1.term i) v = some i) := by
    intro v hv
    have hv := (mem_votesOf.mp hv).2
    rw [Node.Voted, decide_eq_true_eq, hself] at hv
    rcases hv with rfl | hv
    · exact Or.inl rfl
    · cases hp : n.peer? v with
      | none => simp [hp] at hv
      | some p =>
        rw [hp] at hv
        exact Or.inr (hst.votes v p hp hv)
  refine ⟨⟨i, fun v hv => (hvoted v hv).imp id And.left, fun q hq => ?_⟩, fun v hv => ?_⟩
  · refine (hpass q hq).trans_le (List.countP_mono_left fun id hid hv => ?_)
    have hmem := S.wellFormed.mem_keys hq (List.mem_filter.mp hid).1
    exact decide_eq_true (mem_votesOf.mpr ⟨hmem, hv⟩)
  · rcases hvoted v hv with rfl | hv
    · exact hst.ballot_eq
    · exact hv.2

/-- **Winning an election**: the noop of the new leader is the first entry of its term. -/
theorem Node.becomeLeader_sim (h : Describes S a.1 i n) (hi : i ∈ S.info.nodes.keys)
    (cfg : RaftConfig) (clk : Clock) :
    (S.abstraction i).Sim a (n.becomeLeader cfg clk) (fun b m => Describes S b.1 i m)
      fun _ => False := by
  rw [becomeLeader]
  refine .ite (fun _ => sim_pure h) fun hrole => ?_
  rw [checkVotePass_eq h.members hi, pure_bind]
  refine .ite (fun hpass => ?_) fun _ => sim_pure h
  have hst := h.candidate (not_not.mp hrole)
  have hself : n.selfId = i := h.members.selfId_eq
  obtain ⟨hE, hb⟩ := hst.elects h (of_decide_eq_true hpass)
  have hs1 : S.protocol.Step i a.1 (a.1.elect i) := .elect hst.cand_eq hst.leader_ne hE hb
  have hlead : (a.1.elect i).leader (a.1.term i) = some i := State.elect_leader _ _
  have hs2 : S.protocol.Step i (a.1.elect i) ((a.1.elect i).append i [n.noopEntry cfg clk]) := by
    refine .append hlead fun e he => ?_
    rw [List.mem_singleton.mp he]
    exact h.durable.term_eq
  have hlog : ((a.1.elect i).append i [n.noopEntry cfg clk]).log i =
      a.1.log i ++ [n.noopEntry cfg clk] := State.append_log _ _ _
  have hdur : Durable ((a.1.elect i).append i [n.noopEntry cfg clk]) i
      (n.log.appendEntry (n.noopEntry cfg clk) rfl) := { h.durable.appendEntry rfl with }
  have hg := (Protocol.Step.grows a.2 hs1).trans (Protocol.Step.grows (a.after hs1).2 hs2)
  refine .advance (S.reach_after a hs1) (.advance (S.reach_after (a.after hs1) hs2) ?_)
  refine .bind (sim_persist (Q := fun b _ => b = (a.after hs1).after hs2) hdur rfl) ?_
  rintro b - - rfl
  refine sim_pure
    { members := h.members.withPeers (Table.keys_map _ _)
      durable := hdur
      commit_le := h.commit_le
      role_ne := by simp [mapPeers]
      leaderId_eq := fun _ => hlead.trans (congrArg some hself.symm)
      leader := fun _ => ⟨hlead, hself⟩
      candidate := fun hr => by cases hr
      no_leaderId := fun hr => by rcases hr with hr | hr <;> cases hr
      peers := fun _ id p hp => ?_
      outbox := fun o ho => (h.outbox o ho).grows hg }
  change (n.members.peers.map _).find? id = some p at hp
  rw [Table.find?_map] at hp
  obtain ⟨q, -, rfl⟩ := Option.map_eq_some_iff.mp hp
  refine ⟨Nat.zero_le _, Nat.succ_pos _, ?_⟩
  change n.log.lastIndex + 1 ≤ _
  rw [h.durable.lastIndex_eq]
  change _ ≤ (((a.1.elect i).append i [n.noopEntry cfg clk]).log i).length + 1
  rw [hlog, List.length_append]
  omega

/-! ### Asking for votes -/

/-- Requests for votes tell the truth about the log of the candidate. -/
theorem requestVoteOk (h : Describes S a.1 i n) (hi : i ∈ S.info.nodes.keys)
    (hrole : n.role = .candidate ∨ n.role = .preCandidate) (hid : id ≠ i) (hv : S.info.IsVoter id)
    {lastLogTerm : ℕ} (ht : n.log.getTerm n.log.lastIndex = some lastLogTerm) :
    RequestVoteOk S a.1 i id
      { term := n.log.currentTerm, candidateId := n.selfId, lastLogIndex := n.log.lastIndex,
        lastLogTerm := lastLogTerm, prevote := n.role = .preCandidate } where
  src_mem := hi
  ne := hid.symm
  dst_voter := hv
  candidateId_eq := h.members.selfId_eq
  cand_eq := fun hp => by
    have hcand : n.role = .candidate := by
      rcases hrole with hr | hr
      · exact hr
      · simp [hr] at hp
    refine ⟨a.1.log i, ?_, h.durable.lastIndex_eq, ?_⟩
    · change a.1.cand n.log.currentTerm i = _
      rw [h.durable.term_eq]
      exact (h.candidate hcand).cand_eq
    · exact Option.some.inj (ht.symm.trans (h.durable.getTerm_last a.2))

theorem Node.requestVoteTo_sim (clk : Clock) (hi : i ∈ S.info.nodes.keys) {ids : List ℕ}
    (h : Describes S a.1 i n) (hrole : n.role = .candidate ∨ n.role = .preCandidate) :
    (S.abstraction i).Sim a (requestVoteTo clk ids n) (fun b m => Describes S b.1 i m)
      fun _ => True := by
  induction ids generalizing n with
  | nil => exact sim_pure h
  | cons id ids ih =>
    rw [requestVoteTo]
    refine .bind (sim_ofOption (Q := fun b p => b = a ∧ n.peer? id = some p)
      (fun p hp => ⟨rfl, hp⟩) fun _ => trivial) ?_
    rintro b p - ⟨rfl, hp⟩
    obtain ⟨hmem, hne⟩ := mem_keys_of_peer h.members hp
    rw [h.members.isVoter_eq hmem, pure_bind]
    refine .ite (fun _ => ih h hrole) fun hv => .ite (fun _ => ih h hrole) fun _ => ?_
    have hv : S.info.IsVoter id := by simpa using hv
    refine .bind (sim_ofOption
      (Q := fun c t => c = b ∧ n.log.getTerm n.log.lastIndex = some t)
      (fun t ht => ⟨rfl, ht⟩) fun _ => trivial) ?_
    rintro c t - ⟨rfl, ht⟩
    refine ih (Describes.modifyPeer_times (h.send ?_) (fun _ => rfl) (fun _ => rfl) fun _ => rfl)
      hrole
    exact requestVoteOk h hi hrole hne hv ht

theorem Node.requestVote_sim (h : Describes S a.1 i n) (hi : i ∈ S.info.nodes.keys)
    (clk : Clock) :
    (S.abstraction i).Sim a (n.requestVote clk) (fun b m => Describes S b.1 i m)
      fun _ => True := by
  rw [requestVote]
  refine .ite (fun _ => sim_pure h) fun hrole =>
    requestVoteTo_sim clk hi h ?_
  by_contra hcon
  exact hrole ⟨fun hr => hcon (Or.inl hr), fun hr => hcon (Or.inr hr)⟩

/-! ### Granting votes -/

/-- What a node says in answer to an RV request is true: a vote was cast, for the sender. -/
def VoteOk (S : Setup) (a : State ℕ LogEntry) (i src : ℕ) (r : RequestVoteResponse) : Prop :=
  r.id = i ∧ (r.voteGranted = true → r.prevote = false →
    S.info.IsVoter i ∧ a.ballot r.savedTerm i = some src)

theorem Durable.grant (h : Durable a.1 i l) (hc : c ≠ 0) :
    Durable (a.1.grant i c) i (l.setVoteFor c) :=
  { h with
    vote_eq := by
      rw [State.grant_vote]
      exact (if_neg hc).symm }

/-- **Casting a vote** changes the register of the voter and the ballots. -/
theorem Describes.grant (h : Describes S a.1 i n) (hc : c ≠ 0)
    (hs : S.protocol.Step i a.1 (a.1.grant i c)) :
    Describes S (a.1.grant i c) i { n with log := n.log.setVoteFor c } := by
  have hg := Protocol.Step.grows a.2 hs
  exact
    { h with
      durable := h.durable.grant hc
      candidate := fun hr =>
        { cand_eq := (h.candidate hr).cand_eq
          ballot_eq := hg.ballot_eq (h.candidate hr).ballot_eq
          leader_ne := (h.candidate hr).leader_ne
          votes := fun id p hp hv =>
            ⟨((h.candidate hr).votes id p hp hv).1,
              hg.ballot_eq ((h.candidate hr).votes id p hp hv).2⟩ }
      peers := fun hr id p hp => { h.peers hr id p hp with }
      outbox := fun o ho => (h.outbox o ho).grows hg }

theorem Node.decideVote_sim (clk : Clock) (h : Describes S a.1 i n)
    (hr : RequestVoteOk S a.1 src i r) (hterm : r.prevote = false → a.1.term i = r.term) (t : ℕ) :
    (S.abstraction i).Sim a (n.decideVote clk r t)
      (fun b m => Describes S b.1 i m.1 ∧ VoteOk S b.1 i src m.2) fun _ => True := by
  have hself : n.selfId = i := h.members.selfId_eq
  have h0 : src ≠ 0 := fun h0 => S.wellFormed.zero_not_mem (h0 ▸ hr.src_mem)
  rw [decideVote, termOfLogEntryAt, h.durable.getTerm_last a.2]
  change (S.abstraction i).Sim a (pure _ >>= _) _ _
  rw [pure_bind]
  refine .ite (fun _ => sim_pure ⟨h, hself, fun hv => by cases hv⟩) fun hok =>
    .ite (fun hvote => ?_) fun hvote => sim_pure ⟨h, hself, fun hv hp => ?_⟩
  · obtain ⟨hp, hv⟩ := hvote
    obtain ⟨l, hl, hidx, hlt⟩ := hr.cand_eq hp
    rw [← hterm hp] at hl
    rw [hr.candidateId_eq] at hv ⊢
    have hreg : a.1.vote i = none ∨ a.1.vote i = some src := by
      rw [h.durable.vote_eq]
      rcases hv with hv | hv
      · exact Or.inl (if_pos hv)
      · rw [hv]
        exact Or.inr (if_neg h0)
    have hup : S.protocol.UpToDate l (a.1.log i) := by
      have hok := not_not.mp hok
      rw [hlt, hidx, h.durable.lastIndex_eq] at hok
      exact hok
    have hs : S.protocol.Step i a.1 (a.1.grant i src) := .grant hreg hl hup
    refine .advance (S.reach_after a hs) ?_
    rw [write, bind_assoc]
    refine .bind (sim_persist (Q := fun b _ => b = a.after hs)
      (h.durable.grant h0) rfl) ?_
    rintro b - - rfl
    rw [pure_bind]
    refine sim_pure ⟨(h.grant h0 hs).updateElectionTimePoint clk, hself, ?_⟩
    intro _ _
    refine ⟨hr.dst_voter, ?_⟩
    change (a.1.grant i src).ballot r.term i = some src
    rw [← hterm hp]
    exact State.grant_ballot _ _ _
  · -- only a prevote can be granted here
    have hv := of_decide_eq_true hv
    change r.prevote = false at hp
    rw [hp] at hv
    cases hv.1

/-- **Deciding on a vote.** -/
theorem Node.handleRequestVoteRequest_sim (clk : Clock) (h : Describes S a.1 i n)
    (hr : RequestVoteOk S a.1 src i r) :
    (S.abstraction i).Sim a (n.handleRequestVoteRequest clk r)
      (fun b m => Describes S b.1 i m.1 ∧ ∀ x, m.2 = some x → VoteOk S b.1 i src x)
      fun _ => True := by
  have hself : n.selfId = i := h.members.selfId_eq
  have hmem : r.candidateId ∈ S.info.nodes.keys := hr.candidateId_eq ▸ hr.src_mem
  have hcur := h.durable.term_eq
  rw [handleRequestVoteRequest]
  refine .ite (fun _ => sim_pure ⟨h, by simp⟩) fun _ => ?_
  rw [S.roleKey_eq hmem, h.members.isLearner_eq hmem, pure_bind]
  refine .ite (fun _ => sim_pure ⟨h, by simp⟩) fun _ => .ite (fun _ => ?_)
    fun hge => ?_
  · refine sim_pure ⟨h, ?_⟩
    rintro x hx
    cases hx
    exact ⟨hself, fun hv => by cases hv⟩
  refine .bind (R := fun b m => Describes S b.1 i m ∧ (r.prevote = false → b.1.term i = r.term))
    ?_ ?_
  · rw [stepDownForVote]
    refine .ite (fun hcond => ?_) fun hcond => sim_pure ⟨h, fun hp => ?_⟩
    · refine ((stepDown_sim h clk (Or.inl (by omega))).imp fun b m _ hm =>
        ⟨hm.describes, fun _ => hm.term_eq⟩).weaken fun _ => False.elim
    · have h1 : ¬ r.term < n.log.currentTerm := fun hlt => hge ⟨hp, hlt⟩
      have h2 : ¬ n.log.currentTerm < r.term := fun hlt => hcond ⟨hp, hlt⟩
      omega
  · rintro b m hab ⟨hm, hterm⟩
    refine .bind (decideVote_sim clk hm (hr.grows (S.grows_of_reach hab)) hterm _) ?_
    rintro c ⟨m', resp⟩ - ⟨hm', hresp⟩
    refine sim_pure ⟨hm', ?_⟩
    rintro x hx
    cases hx
    exact hresp

/-! ### Counting votes -/

theorem Node.handleRequestVoteResponse_sim {r : RequestVoteResponse} (clk : Clock)
    (h : Describes S a.1 i n) (hr : VoteOk S a.1 src i r) :
    (S.abstraction i).Sim a (n.handleRequestVoteResponse clk r) (fun b m => Describes S b.1 i m)
      fun _ => True := by
  have hcur := h.durable.term_eq
  rw [handleRequestVoteResponse]
  refine .ite (fun _ => sim_pure h) fun hkeep => .ite (fun hlt => ?_) fun _ => ?_
  · exact ((stepDown_sim h clk (Or.inl (by omega))).imp
      fun b m _ hm => hm.describes).weaken fun _ => False.elim
  · refine sim_pure (h.modifyPeer (fun hrole p _ hv => ?_) fun hrole p hp => ?_)
    · -- a candidate counts no prevotes
      have hsaved : r.savedTerm = a.1.term i := by
        rw [← hcur]
        by_contra hne
        exact hkeep (Or.inl fun heq => hne heq.symm)
      have hprevote : r.prevote = false := by
        by_contra hne
        refine hkeep (Or.inr (Or.inr ⟨by simpa using hne, ?_⟩))
        rw [hrole]
        simp
      rcases Bool.or_eq_true_iff.mp hv with hold | hnew
      · exact Or.inl hold
      · have := hr.2 hnew hprevote
        rw [hsaved, ← hr.1] at this
        exact Or.inr this
    · exact { h.peers hrole r.id p hp with }

theorem Node.receiveRequestVoteResponse_sim {r : Option RequestVoteResponse}
    (cfg : RaftConfig) (clk : Clock) (src peerId : ℕ) (h : Describes S a.1 i n)
    (hr : ∀ x, r = some x → VoteOk S a.1 src i x) :
    (S.abstraction i).Sim a (n.receiveRequestVoteResponse cfg clk peerId r)
      (fun b m => Describes S b.1 i m) fun _ => True := by
  rw [receiveRequestVoteResponse]
  split
  · exact sim_pure h
  · cases r with
    | none =>
      exact sim_pure (h.modifyPeer_times (fun _ => rfl) (fun _ => rfl) fun _ => rfl)
    | some x =>
      refine handleRequestVoteResponse_sim clk ?_ (hr x rfl)
      refine Describes.modifyPeer_times ?_ (fun _ => rfl) (fun _ => rfl) fun _ => rfl
      exact h.modifyPeer_times (fun _ => rfl) (fun _ => rfl) fun _ => rfl

end

end Gringofts
