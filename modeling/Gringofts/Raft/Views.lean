import Gringofts.Raft.Merge
import Gringofts.Raft.Reconfiguration

/-!
# Requests from a different view

While a reconfiguration is under way, a node may receive requests of a node that its own membership
does not have, or has with another role. Both handlers look the sender up by `std::map::at`, which
throws for an id that is not there; only a learner answers an RV request before it looks. The id in
the message has 64 bits and the keys of the map have 32, so what is looked up is the lower half.

A sender that is there is never the reason for an abort, other than by the assertion that a term has
one leader; and an AE request is processed when the sender is a voter in the receiver's view. The
look-up is where the difference lies: the configuration that would make the sender known, or a
voter, is in the entries that the request carries.

## Main definitions

* `Assertion.isPersonal` — the assertions about who has sent a request
* `Node.FollowsOther` — the node has another leader in the term of a request

## Main results

* `sender_tolerated_iff`
* `unknown_sender_aborts`
-/

namespace Gringofts

open Outcome Scenario ClusterMemberShip

variable {p : Prop} {a : Assertion} {role : RaftRole}

namespace Node

variable {n m : Node} {clk : Clock}

/-! ## Votes -/

theorem stepDown_of_lt_returns {t : ℕ} (h : n.log.currentTerm < t) :
    (n.stepDown clk t).Sat (fun _ => True) (fun _ => True) fun _ => False := by
  refine sat_check_bind (absurd h.le) fun _ => ?_
  refine Sat.bind (R := fun _ => True) ?_ fun _ _ => sat_pure.mpr trivial
  rw [adoptTerm, if_pos h]
  refine Sat.bind (R := fun _ => True) ?_ fun m _ => ?_
  · exact sat_persist_bind trivial fun _ => sat_pure.mpr trivial
  · exact sat_persist_bind trivial fun _ => sat_pure.mpr trivial

/-- The last index always has a term. -/
theorem termOfLastIndex_returns :
    (n.termOfLogEntryAt n.log.lastIndex).Sat (fun _ => True) (fun _ => True) fun _ => False := by
  have hlast := n.log.lastIndex_add_one
  obtain ⟨t, ht⟩ := n.log.exists_getTerm (j := n.log.lastIndex) (by omega) (Nat.le_refl _)
  refine sat_ofOption.mpr ⟨fun _ _ => trivial, fun hnone => ?_⟩
  rw [ht] at hnone
  cases hnone

theorem decideVote_returns (r : RequestVoteRequest) (t : ℕ) :
    (n.decideVote clk r t).Sat (fun _ => True) (fun _ => True) fun _ => False := by
  refine termOfLastIndex_returns.bind fun _ _ => ?_
  split
  · exact sat_pure.mpr trivial
  split
  · refine Sat.bind (R := fun _ => True) ?_ fun _ _ => sat_pure.mpr trivial
    exact sat_persist_bind trivial fun _ => sat_pure.mpr trivial
  · exact sat_pure.mpr trivial

/-- **An RV request** gets a status exactly if the node is a learner, or can look the candidate
up. -/
theorem handleRequestVoteRequest_returns_iff {r : RequestVoteRequest} (hsyncer : n.role ≠ .syncer) :
    (∃ x, (n.handleRequestVoteRequest clk r).result = .ok x) ↔ n.role = .learner ∨
      roleKey r.candidateId ∈ n.members.initialRoles.keys := by
  rw [handleRequestVoteRequest]
  by_cases hlearner : n.role = .learner
  · rw [if_pos (Or.inr hlearner)]
    exact iff_of_true ⟨_, rfl⟩ (Or.inl hlearner)
  rw [if_neg (not_or.mpr ⟨hsyncer, hlearner⟩), or_iff_right hlearner, isLearner,
    initialRole]
  cases hrole : n.members.initialRoles.find? (roleKey r.candidateId) with
  | none =>
    refine iff_of_false ?_ (Table.find?_eq_none.mp hrole)
    rintro ⟨_, hres⟩
    cases hres
  | some role =>
    refine iff_of_true ?_ (Table.mem_keys.mpr ⟨role, hrole⟩)
    refine (Sat.exists_result (W := fun _ => True) (Q := fun _ => True) ?_).imp
      fun _ => And.left
    change (if decide (role = .learner) = true then _ else _ :
      Act (Node × Option RequestVoteResponse)).Sat _ _ _
    split
    · exact sat_pure.mpr trivial
    split
    · exact sat_pure.mpr trivial
    refine Sat.bind (R := fun _ => True) ?_ fun m _ => ?_
    · rw [stepDownForVote]
      split
      · next hlt => exact stepDown_of_lt_returns hlt.2
      · exact sat_pure.mpr trivial
    · exact (decideVote_returns r _).bind fun _ _ => sat_pure.mpr trivial

end Node

/-! ## AE requests -/

/-- The assertion is about who has sent a request. -/
def Assertion.isPersonal : Assertion → Bool
  | .leaderId => true
  | .unknownMember _ => true
  | _ => false

/-- Whatever fails in the computation has nothing to do with the sender. -/
def Outcome.Impersonal {α : Type} (o : Act α) : Prop :=
  o.Sat (fun _ => True) (fun _ => True) fun a => a.isPersonal = false

namespace Outcome

variable {α β : Type}

theorem impersonal_pure (a : α) : (pure a : Act α).Impersonal := sat_pure.mpr trivial

theorem impersonal_persist (l : Log) : (persist l : Act Unit).Impersonal :=
  sat_persist.mpr ⟨trivial, trivial⟩

theorem impersonal_check [Decidable p] (ha : a.isPersonal = false) :
    (check p a : Act Unit).Impersonal :=
  sat_check.mpr ⟨fun _ => trivial, fun _ => ha⟩

theorem impersonal_ofOption (ha : a.isPersonal = false) (x : Option α) :
    (ofOption a x : Act α).Impersonal :=
  sat_ofOption.mpr ⟨fun _ _ => trivial, fun _ => ha⟩

theorem Impersonal.bind {o : Act α} {f : α → Act β} (ho : o.Impersonal)
    (hf : ∀ a, (f a).Impersonal) : (o >>= f).Impersonal :=
  Sat.bind ho fun a _ => hf a

theorem Impersonal.ite [Decidable p] {o o' : Act α} (h : o.Impersonal) (h' : o'.Impersonal) :
    (if p then o else o').Impersonal := by
  split
  · exact h
  · exact h'

end Outcome

theorem appendAll_impersonal (l : Log) (es : List LogEntry) : (appendAll l es).Impersonal := by
  induction es generalizing l with
  | nil => exact impersonal_pure l
  | cons e es ih =>
    rw [appendAll]
    split
    · exact (impersonal_persist _).bind fun _ => ih _
    · exact sat_fail.mpr rfl

theorem Log.appendEntries_impersonal (l : Log) (es : List LogEntry) :
    (l.appendEntries es).Impersonal := by
  cases es with
  | nil => exact impersonal_pure _
  | cons e es =>
    exact .ite (impersonal_pure _) ((appendAll_impersonal l _).bind fun _ => impersonal_pure _)

namespace Node

variable {n m : Node} {clk : Clock}

theorem mergeEntries_impersonal (c k : ℕ) (es : List LogEntry) (l : Log) :
    (mergeEntries c k es l).Impersonal := by
  induction es generalizing k l with
  | nil => exact impersonal_pure _
  | cons e es ih =>
    rw [mergeEntries]
    refine (impersonal_check (by rfl)).bind fun _ => .ite (ih _ _) (.ite ?_ ?_)
    · refine (impersonal_ofOption (by rfl) _).bind fun _ => .ite (ih _ _) ?_
      exact (impersonal_check (by rfl)).bind fun _ => (impersonal_persist _).bind fun _ =>
        (ih _ _).bind fun _ => impersonal_pure _
    · exact (ih _ _).bind fun _ => impersonal_pure _

/-- Once the sender is taken for the leader, who it is does not matter any more. -/
theorem acceptOrReject_impersonal (clk : Clock) (r : AppendEntriesRequest) :
    (n.acceptOrReject clk r).Impersonal := by
  have hok : (n.logIsOk r.prevLogIndex r.prevLogTerm).Impersonal := by
    rw [logIsOk_eq]
    exact impersonal_pure _
  refine hok.bind fun _ => .ite (impersonal_pure _) ?_
  refine Impersonal.bind ?_ fun m => Impersonal.bind ?_ fun _ => impersonal_pure _
  · exact (mergeEntries_impersonal _ _ _ _).bind fun x =>
      (Log.appendEntries_impersonal _ _).bind fun _ =>
        (impersonal_check (by rfl)).bind fun _ => impersonal_pure _
  · exact .ite ((impersonal_check (by rfl)).bind fun _ => impersonal_pure _)
      (impersonal_pure _)

/-- A node that steps down knows of no leader. -/
theorem stepDown_leaderId_sat (t : ℕ) :
    (n.stepDown clk t).Sat (fun _ => True) (fun m => m.leaderId = 0)
      fun a => a.isPersonal = false := by
  refine Sat.bind (impersonal_check (by rfl)) fun _ _ => ?_
  refine Sat.bind (R := fun m : Node => m.leaderId = 0) ?_ fun m hm => ?_
  · rw [adoptTerm]
    split
    · refine Sat.bind (R := fun m : Node => m.leaderId = 0) ?_ fun m hm => ?_
      · exact Sat.bind (impersonal_persist _) fun _ _ => sat_pure.mpr rfl
      · exact Sat.bind (impersonal_persist _) fun _ _ => sat_pure.mpr hm
    · refine Sat.bind (impersonal_check (by rfl)) fun _ _ => ?_
      exact sat_check_bind (fun _ => rfl) fun h0 => sat_pure.mpr h0
  · refine sat_pure.mpr ?_
    split
    · exact hm
    · exact hm

/-- The node follows another leader in the term of the request. -/
def FollowsOther (n : Node) (r : AppendEntriesRequest) : Prop :=
  n.log.currentTerm = r.term ∧ (n.role ≠ .candidate ∧ n.role ≠ .preCandidate) ∧
    n.leaderId ≠ 0 ∧ n.leaderId ≠ r.leaderId

/-- What the node takes the sender of a request for. -/
def senderRole? (n : Node) (r : AppendEntriesRequest) : Option RaftRole :=
  n.members.initialRoles.find? (roleKey r.leaderId)

/-- The request is one of a leader with the log `L`, which has all the node has committed: the
entries are of `L`, and the commit index is within them. -/
structure Fits (n : Node) (L : Log) (r : AppendEntriesRequest) : Prop where
  slice : L.Slice r.prevLogIndex r.entries
  matching : L.Matching n.log
  agrees : L.AgreesUpTo n.log n.commitIndex
  commit_le : r.commitIndex ≤ r.prevLogIndex + r.entries.length

variable {r : AppendEntriesRequest}

theorem isVoter_of_senderRole (h : n.senderRole? r = some role) :
    n.members.isVoter (roleKey r.leaderId) =
      pure (decide (role = .follower)) := by
  have h' : n.members.initialRoles.find? (roleKey r.leaderId) = some role := h
  rw [isVoter, initialRole, h']
  rfl

/-- A sender that cannot be looked up. -/
theorem handleAppendEntriesRequest_unknown (h : n.senderRole? r = none) :
    (n.handleAppendEntriesRequest clk r).result =
      .error (.unknownMember (roleKey r.leaderId)) := by
  have h' : n.members.initialRoles.find? (roleKey r.leaderId) = none := h
  rw [handleAppendEntriesRequest, isVoter, initialRole, h']
  rfl

/-- A sender that is no voter is not listened to. -/
theorem handleAppendEntriesRequest_dropped (h : n.senderRole? r = some role)
    (hrole : role ≠ .follower) : n.handleAppendEntriesRequest clk r = pure (n, none) := by
  rw [handleAppendEntriesRequest, isVoter_of_senderRole h, decide_eq_false hrole]
  rfl

/-- A voter whose term has another leader. -/
theorem handleAppendEntriesRequest_rival (hsyncer : n.role ≠ .syncer)
    (h : n.senderRole? r = some .follower) (hother : n.FollowsOther r) :
    (n.handleAppendEntriesRequest clk r).result = .error .leaderId := by
  obtain ⟨hterm, hrole, hzero, hne⟩ := hother
  have hdown : n.stepDownForLeader clk r = pure n := by
    rw [stepDownForLeader, if_neg]
    rintro (hlt | ⟨-, hs⟩)
    · omega
    · exact hs.elim hrole.1 hrole.2
  rw [handleAppendEntriesRequest, isVoter_of_senderRole h, pure_bind, if_neg (by simp),
    if_neg (by omega), if_neg hsyncer, hdown, pure_bind, hail,
    if_neg (show (n.updateElectionTimePoint clk).leaderId ≠ 0 from hzero), check,
    if_neg (show (n.updateElectionTimePoint clk).leaderId ≠ r.leaderId from hne)]
  rfl

/-- **An AE request of a known sender** fails for its sender only where the node already follows
another leader of the very same term. -/
theorem handleAppendEntriesRequest_known (h : n.senderRole? r = some role)
    (hother : role = .follower → ¬ n.FollowsOther r) :
    (n.handleAppendEntriesRequest clk r).Impersonal := by
  rw [handleAppendEntriesRequest, isVoter_of_senderRole h, pure_bind]
  split
  · exact impersonal_pure _
  next hvoter =>
  have hvoter : role = .follower := by simpa using hvoter
  split
  · exact impersonal_pure _
  next hterm =>
  split
  · exact impersonal_pure _
  refine Sat.bind (R := fun m => m.leaderId = 0 ∨
    (m = n ∧ n.log.currentTerm = r.term ∧ n.role ≠ .candidate ∧ n.role ≠ .preCandidate)) ?_
    fun m hm => ?_
  · rw [stepDownForLeader]
    split
    · exact (stepDown_leaderId_sat r.term).mono (fun _ => id) (fun _ => Or.inl) fun _ => id
    · next hstay =>
      rw [not_or, not_and, not_or] at hstay
      have heq : n.log.currentTerm = r.term := by omega
      exact sat_pure.mpr (Or.inr ⟨rfl, heq, hstay.2 heq.symm⟩)
  refine Impersonal.bind ?_ fun k =>
    (acceptOrReject_impersonal clk r).bind fun _ => impersonal_pure _
  rw [hail]
  split
  · exact impersonal_pure _
  · next hne =>
    have hne : m.leaderId ≠ 0 := hne
    obtain ⟨rfl, heq, hrole⟩ := hm.resolve_left hne
    refine sat_check_bind (fun hid => ?_) fun _ => sat_pure.mpr trivial
    exact absurd ⟨heq, hrole, hne, hid⟩ (hother hvoter)

/-- **An AE request of a voter** whose term is not behind is processed: the node follows the sender
in its term and answers, and it accepts the entries if its log has the entry before them. -/
theorem handleAppendEntriesRequest_processed (hsyncer : n.role ≠ .syncer)
    (hvoter : n.senderRole? r = some .follower) (hterm : n.log.currentTerm ≤ r.term) :
    (n.handleAppendEntriesRequest clk r).Sat (fun _ => True)
      (fun x => x.1.leaderId = r.leaderId ∧ x.1.log.currentTerm = r.term ∧
        ∃ q, x.2 = some q ∧ q.term = r.term ∧
          (q.success = true ↔ n.log.Accepts r.prevLogIndex r.prevLogTerm) ∧
          (q.success = true → n.log.Absorbs r.prevLogIndex r.entries x.1.log)) fun _ => True := by
  rw [handleAppendEntriesRequest, isVoter_of_senderRole hvoter, pure_bind, if_neg (by simp),
    if_neg (Nat.not_lt.mpr hterm), if_neg hsyncer]
  refine (stepDownForLeader_settles clk (Nat.not_lt.mpr hterm) hsyncer).bind fun m hm => ?_
  refine (hail_settles hm clk).bind fun k hk => ?_
  have haccepts := hk.1.window.accepts_iff (j := r.prevLogIndex) (t := r.prevLogTerm)
  refine Sat.bind (((acceptOrReject_accepted_or clk).and (acceptOrReject_sat clk r)).mono
    (fun _ _ => trivial) (fun _ => id) fun _ _ => trivial) ?_
  rintro ⟨m', q⟩ ⟨hcase, hobeys⟩
  have hterm' : m'.log.currentTerm = r.term := hobeys.log.term_eq.trans hk.1.term_eq
  rcases hcase with ⟨hnot, heq⟩ | ⟨hm', hq⟩
  · obtain ⟨rfl, rfl⟩ := Prod.mk.inj heq
    exact sat_pure.mpr ⟨hk.2, hterm', _, rfl, rfl,
      iff_of_false Bool.false_ne_true (mt haccepts.mpr hnot), fun h => absurd h Bool.false_ne_true⟩
  · obtain rfl : q = m'.acceptAppendEntries r := hq
    exact sat_pure.mpr ⟨hm'.leaderId_eq.trans hk.2, hterm', _, rfl, rfl,
      iff_of_true rfl (haccepts.mp hm'.accepts), fun _ => hm'.absorbs.of_sameWindow hk.1.window⟩

/-- **An AE request that fits** is answered. -/
theorem handleAppendEntriesRequest_replies {L : Log} (hn : n.Heeds r.term r.leaderId)
    (hfits : n.Fits L r) :
    ∃ m q, (n.handleAppendEntriesRequest clk r).result = .ok (m, some q) := by
  obtain ⟨⟨m, answer⟩, hres, q, hq, -⟩ :=
    (handleAppendEntriesRequest_heeded clk hn (Q := fun _ _ => True) fun m hm => by
      by_cases ha : m.log.Accepts r.prevLogIndex r.prevLogTerm
      · exact (acceptOrReject_accepted clk ha hfits.slice (hm.window.matching hfits.matching)
          (hm.commit_eq ▸ hm.window.agreesUpTo hfits.agrees) hfits.commit_le).mono
          (fun _ _ => trivial) (fun _ _ => trivial) fun _ => id
      · rw [acceptOrReject_rejected clk ha]
        exact sat_pure.mpr trivial).exists_result
  obtain rfl : answer = some q := hq
  exact ⟨m, q, hres⟩

/-- A voter that is no rival can be followed. -/
theorem heeds_of_senderRole (hsyncer : n.role ≠ .syncer) (h : n.senderRole? r = some .follower)
    (hother : ¬ n.FollowsOther r) (hterm : n.log.currentTerm ≤ r.term)
    (hstands : n.role = .candidate ∨ n.role = .preCandidate → n.leaderId = 0) :
    n.Heeds r.term r.leaderId where
  isVoter_eq := isVoter_of_senderRole h
  role_ne := hsyncer
  term_le := hterm
  hint heq := by
    by_cases hrole : n.role = .candidate ∨ n.role = .preCandidate
    · exact Or.inl (hstands hrole)
    · rw [not_or] at hrole
      refine or_iff_not_imp_left.mpr fun hzero => ⟨?_, hrole⟩
      by_contra hne
      exact hother ⟨heq, hrole, hzero, hne⟩

end Node

/-- **When requests of another view are tolerated.** A node gives a status to an RV request exactly
if it is a learner, or the sender is in its view. An AE request does not fail for its sender exactly
if the sender is in the view, and no rival as a voter. And one whose term is not behind is processed
exactly if the sender is a voter in the view and no rival: then the node follows it, and accepts the
entries if its log has the entry before them; and if the request is one of a leader that has what
the node has committed, nothing else can fail. -/
theorem sender_tolerated_iff {n : Node} (clk : Clock) (hsyncer : n.role ≠ .syncer) :
    (∀ r : RequestVoteRequest, (∃ x, (n.handleRequestVoteRequest clk r).result = .ok x) ↔
      n.role = .learner ∨
        roleKey r.candidateId ∈ n.members.initialRoles.keys) ∧
    (∀ r : AppendEntriesRequest,
      (∀ a, (n.handleAppendEntriesRequest clk r).result = .error a → a.isPersonal = false) ↔
        ∃ role, n.senderRole? r = some role ∧ (role = .follower → ¬ n.FollowsOther r)) ∧
    ∀ r : AppendEntriesRequest, n.log.currentTerm ≤ r.term →
      (((∀ a, (n.handleAppendEntriesRequest clk r).result = .error a → a.isPersonal = false) ∧
          ∀ m, (n.handleAppendEntriesRequest clk r).result ≠ .ok (m, none)) ↔
        n.senderRole? r = some .follower ∧ ¬ n.FollowsOther r) ∧
      (n.senderRole? r = some .follower →
        (∀ m answer, (n.handleAppendEntriesRequest clk r).result = .ok (m, answer) →
          m.leaderId = r.leaderId ∧ m.log.currentTerm = r.term ∧
            ∃ q, answer = some q ∧ q.term = r.term ∧
              (q.success = true ↔ n.log.Accepts r.prevLogIndex r.prevLogTerm) ∧
              (q.success = true → n.log.Absorbs r.prevLogIndex r.entries m.log)) ∧
        (¬ n.FollowsOther r → (n.role = .candidate ∨ n.role = .preCandidate → n.leaderId = 0) →
          ∀ L, n.Fits L r →
            ∃ m q, (n.handleAppendEntriesRequest clk r).result = .ok (m, some q))) := by
  have htolerates : ∀ r : AppendEntriesRequest,
      (∀ a, (n.handleAppendEntriesRequest clk r).result = .error a → a.isPersonal = false) ↔
        ∃ role, n.senderRole? r = some role ∧ (role = .follower → ¬ n.FollowsOther r) := by
    intro r
    constructor
    · intro h
      cases hrole : n.senderRole? r with
      | none => cases h _ (Node.handleAppendEntriesRequest_unknown hrole)
      | some role =>
        refine ⟨role, rfl, fun hvoter hother => ?_⟩
        rw [hvoter] at hrole
        cases h _ (Node.handleAppendEntriesRequest_rival hsyncer hrole hother)
    · rintro ⟨role, hrole, hother⟩ a ha
      exact (Node.handleAppendEntriesRequest_known hrole hother).of_error ha
  refine ⟨fun r => Node.handleRequestVoteRequest_returns_iff hsyncer, htolerates,
    fun r hterm => ⟨?_, fun hvoter => ⟨fun m answer hres => ?_, fun hother hstands L hfits => ?_⟩⟩⟩
  · rw [htolerates]
    constructor
    · rintro ⟨⟨role, hrole, hother⟩, hdropped⟩
      by_cases hvoter : role = .follower
      · exact ⟨hvoter ▸ hrole, hother hvoter⟩
      · have hres : n.handleAppendEntriesRequest clk r = pure (n, none) :=
          Node.handleAppendEntriesRequest_dropped hrole hvoter
        exact absurd (by rw [hres]; rfl) (hdropped n)
    · rintro ⟨hvoter, hother⟩
      refine ⟨⟨.follower, hvoter, fun _ => hother⟩, fun m hres => ?_⟩
      obtain ⟨-, -, q, hq, -⟩ :=
        (Node.handleAppendEntriesRequest_processed hsyncer hvoter hterm).of_result hres
      cases hq
  · exact (Node.handleAppendEntriesRequest_processed hsyncer hvoter hterm).of_result hres
  · have hheeds := Node.heeds_of_senderRole hsyncer hvoter hother hterm hstands
    exact Node.handleAppendEntriesRequest_replies hheeds hfits

/-! ## A newcomer -/

namespace Scenario

/-- The request after `addition`, which makes the new learner a voter. -/
def promotion : ReconfigureRequest :=
  ⟨2, ⟨0, [⟨1, "a", 1, .voter⟩, ⟨2, "b", 1, .voter⟩, ⟨3, "c", 1, .voter⟩,
    ⟨4, "d", 1, .voter⟩], [], [], []⟩⟩

/-- Node `4` leads by the latest configuration, with the votes of the nodes `1` and `2`. -/
def newcomer : Node := leading promotion.configuration.syncFromProto 4 [1, 2]

/-- What node `4` sends to a peer that it knows nothing of. -/
def newcomerRequest : AppendEntriesRequest where
  term := 1
  leaderId := 4
  prevLogIndex := 0
  prevLogTerm := 0
  entries := [⟨1, 1, true, 0, [], 0, none⟩]
  commitIndex := 0

/-- The request for a vote of node `4` in the next term. -/
def newcomerVote : RequestVoteRequest where
  term := 2
  candidateId := 4
  lastLogIndex := 1
  lastLogTerm := 1
  prevote := false

/-- Node `3`, with the membership of a configuration. -/
def receiver (info : ClusterInfo) : Node :=
  Node.start config ⟨0, 0⟩ .follower (supported info 3 []) Log.empty

end Scenario

/-- **A newcomer's request aborts a node.** Node `4` is added and then made a voter, by two accepted
requests, and elected by the nodes `1` and `2`. A node that has applied neither of the two throws on
its AE and RV requests, and one that has applied only the first drops its AE request. -/
theorem unknown_sender_aborts :
    ∃ (r r' : ReconfigureRequest) (c c₁ c₂ : ClusterInfo), r.Accepted c c₁ ∧ r'.Accepted c₁ c₂ ∧
      c₂.MemberShipOf newcomer.members ∧
      newcomer.checkVotePass.result = .ok true ∧
      (newcomer.buildAppendEntries config (fun _ => 100)
        { address := "c:1", suppressBulkData := false }).value? =
          some (newcomerRequest, false) ∧
      c.MemberShipOf (receiver c).members ∧
      ((receiver c).handleAppendEntriesRequest ⟨9, 1⟩ newcomerRequest).error? =
        some (.unknownMember 4) ∧
      ((receiver c).handleRequestVoteRequest ⟨9, 1⟩ newcomerVote).error? =
        some (.unknownMember 4) ∧
      c₁.MemberShipOf (receiver c₁).members ∧
      ((receiver c₁).handleAppendEntriesRequest ⟨9, 1⟩ newcomerRequest).result =
        .ok (receiver c₁, none) := by
  have hadded : addition.Accepted threeVoters.info
      addition.configuration.syncFromProto :=
    ⟨⟨0, by decide +kernel⟩, 0, 0, threeVoters.info, _, _, rfl, rfl, rfl⟩
  have hpromoted : promotion.Accepted addition.configuration.syncFromProto
      promotion.configuration.syncFromProto :=
    ⟨⟨0, by decide +kernel⟩, 1, 0, _, threeVoters.info, _, rfl, rfl, rfl⟩
  refine ⟨_, _, _, _, _, hadded, hpromoted, ?_, ?_, by decide +kernel, ?_, by decide +kernel,
    by decide +kernel, ?_, rfl⟩
  · exact supported_memberShipOf (by decide +kernel) (by decide) [1, 2]
  · exact Outcome.value?_eq_some.mp (by decide +kernel)
  · exact supported_memberShipOf (by decide +kernel) (by decide) []
  · exact supported_memberShipOf (by decide +kernel) (by decide) []

theorem sender_tolerated_iff_promoted :
    let n := receiver promotion.configuration.syncFromProto
    ∃ m q, (n.handleAppendEntriesRequest ⟨9, 1⟩ newcomerRequest).result =
        .ok (m, some q) ∧
      m.leaderId = 4 ∧ q.success = true ∧
      n.log.Absorbs 0 newcomerRequest.entries m.log := by
  intro n
  obtain ⟨hprocessed, hanswers⟩ :=
    ((sender_tolerated_iff (n := n) ⟨9, 1⟩ (by decide)).2.2 newcomerRequest
      (by decide +kernel)).2 (by decide +kernel)
  have hfits : n.Fits newcomer.log newcomerRequest := {
    slice := by
      rintro (_ | j) e he
      · exact he
      · cases he
    matching := by decide +kernel
    agrees := by decide +kernel
    commit_le := by decide }
  obtain ⟨m, q, hres⟩ := hanswers (fun h => h.2.2.1 rfl) (fun _ => rfl) _ hfits
  obtain ⟨hleader, -, q', hq, -, hsuccess, habsorbs⟩ := hprocessed m _ hres
  obtain rfl := Option.some.inj hq
  have hok : q.success = true := hsuccess.mpr (by decide +kernel)
  exact ⟨m, q, hres, hleader, hok, habsorbs hok⟩

end Gringofts
