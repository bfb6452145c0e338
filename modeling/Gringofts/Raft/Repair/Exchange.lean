import Gringofts.Lib.Rounds
import Gringofts.Raft.Repair.Follower
import Gringofts.Raft.Repair.Leader

/-!
# The exchange between a leader and a follower

One leader and one follower, and nothing that gets lost: the leader sends what it has for the
follower, the follower answers, and the leader handles the answer. A round takes place when the
follower's timer at the leader is due.

## Main definitions

* `Round` — the surroundings of a round: the clocks it reads, and where segments end
* `Link.exchange` — one round
* `Link.Ready` — a leader and a follower that can follow it

## Main results

* `Link.exchange_rejected`, `Link.exchange_accepted` — what a round does
-/

namespace Gringofts

open Outcome Node

variable {n : Node} {q : AppendEntriesResponse}

/-- The AE response, if the answer is one. -/
def Answer.response? : Answer → Option AppendEntriesResponse
  | .appendEntries q => some q
  | .requestVote _ => none

/-- The surroundings of one round: the clocks of the leader when it sends, of the follower, and of
the leader when the answer arrives, and where the segments of the leader's log end. -/
structure Round where
  send : Clock
  receive : Clock
  answer : Clock
  segmentLast : ℕ → ℕ

/-- When the leader may send the next request after a round. -/
def Round.nextTime (cfg : RaftConfig) (rd : Round) : ℕ :=
  max (rd.send.now + cfg.heartBeatIntervalInMillis * nanosPerMilli) rd.answer.now

/-- The next round does not begin before the timer of the follower is due. -/
def Round.Paces (cfg : RaftConfig) (rd rd' : Round) : Prop := rd.nextTime cfg ≤ rd'.send.now

/-- A leader and a follower. -/
structure Link where
  leader : Node
  follower : Node

namespace Link

/-- **One round**: `appendEntries` at the leader, `handleAppendEntriesRequest` at the follower and
`handleAppendEntriesResponse` at the leader. A call that was cancelled comes back as an error. -/
def exchange (cfg cfg' : RaftConfig) (rd : Round) (x : Link) : Except Assertion Link := do
  let (n, _) ← (x.leader.handle cfg (.appendEntries rd.send rd.segmentLast)).result
  match n.outbox.findSome? (Output.requestTo? x.follower.selfId) with
  | none => pure { x with leader := n }
  | some r => do
    let (m, a) ← (x.follower.handle cfg' (.appendEntriesRequest rd.receive r)).result
    let (n, _) ← (n.handle cfg (.appendEntriesResponse rd.answer x.follower.selfId
      (a.bind Answer.response?))).result
    pure ⟨n, m⟩

/-- The leader is one, it knows this of the follower, and the follower can follow it. -/
structure Ready (x : Link) (p : Peer) : Prop where
  role_eq : x.leader.role = .leader
  peer_eq : x.leader.peer? x.follower.selfId = some p
  heeds : x.follower.Heeds x.leader.log.currentTerm x.leader.selfId

/-- What every round leaves. -/
structure Stays (x y : Link) : Prop where
  office : x.leader.SameOffice y.leader
  selfId_eq : y.follower.selfId = x.follower.selfId
  first_eq : y.follower.log.firstIndex = x.follower.log.firstIndex

theorem Stays.refl (x : Link) : x.Stays x := ⟨.refl _, rfl, rfl⟩

theorem Stays.trans {x y z : Link} (h : x.Stays y) (h' : y.Stays z) : x.Stays z where
  office := h.office.trans h'.office
  selfId_eq := h'.selfId_eq.trans h.selfId_eq
  first_eq := h'.first_eq.trans h.first_eq

variable {cfg cfg' : RaftConfig} {rd : Round} {x : Link} {p : Peer}

/-- A round, put together from what it does at both ends. -/
theorem exchange_eq {m n' : Node} {r : AppendEntriesRequest} {a b : Option Answer}
    (hn : (x.leader.handle cfg (.appendEntries rd.send rd.segmentLast)).result = .ok (n, a))
    (hr : n.outbox.findSome? (Output.requestTo? x.follower.selfId) = some r)
    (hm : (x.follower.handle cfg' (.appendEntriesRequest rd.receive r)).result =
      .ok (m, some (.appendEntries q)))
    (hn' : (n.handle cfg (.appendEntriesResponse rd.answer x.follower.selfId (some q))).result =
      .ok (n', b)) : x.exchange cfg cfg' rd = .ok ⟨n', m⟩ := by
  rw [exchange, hn]
  change (match n.outbox.findSome? (Output.requestTo? x.follower.selfId) with
    | none => _
    | some r => _ : Except Assertion Link) = _
  rw [hr]
  change Except.bind (x.follower.handle cfg' (.appendEntriesRequest rd.receive r)).result _ = _
  rw [hm]
  change Except.bind (n.handle cfg (.appendEntriesResponse rd.answer x.follower.selfId
    (some q))).result _ = _
  rw [hn']
  rfl

/-- What becomes of the peer when it has rejected a request, its log ending at `last`. -/
structure Rejected (cfg : RaftConfig) (L : Log) (last : ℕ) (p p' : Peer) : Prop where
  rolledBack : last < p.matchIndex →
    p'.nextIndex = rolledBackIndex L last ∧ p'.matchIndex = 0 ∧ p'.suppressBulkData = true
  truncated : p.matchIndex ≤ last → p.nextIndex ≤ L.firstIndex →
    p'.nextIndex = restartIndex L last ∧ p'.matchIndex = 0 ∧ p'.suppressBulkData = true
  decreased : p.matchIndex ≤ last → L.firstIndex < p.nextIndex →
    p'.nextIndex = decreasedIndex cfg p last ∧ p'.matchIndex = p.matchIndex ∧
      p'.suppressBulkData = p.suppressBulkData

/-- A peer after a rejection; `p₁` is the peer as the leader has it when the answer arrives. -/
theorem peerAfterResponse_rejected {p₁ : Peer} (hq : q.success = false)
    (hnext : p₁.nextIndex = p.nextIndex) (hmatch : p₁.matchIndex = p.matchIndex)
    (hsup : n.log.firstIndex < p.nextIndex → p₁.suppressBulkData = p.suppressBulkData)
    (hgap : q.lastLogIndex < p.matchIndex ∨ p.nextIndex ≤ n.log.firstIndex ∨
      p.matchIndex + 1 < p.nextIndex) :
    (n.peerAfterResponse cfg q p₁).Sat (fun _ => True) (fun p' =>
      Rejected cfg n.log q.lastLogIndex p p' ∧ p'.nextAERequestTime = p₁.nextAERequestTime)
      fun _ => False := by
  rw [peerAfterResponse, if_neg (by simp [hq]), hnext, hmatch]
  split
  · next hlt =>
    exact sat_pure.mpr
      ⟨⟨fun _ => ⟨rfl, rfl, rfl⟩, fun h => by omega, fun h => by omega⟩, rfl⟩
  next hge =>
  split
  · next hle =>
    exact sat_pure.mpr
      ⟨⟨fun h => by omega, fun _ _ => ⟨rfl, rfl, rfl⟩, fun _ h => by omega⟩, rfl⟩
  next hlt =>
  have hgap' : p.matchIndex + 1 < p.nextIndex := by omega
  refine sat_check_bind (absurd hgap') fun _ => sat_pure.mpr ?_
  refine ⟨⟨fun h => by omega, fun _ h => by omega, fun _ h => ⟨?_, rfl, hsup h⟩⟩, rfl⟩
  rw [decreasedIndex, decreasedIndex, hnext, hmatch]

/-- What becomes of the peer when it has accepted a request with `k` entries. -/
structure Accepted (L : Log) (k : ℕ) (p p' : Peer) : Prop where
  match_eq : p'.matchIndex = p.nextIndex - 1 + k
  next_eq : p'.nextIndex = p'.matchIndex + 1
  suppress_eq : p'.suppressBulkData = false
  match_le : p'.matchIndex ≤ L.lastIndex
  /-- A probe carries no entries. -/
  zero : p.suppressBulkData = true ∨ p.nextIndex < L.firstIndex → k = 0
  /-- Anything else carries some, if there are any. -/
  pos : p.suppressBulkData = false → L.firstIndex ≤ p.nextIndex → p.nextIndex ≤ L.lastIndex → 0 < k

section Rounds

variable (hx : x.Ready p) (hdue : p.nextAERequestTime ≤ rd.send.now) (hpos : 1 ≤ p.nextIndex)
  (hnext : p.nextIndex ≤ x.leader.log.lastIndex + 1)
  (hfit : ∀ e ∈ x.leader.log.entries, cfg.byteSize e ≤ cfg.maxLenInBytes)
include hx hdue hpos hnext hfit

/-- **The frame of a round**: the follower is sent a request, and when it answers in good order the
leader changes what it knows of the follower, and nothing else. -/
theorem exists_request (cfg' : RaftConfig) : ∃ r s, x.leader.Asks p r s ∧
    ∀ (m : Node) (q : AppendEntriesResponse) (Q : Peer → Prop),
      (x.follower.handle cfg' (.appendEntriesRequest rd.receive r)).result =
        .ok (m, some (.appendEntries q)) →
      q.id = x.follower.selfId → q.savedTerm = r.term → q.term ≤ r.term →
      q.savedPrevLogIndex = r.prevLogIndex →
      (∀ p₁ : Peer, p₁.nextIndex = p.nextIndex → p₁.matchIndex = p.matchIndex →
        p₁.suppressBulkData = s → p₁.nextAERequestTime = rd.nextTime cfg →
        (x.leader.peerAfterResponse cfg q p₁).Sat (fun _ => True) Q fun _ => False) →
      ∃ y p', x.exchange cfg cfg' rd = .ok y ∧ y.follower = m ∧
        x.leader.SameOffice y.leader ∧ y.leader.peer? x.follower.selfId = some p' ∧ Q p' := by
  obtain ⟨⟨n, a⟩, hn, hoffice, r, s, hr, hreq, hpeer⟩ := (appendEntries_asks cfg rd.send
    rd.segmentLast hx.role_eq hx.peer_eq hdue hpos hnext hfit).exists_result
  refine ⟨r, s, hr, fun m q Q hm hid hterm hle hprev hQ => ?_⟩
  rw [← hid] at hpeer
  have hcur : r.term = n.log.currentTerm := by rw [hr.term_eq, hoffice.log_eq]
  have hafter := hQ { p with
    suppressBulkData := s, nextAERequestTime := rd.nextTime cfg, lastAERequestTime := rd.send.now,
    lastResponseTime := rd.answer.now } rfl rfl rfl rfl
  rw [peerAfterResponse, ← hoffice.log_eq] at hafter
  obtain ⟨⟨n', b⟩, hn', hoffice', p', hp', hQ'⟩ :=
    (receiveAppendEntriesResponse_peer cfg rd.answer (hoffice.role_eq.trans hx.role_eq)
      hpeer (hterm.trans hcur) (hcur ▸ hle) (hprev.trans hr.prevLogIndex_eq)
      hafter).exists_result
  rw [hid] at hn' hp'
  exact ⟨⟨n', m⟩, p', exchange_eq hn hreq hm hn', rfl, hoffice.trans hoffice', hp', hQ'⟩

/-- **A round in which the follower rejects.** -/
theorem exchange_rejected (cfg' : RaftConfig)
    (hno : ¬ x.follower.log.Accepts (p.nextIndex - 1) (x.leader.log.sentTerm (p.nextIndex - 1)))
    (hgap : x.follower.log.lastIndex < p.matchIndex ∨
      p.nextIndex ≤ x.leader.log.firstIndex ∨ p.matchIndex + 1 < p.nextIndex) :
    ∃ y p', x.exchange cfg cfg' rd = .ok y ∧ y.Ready p' ∧ x.Stays y ∧
      p'.nextAERequestTime = rd.nextTime cfg ∧
      x.follower.log.SameWindow y.follower.log ∧
      y.follower.commitIndex = x.follower.commitIndex ∧
      Rejected cfg x.leader.log x.follower.log.lastIndex p p' := by
  obtain ⟨r, s, hr, hround⟩ := exists_request hx hdue hpos hnext hfit cfg'
  have hheeds : x.follower.Heeds r.term r.leaderId := by
    rw [hr.term_eq, hr.leaderId_eq]
    exact hx.heeds
  rw [← hr.prevLogIndex_eq, ← hr.prevLogTerm_eq] at hno
  obtain ⟨⟨m, b⟩, hm, q, hq, hjoin, rfl⟩ :=
    (handleAppendEntriesRequest_rejected cfg' rd.receive hheeds hno).exists_result
  obtain rfl : b = _ := hq
  obtain ⟨y, p', hy, rfl, hoffice, hp', hrej, htime⟩ := hround m _ (fun p' =>
    Rejected cfg x.leader.log x.follower.log.lastIndex p p' ∧
      p'.nextAERequestTime = rd.nextTime cfg) hm rfl rfl (Nat.le_refl _) rfl
    fun p₁ hnext₁ hmatch₁ hsup₁ htime₁ => by
      refine (peerAfterResponse_rejected rfl hnext₁ hmatch₁ (fun hlt => ?_) hgap).imp
        fun p' hp' => ⟨hp'.1, hp'.2.trans htime₁⟩
      -- the index probed lies in the window, so the switch was left alone
      rw [hsup₁, Bool.eq_iff_iff, hr.suppress_iff, hr.prevLogIndex_eq]
      exact or_iff_left (by omega)
  have hself : y.follower.selfId = x.follower.selfId := by
    rw [selfId, selfId, hjoin.members_eq]
  refine ⟨y, p', hy, ⟨hoffice.role_eq.trans hx.role_eq, hself ▸ hp', ?_⟩,
    ⟨hoffice, hself, hjoin.window.first_eq⟩, htime, hjoin.window, hjoin.commit_eq, hrej⟩
  rw [hoffice.log_eq, hoffice.selfId_eq, ← hr.term_eq, ← hr.leaderId_eq]
  exact hjoin.heeds hheeds

/-- **A round in which the follower accepts.** -/
theorem exchange_accepted (cfg' : RaftConfig) (hlt : p.matchIndex < p.nextIndex)
    (hok : x.follower.log.Accepts (p.nextIndex - 1) (x.leader.log.sentTerm (p.nextIndex - 1)))
    (hm : x.leader.log.Matching x.follower.log)
    (hc : x.leader.log.AgreesUpTo x.follower.log x.follower.commitIndex) :
    ∃ y p' k, x.exchange cfg cfg' rd = .ok y ∧ y.Ready p' ∧ x.Stays y ∧
      p'.nextAERequestTime = rd.nextTime cfg ∧
      x.leader.log.Takes x.follower.log (p.nextIndex - 1) k y.follower.log ∧
      (y.follower.commitIndex = x.follower.commitIndex ∨
        y.follower.commitIndex ≤ p.nextIndex - 1 + k) ∧
      Accepted x.leader.log k p p' := by
  obtain ⟨r, s, hr, hround⟩ := exists_request hx hdue hpos hnext hfit cfg'
  have hheeds : x.follower.Heeds r.term r.leaderId := by
    rw [hr.term_eq, hr.leaderId_eq]
    exact hx.heeds
  rw [← hr.prevLogIndex_eq, ← hr.prevLogTerm_eq] at hok
  obtain ⟨⟨m, b⟩, hm, q, hq, hheeds', hmem, htakes, hcommit, k, rfl, hk⟩ :=
    (handleAppendEntriesRequest_accepted cfg' rd.receive hheeds hok hr.slice hm hc
      hr.commit_le).exists_result
  obtain rfl : b = _ := hq
  have hprev := hr.prevLogIndex_eq
  have hid : (k.acceptAppendEntries r).id = x.follower.selfId := by
    change k.selfId = _
    rw [selfId, selfId, hk]
  have hlast : r.prevLogIndex + r.entries.length ≤ x.leader.log.lastIndex := by
    rcases Nat.eq_zero_or_pos r.entries.length with h0 | h0
    · omega
    · have hget := hr.slice (r.entries.length - 1) _ (List.getElem?_eq_getElem (by omega))
      have := Log.last_ge_of_getEntry hget
      omega
  obtain ⟨y, p', hy, rfl, hoffice, hp', hacc, htime⟩ := hround m _ (fun p' =>
    Accepted x.leader.log r.entries.length p p' ∧ p'.nextAERequestTime = rd.nextTime cfg) hm hid
    rfl (Nat.le_refl _) rfl fun p₁ hnext₁ hmatch₁ hsup₁ htime₁ => by
      have hle : p₁.matchIndex ≤ r.prevLogIndex + r.entries.length := by omega
      refine sat_check_bind (absurd hle) fun _ => sat_pure.mpr ?_
      refine ⟨⟨?_, rfl, rfl, hlast, fun h => ?_, fun hs hfirst hle => ?_⟩, htime₁⟩
      · rw [← hprev]
        rfl
      · rw [hr.entries_nil (hr.suppress_iff.mpr (h.imp_right fun h => by omega))]
        rfl
      · refine List.length_pos_iff.mpr (hr.entries_ne ?_ hle)
        rw [← Bool.not_eq_true, hr.suppress_iff, hs]
        rintro (h | h)
        · cases h
        · omega
  have hself : y.follower.selfId = x.follower.selfId := by
    rw [selfId, selfId, hmem]
  refine ⟨y, p', r.entries.length, hy, ⟨hoffice.role_eq.trans hx.role_eq, hself ▸ hp', ?_⟩,
    ⟨hoffice, hself, htakes.first_eq⟩, htime, hprev ▸ htakes, ?_, hacc⟩
  · rw [hoffice.log_eq, hoffice.selfId_eq, ← hr.term_eq, ← hr.leaderId_eq]
    exact hheeds'
  · exact hcommit.imp_right fun h => by rw [h, ← hprev]; exact hr.commit_le

end Rounds

end Link

end Gringofts
