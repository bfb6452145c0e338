import Gringofts.Raft.Evolution
import Gringofts.Raft.Refinement.Election

/-!
# Leading

What a leader sends, what it makes of the answers, and when it counts an index as committed. A
leader's log is the log of its term, so what it sends is a piece of that log, and an index that a
majority is known to have reached, with an entry of the leader's own term, is committed.

The bounds on what is known of a peer hold no matter which answers arrive and in which order:
`Node.peerAfterResponse_sat` needs only that a reported match was acknowledged.

## Main results

* `Node.appendEntries_sim`, `Node.receiveAppendEntriesResponse_sim`
* `Node.handleClientRequests_sim`, `Node.advanceCommitIndex_sim`
* `Node.leadershipTimeout_sim`, `Node.truncatePrefix_sim`
-/

namespace Gringofts

open Replication Outcome Abstraction Node

variable {S : Setup} {i : ℕ} {n : Node} {a : S.Abstract} {p : Peer} {id k t m : ℕ}
  {r : AppendEntriesResponse}

/-- A leader holds the log of its term. -/
theorem Describes.log_eq (h : Describes S a.1 i n) (hr : n.role = .leader) :
    a.1.llog (a.1.term i) = a.1.log i :=
  (a.2.leader_log (h.leader hr).1 rfl).symm

/-! ### Sending -/

/-- The previous term sent is `0` or the real one. -/
theorem Node.prevLogTermFor_sat (h : Describes S a.1 i n) (p : Peer) :
    (n.prevLogTermFor p).Sat (fun _ => False)
      (fun r => r.1 = 0 ∨ r.1 = termAt LogEntry.term (a.1.log i) (p.nextIndex - 1))
      fun _ => True := by
  rw [prevLogTermFor]
  split
  · exact sat_pure.mpr (Or.inl rfl)
  · next hin =>
    refine Sat.bind (R := fun t => t = 0 ∨
      t = termAt LogEntry.term (a.1.log i) (p.nextIndex - 1)) ?_ fun t ht => ?_
    · refine sat_ofOption.mpr ⟨fun t ht => ?_, fun _ => trivial⟩
      by_cases hfirst : p.nextIndex - 1 = n.log.firstIndex - 1
      · rw [Log.getTerm, if_pos hfirst] at ht
        exact Or.inl (Option.some.inj ht).symm
      · rw [h.durable.getTerm_eq (by omega) (by omega)] at ht
        exact Or.inr (Option.some.inj ht).symm
    · exact sat_pure.mpr ht

/-- The entries sent are the ones that follow the previous index. -/
theorem Node.entriesFor_sat (cfg : RaftConfig) (segmentLast : ℕ → ℕ) (suppress : Bool) :
    (n.entriesFor cfg segmentLast p suppress).Sat (fun _ => False)
      (fun es => es = [] ∨ n.log.firstIndex ≤ p.nextIndex ∧
        es <+: n.log.entries.drop (p.nextIndex - n.log.firstIndex)) fun _ => True := by
  rw [entriesFor]
  split
  · exact sat_pure.mpr (Or.inl rfl)
  · split
    · refine Sat.bind (R := fun _ => True) ?_ fun _ _ =>
        sat_pure.mpr (Or.inl rfl)
      exact sat_check.mpr ⟨fun _ => trivial, fun _ => trivial⟩
    · refine sat_pure.mpr ?_
      by_cases hfirst : n.log.firstIndex ≤ p.nextIndex
      · exact Or.inr ⟨hfirst, n.log.getEntries_isPrefix _ _ _ _ _⟩
      · exact Or.inl (by rw [Log.getEntries, if_neg hfirst])

/-- **A leader sends a piece of its log.** -/
theorem Node.buildAppendEntries_sat (h : Describes S a.1 i n) (hi : i ∈ S.info.nodes.keys)
    (hr : n.role = .leader) (cfg : RaftConfig) (segmentLast : ℕ → ℕ) (hp : n.peer? id = some p) :
    (n.buildAppendEntries cfg segmentLast p).Sat (fun _ => False)
      (fun r => AppendEntriesOk S a.1 i id r.1) fun _ => True := by
  have hid := (mem_keys_of_peer h.members hp).2
  have hpeer := h.peers hr id p hp
  have hnext : 1 ≤ p.nextIndex := Nat.lt_of_le_of_lt (Nat.zero_le _) hpeer.match_lt
  have hcur := h.durable.term_eq
  have hlog := h.log_eq hr
  rw [buildAppendEntries]
  refine Sat.bind (prevLogTermFor_sat h p) ?_
  rintro ⟨prevLogTerm, suppress⟩ hprev
  refine Sat.bind (entriesFor_sat cfg segmentLast suppress) fun es hes =>
    sat_pure.mpr ?_
  -- the entries, read off the whole log
  have hentry : ∀ j e, es[j]? = some e → entryAt (a.1.log i) (p.nextIndex - 1 + j + 1) = some e ∧
      e.index = p.nextIndex - 1 + j + 1 := by
    intro j e he
    rcases hes with rfl | ⟨hfirst, hpre⟩
    · simp at he
    have hlt : j < es.length := (List.getElem?_eq_some_iff.mp he).1
    have hget : n.log.entries[p.nextIndex - n.log.firstIndex + j]? = some e := by
      rw [← List.getElem?_drop, ← he]
      exact (agree_of_isPrefix hpre (Nat.le_refl _)).symm.getElem?_eq hlt
    refine ⟨?_, ?_⟩
    · rw [h.durable.entries_eq, List.getElem?_drop] at hget
      rw [entryAt_succ, ← hget]
      have := n.log.first_pos
      congr 1
      omega
    · rw [n.log.indexed _ e hget]
      omega
  have hlen : p.nextIndex - 1 + es.length ≤ (a.1.log i).length := by
    rcases hes with rfl | ⟨hfirst, hpre⟩
    · have := hpeer.next_le
      simp only [List.length_nil]
      omega
    · have h1 := hpre.length_le
      have h2 := n.log.lastIndex_add_one
      have h3 := h.durable.lastIndex_eq
      have h4 := hpeer.next_le
      rw [List.length_drop] at h1
      omega
  exact
    { src_mem := hi
      ne := hid.symm
      leaderId_eq := h.members.selfId_eq
      leader_eq := by rw [hcur]; exact (h.leader hr).1
      entries_eq := fun j e he => by rw [hcur, hlog]; exact hentry j e he
      le_length := by rw [hcur, hlog]; exact hlen
      prevLogTerm_eq := by rw [hcur, hlog]; exact hprev
      commit_le := Nat.min_le_right _ _
      committed := by
        have hle : min n.commitIndex (p.nextIndex - 1 + es.length) ≤ a.1.committed i :=
          (Nat.min_le_left _ _).trans h.commit_le
        rw [hcur, hlog]
        rcases a.2.committed_log i with h0 | ⟨t, j, ht, hc, hj, hag⟩
        · exact Or.inl (Nat.le_zero.mp (h0 ▸ hle))
        · exact Or.inr ⟨t, j, ht, hc, hle.trans hj, hag.mono hle⟩ }

theorem Node.appendEntriesTo_sim (cfg : RaftConfig) (clk : Clock) (segmentLast : ℕ → ℕ)
    (hi : i ∈ S.info.nodes.keys) {ids : List ℕ} (h : Describes S a.1 i n)
    (hr : n.role = .leader) :
    (S.abstraction i).Sim a (appendEntriesTo cfg clk segmentLast ids n)
      (fun b m => Describes S b.1 i m) fun _ => True := by
  induction ids generalizing n with
  | nil => exact sim_pure h
  | cons id ids ih =>
    rw [appendEntriesTo]
    refine .bind (sim_ofOption (Q := fun b p => b = a ∧ n.peer? id = some p)
      (fun p hp => ⟨rfl, hp⟩) fun _ => trivial) ?_
    rintro b p - ⟨rfl, hp⟩
    refine .ite (fun _ => ih h hr) fun _ => ?_
    refine .bind (sim_of_sat (Q := fun c r => c = b ∧ AppendEntriesOk S b.1 i id r.1)
      ((buildAppendEntries_sat h hi hr cfg segmentLast hp).imp fun r h => ⟨rfl, h⟩)) ?_
    rintro c ⟨r, suppress⟩ - ⟨rfl, hok⟩
    refine ih (Describes.modifyPeer_times (h.send ?_) (fun _ => rfl) (fun _ => rfl) fun _ => rfl)
      hr
    exact hok

theorem Node.appendEntries_sim (h : Describes S a.1 i n) (hi : i ∈ S.info.nodes.keys)
    (cfg : RaftConfig) (clk : Clock) (segmentLast : ℕ → ℕ) :
    (S.abstraction i).Sim a (n.appendEntries cfg clk segmentLast) (fun b m => Describes S b.1 i m)
      fun _ => True := by
  rw [appendEntries]
  exact .ite (fun _ => sim_pure h) fun hr =>
    appendEntriesTo_sim cfg clk segmentLast hi h (not_not.mp hr)

/-! ### Answers -/

theorem Node.restartIndex_bounds (l : Log) (k : ℕ) :
    1 ≤ restartIndex l k ∧ restartIndex l k ≤ l.lastIndex + 1 := by
  rw [restartIndex]
  split <;> omega

theorem Node.rolledBackIndex_bounds (l : Log) (k : ℕ) :
    1 ≤ rolledBackIndex l k ∧ rolledBackIndex l k ≤ l.lastIndex + 1 := by
  rw [rolledBackIndex]
  split
  · omega
  · exact restartIndex_bounds l k

/-- Going back never passes the match, and goes no further up. -/
theorem Node.decreasedIndex_bounds (cfg : RaftConfig) (hgap : p.matchIndex + 1 < p.nextIndex)
    (hk : p.matchIndex ≤ k) :
    p.matchIndex < decreasedIndex cfg p k ∧ decreasedIndex cfg p k < p.nextIndex := by
  have hpos := cfg.maxDecrStep_pos
  rw [decreasedIndex]
  split <;> omega

/-- **The bounds on a peer survive every answer.** -/
theorem Node.peerAfterResponse_sat {b : State ℕ LogEntry} (cfg : RaftConfig)
    (hp : PeerOk b t n.log.lastIndex id p) (hmatch : r.success = true → r.matchIndex ≤ b.ack t id)
    (hack : b.ack t id ≤ n.log.lastIndex) :
    (n.peerAfterResponse cfg r p).Sat (fun _ => False) (PeerOk b t n.log.lastIndex id)
      fun _ => True := by
  rw [peerAfterResponse]
  split
  · next hs =>
    refine sat_check_bind (fun _ => trivial) fun _ =>
        sat_pure.mpr ⟨hmatch hs, Nat.lt_succ_self _, ?_⟩
    exact Nat.succ_le_succ ((hmatch hs).trans hack)
  split
  · have hback := rolledBackIndex_bounds n.log r.lastLogIndex
    exact sat_pure.mpr ⟨Nat.zero_le _, hback.1, hback.2⟩
  split
  · have hrestart := restartIndex_bounds n.log r.lastLogIndex
    exact sat_pure.mpr ⟨Nat.zero_le _, hrestart.1, hrestart.2⟩
  · next hlast _ =>
    refine Sat.bind (R := fun _ => p.matchIndex + 1 < p.nextIndex)
      (sat_check.mpr ⟨fun hgap => hgap, fun _ => trivial⟩) fun _ hgap => ?_
    have hdecr := decreasedIndex_bounds cfg hgap (Nat.not_lt.mp hlast)
    exact sat_pure.mpr ⟨hp.match_le, hdecr.1, hdecr.2.le.trans hp.next_le⟩

/-- A leader makes of an answer only what the sender has acknowledged. -/
theorem Node.handleAppendEntriesResponse_sim {src : ℕ} (cfg : RaftConfig) (clk : Clock)
    (h : Describes S a.1 i n)
    (hr : r.id = src ∧ (r.success = true → r.matchIndex ≤ a.1.ack r.savedTerm src)) :
    (S.abstraction i).Sim a (n.handleAppendEntriesResponse cfg clk r)
      (fun b m => Describes S b.1 i m) fun _ => True := by
  have hcur := h.durable.term_eq
  rw [handleAppendEntriesResponse]
  refine .ite (fun _ => sim_pure h) fun hsaved => ?_
  have hsaved := not_not.mp hsaved
  refine .bind (sim_check (Q := fun b _ => b = a ∧ n.role = .leader)
    (fun hrole => ⟨rfl, hrole⟩) fun _ => trivial) ?_
  rintro b - - ⟨rfl, hrole⟩
  refine .ite (fun hlt => ?_) fun _ => ?_
  · exact ((stepDown_sim h clk (Or.inl (by omega))).imp
      fun b m _ hm => hm.describes).weaken fun _ => False.elim
  split
  · exact sim_pure h
  · next p hp =>
    refine .ite (fun _ => sim_pure h) fun _ => ?_
    have hlast := h.durable.lastIndex_eq
    have hpeer := h.peers hrole r.id p hp
    rw [← hlast] at hpeer
    have hmatch : r.success = true → r.matchIndex ≤ b.1.ack (b.1.term i) r.id := fun hs => by
      rw [← hcur, hsaved, hr.1]
      exact hr.2 hs
    have hack : b.1.ack (b.1.term i) r.id ≤ n.log.lastIndex := by
      rw [hlast, ← h.log_eq hrole]
      exact (b.2.ack_le _ _).1
    refine .bind (sim_of_sat
      (Q := fun c q => c = b ∧ PeerOk b.1 (b.1.term i) n.log.lastIndex r.id q)
      ((peerAfterResponse_sat cfg hpeer hmatch hack).imp fun q hq => ⟨rfl, hq⟩)) ?_
    rintro c q - ⟨rfl, hq⟩
    refine sim_pure (h.modifyPeer (fun hc => ?_) fun _ _ _ => hlast ▸ hq)
    rw [hrole] at hc
    cases hc

theorem Node.receiveAppendEntriesResponse_sim {r : Option AppendEntriesResponse}
    (cfg : RaftConfig) (clk : Clock) (src peerId : ℕ) (h : Describes S a.1 i n)
    (hr : ∀ x, r = some x →
      x.id = src ∧ (x.success = true → x.matchIndex ≤ a.1.ack x.savedTerm src)) :
    (S.abstraction i).Sim a (n.receiveAppendEntriesResponse cfg clk peerId r)
      (fun b m => Describes S b.1 i m) fun _ => True := by
  rw [receiveAppendEntriesResponse]
  split
  · exact sim_pure h
  · cases r with
    | none =>
      refine sim_pure ?_
      refine Describes.modifyPeer_times ?_ (fun _ => rfl) (fun _ => rfl) fun _ => rfl
      exact h.modifyPeer_times (fun _ => rfl) (fun _ => rfl) fun _ => rfl
    | some x =>
      refine handleAppendEntriesResponse_sim cfg clk ?_ (hr x rfl)
      refine Describes.modifyPeer_times ?_ (fun _ => rfl) (fun _ => rfl) fun _ => rfl
      exact h.modifyPeer_times (fun _ => rfl) (fun _ => rfl) fun _ => rfl

/-! ### Clients -/

/-- The entries that pass the filter carry the leader's term and follow its log. -/
theorem Node.selectRequests_spec (cs : List ClientRequest) (last j : ℕ) {e : LogEntry}
    (he : ((selectRequests t last cs).map ClientRequest.entry)[j]? = some e) :
    e.term = t ∧ e.index = last + j + 1 := by
  induction cs generalizing last j with
  | nil => simp [selectRequests] at he
  | cons c cs ih =>
    rw [selectRequests] at he
    split at he
    · next hc =>
      cases j with
      | zero =>
        have he : c.entry = e := by simpa using he
        rw [← he]
        exact hc
      | succ j =>
        obtain ⟨h1, h2⟩ := ih (last + 1) j (by simpa using he)
        exact ⟨h1, by omega⟩
    · exact ih last j he

/-- A leader selects among what it was handed. -/
theorem Node.selectRequests_sublist (t last : ℕ) (cs : List ClientRequest) :
    (selectRequests t last cs).Sublist cs := by
  induction cs generalizing last with
  | nil => exact List.Sublist.refl _
  | cons c cs ih =>
    rw [selectRequests]
    split
    · exact (ih _).cons_cons c
    · exact (ih _).cons c

/-- A leader appends entries of its own term, one after the other. -/
theorem Describes.append_sim {es : List LogEntry} (h : Describes S a.1 i n)
    (hr : n.role = .leader)
    (hes : ∀ j e, es[j]? = some e →
      e.term = n.log.currentTerm ∧ e.index = n.log.lastIndex + j + 1) :
    (S.abstraction i).Sim a (appendAll n.log es)
      (fun b l => Describes S b.1 i { n with log := l }) fun _ => False := by
  induction es generalizing a n with
  | nil => exact sim_pure h
  | cons e es ih =>
    obtain ⟨hterm, hidx⟩ := hes 0 e rfl
    have hs : S.protocol.Step i a.1 (a.1.append i [e]) := by
      refine .append (h.leader hr).1 fun e' he' => ?_
      rw [List.mem_singleton.mp he', ← h.durable.term_eq]
      exact hterm
    have hg := Protocol.Step.grows a.2 hs
    have hdur : Durable (a.1.append i [e]) i (n.log.appendEntry e hidx) :=
      { h.durable.appendEntry hidx with }
    have hlog : (a.1.append i [e]).log i = a.1.log i ++ [e] := State.append_log _ _ _
    have hd : Describes S (a.after hs).1 i { n with log := n.log.appendEntry e hidx } :=
      { h with
        durable := hdur
        candidate := fun hc => by
          change n.role = .candidate at hc
          rw [hr] at hc
          cases hc
        peers := fun _ id p hp => by
          have hok := h.peers hr id p hp
          refine ⟨hok.match_le.trans (hg.ack_le _ _), hok.match_lt, hok.next_le.trans ?_⟩
          change _ ≤ ((a.1.append i [e]).log i).length + 1
          rw [hlog, List.length_append]
          omega
        outbox := fun o ho => (h.outbox o ho).grows hg }
    have hlast : (n.log.appendEntry e hidx).lastIndex = n.log.lastIndex + 1 := by
      rw [hdur.lastIndex_eq, hlog, List.length_append, h.durable.lastIndex_eq]
      rfl
    rw [appendAll, dif_pos hidx]
    refine .advance (S.reach_after a hs) ?_
    refine .bind (sim_persist (Q := fun b _ => b = a.after hs) hdur rfl) ?_
    rintro b - - rfl
    refine ih (a := a.after hs) (n := { n with log := n.log.appendEntry e hidx }) hd hr ?_
    intro j e' he'
    obtain ⟨h1, h2⟩ := hes (j + 1) e' (by simpa using he')
    refine ⟨h1, ?_⟩
    rw [hlast]
    omega

theorem Node.handleClientRequests_sim (h : Describes S a.1 i n) (cs : List ClientRequest) :
    (S.abstraction i).Sim a (n.handleClientRequests cs) (fun b m => Describes S b.1 i m)
      fun _ => False := by
  rw [handleClientRequests]
  refine .ite (fun _ => sim_pure
    { h with outbox := Describes.append_outbox h.outbox outputOk_replyPending }) fun hr => ?_
  have hsel := fun j e he => selectRequests_spec (t := n.log.currentTerm) (e := e) cs
    n.log.lastIndex j he
  refine .bind (R := fun b r => Describes S b.1 i { n with log := r.1 }) ?_
    fun b r _ hd => sim_pure { hd with }
  rw [Log.appendEntries.eq_def]
  split
  · exact sim_pure h
  · next e es heq =>
    have hidx : e.index = n.log.lastIndex + 1 := (hsel 0 e (by rw [heq]; rfl)).2
    rw [if_neg (not_not.mpr hidx)]
    exact .bind (h.append_sim (not_not.mp hr) hsel) fun b l _ hd => sim_pure hd

/-! ### Committing -/

/-- **A majority index with an entry of the leader's term is committed.** -/
theorem Describes.committed (h : Describes S a.1 i n) (hr : n.role = .leader)
    (hq : ∀ q ∈ S.info.quorumSets, (S.info.voters q).length / 2 <
      (S.info.voters q).countP fun id => decide (m ≤ n.knownIndex id))
    (ht : n.log.getTerm m = some n.log.currentTerm) :
    S.protocol.Committed a.1 (a.1.term i) m ∧ m ≤ (a.1.log i).length := by
  have hlead := (h.leader hr).1
  have hne : a.1.leader (a.1.term i) ≠ none := hlead ▸ Option.some_ne_none i
  have hlog := h.log_eq hr
  have hpos : a.1.term i ≠ 0 := fun h0 => hne (h0 ▸ a.2.leader_zero)
  -- the term is not the `0` below the window, so there is an entry
  have hentry : ∃ e, entryAt (a.1.log i) m = some e ∧ e.term = a.1.term i := by
    rw [h.durable.term_eq, Log.getTerm] at ht
    split at ht
    · exact absurd (Option.some.inj ht).symm hpos
    · obtain ⟨e, he, hterm⟩ := Option.map_eq_some_iff.mp ht
      have hfirst : n.log.firstIndex ≤ m := by
        by_contra hlt
        rw [Log.getEntry, if_neg hlt] at he
        cases he
      exact ⟨e, h.durable.getEntry_eq hfirst ▸ he, hterm⟩
  obtain ⟨e, he, hterm⟩ := hentry
  have hm := (le_length_of_entryAt he).2
  refine ⟨⟨hne, hlog ▸ hm, ?_, (S.info.nodes.keys.elems.filter fun id =>
    decide (m ≤ n.knownIndex id)).toFinset, fun q hqm => ?_, fun id hid => ?_⟩, hm⟩
  · rw [hlog]
    exact (termAt_of_entryAt he).trans hterm
  · refine (hq q hqm).trans_le (List.countP_mono_left fun id hid hle => ?_)
    have hmem := S.wellFormed.mem_keys hqm (List.mem_filter.mp hid).1
    simp only [List.mem_toFinset, List.mem_filter, decide_eq_true_eq]
    exact ⟨hmem, of_decide_eq_true hle⟩
  · simp only [List.mem_toFinset, List.mem_filter, decide_eq_true_eq] at hid
    obtain ⟨hmem, hle⟩ := hid
    by_cases hself : n.selfId = id
    · -- the leader has acknowledged its own log
      have hid : id = i := hself.symm.trans h.members.selfId_eq
      rw [hid]
      refine hm.trans ?_
      rw [← hlog]
      exact a.2.leader_ack hlead
    · obtain ⟨p, hp⟩ := exists_peer h.members hmem
        fun heq => hself (h.members.selfId_eq.trans heq.symm)
      rw [knownIndex, if_neg hself, hp] at hle
      exact Nat.le_trans hle (h.peers hr id p hp).match_le

theorem Node.commitTo_sim (h : Describes S a.1 i n) (hr : n.role = .leader)
    (hc : S.protocol.Committed a.1 (a.1.term i) m) (hm : m ≤ (a.1.log i).length) :
    (S.abstraction i).Sim a (n.commitTo m) (fun b n' => Describes S b.1 i n') fun _ => False := by
  have hs : S.protocol.Step i a.1 (a.1.commit i m) := by
    refine .commit (Nat.le_refl _) hc (Nat.le_refl _) ?_
    rw [h.log_eq hr]
    exact Agree.refl hm
  have hg := Protocol.Step.grows a.2 hs
  have hle : m ≤ n.log.lastIndex := h.durable.lastIndex_eq ▸ hm
  rw [commitTo]
  refine .bind (sim_check (Q := fun b _ => b = a) (fun _ => rfl) (absurd hle)) ?_
  rintro b - - rfl
  refine .advance (S.reach_after b hs) (sim_pure ?_)
  exact
    { h with
      durable :=
        { h.durable with
          first_le := h.durable.first_le.imp id fun h1 => h1.trans (hg.committed_le i) }
      commit_le := (Nat.le_max_right _ _).trans (State.commit_committed b.1 i m).ge
      candidate := fun hc => { h.candidate hc with }
      peers := fun hl id p hp => { h.peers hl id p hp with }
      outbox := Describes.append_outbox (fun o ho => (h.outbox o ho).grows hg)
        outputOk_replyPending }

theorem Node.advanceCommitIndex_sim (h : Describes S a.1 i n) (hi : i ∈ S.info.nodes.keys) :
    (S.abstraction i).Sim a n.advanceCommitIndex (fun b m => Describes S b.1 i m)
      fun _ => True := by
  rw [advanceCommitIndex]
  refine .ite (fun _ => sim_pure h) fun hr => ?_
  refine .bind (sim_of_sat (Q := fun b m => b = a ∧ ∀ q ∈ S.info.quorumSets,
    (S.info.voters q).length / 2 <
      (S.info.voters q).countP fun id => decide (m ≤ n.knownIndex id))
    ((getMajorityIndex_sat h.members hi).imp fun m hm => ⟨rfl, hm.2⟩)) ?_
  rintro b m - ⟨rfl, hq⟩
  refine .ite (fun _ => sim_pure h) fun _ => ?_
  refine .bind (sim_ofOption (Q := fun c t => c = b ∧ n.log.getTerm m = some t)
    (fun t ht => ⟨rfl, ht⟩) fun _ => trivial) ?_
  rintro c t - ⟨rfl, ht⟩
  refine .ite (fun _ => sim_pure h) fun heq => ?_
  rw [not_not.mp heq] at ht
  obtain ⟨hc, hm⟩ := h.committed (not_not.mp hr) hq ht
  exact (commitTo_sim h (not_not.mp hr) hc hm).weaken fun _ => False.elim

/-! ### Giving up, and forgetting the front of the log -/

theorem Node.leadershipTimeout_sim (h : Describes S a.1 i n) (cfg : RaftConfig) (clk : Clock) :
    (S.abstraction i).Sim a (n.leadershipTimeout cfg clk) (fun b m => Describes S b.1 i m)
      fun _ => True := by
  have hcur := h.durable.term_eq
  rw [leadershipTimeout]
  refine .ite (fun _ => sim_pure h) fun _ => ?_
  refine .bind (sim_of_sat (Q := fun b _ => b = a)
    ((n.getMajorityTimeElapse_reads clk).sat.imp fun _ _ => rfl)) ?_
  rintro b t - rfl
  refine .ite (fun _ => sim_pure h) fun _ => ?_
  exact ((stepDown_sim h clk (Or.inl (by omega))).imp
    fun b m _ hm => hm.describes).weaken fun _ => False.elim

/-- Only committed entries are cut off in front. -/
theorem Durable.truncatePrefix {l : Log} (h : Durable a.1 i l) (hk : k ≤ a.1.committed i) :
    Durable a.1 i (l.truncatePrefix k) where
  term_eq := by rw [Log.truncatePrefix_currentTerm]; exact h.term_eq
  vote_eq := by rw [Log.truncatePrefix_voteFor]; exact h.vote_eq
  entries_eq := by
    have h1 := l.first_pos
    rw [Log.truncatePrefix_entries, Log.truncatePrefix_firstIndex, h.entries_eq, List.drop_drop]
    congr 1
    omega
  first_sub_le := by
    have h1 := h.first_sub_le
    have h2 := a.2.committed_le i
    rw [Log.truncatePrefix_firstIndex]
    omega
  first_le := by
    rw [Log.truncatePrefix_firstIndex]
    rcases h.first_le with h1 | h1
    · rcases Nat.le_total k 1 with hk1 | hk1
      · exact Or.inl (by omega)
      · exact Or.inr (by omega)
    · exact Or.inr (Nat.max_le.mpr ⟨h1, hk⟩)

theorem Node.truncatePrefix_sim (h : Describes S a.1 i n) (k : ℕ) :
    (S.abstraction i).Sim a (n.truncatePrefix k) (fun b m => Describes S b.1 i m)
      fun _ => True := by
  rw [truncatePrefix]
  refine .bind (sim_check (Q := fun b _ => b = a ∧ k ≤ n.commitIndex)
    (fun hk => ⟨rfl, hk⟩) fun _ => trivial) ?_
  rintro b - - ⟨rfl, hk⟩
  have hdur := h.durable.truncatePrefix (hk.trans h.commit_le)
  refine .bind (sim_persist (Q := fun c _ => c = b) hdur rfl) ?_
  rintro c - - rfl
  exact sim_pure { h with durable := hdur }

end Gringofts
