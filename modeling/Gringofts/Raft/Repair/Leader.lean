import Gringofts.Raft.Repair.Windows

/-!
# The leader's side of an exchange

The request that a leader sends to a peer which is due, and what it makes of the answer. Neither
depends on the other peers, and what happens to them does not matter here.

## Main definitions

* `Node.SameOffice` — what an exchange leaves of a leader
* `Node.Asks` — the request for a peer in a given state

## Main results

* `Node.appendEntries_asks` — a peer that is due is sent such a request
* `Node.receiveAppendEntriesResponse_peer` — what becomes of the peer when it answers
-/

namespace Gringofts

open Outcome

variable {p : Peer} {j : ℕ} {q : AppendEntriesResponse} {Q : Peer → Prop}

/-- The AE request to node `id`, if the output is one. -/
def Output.requestTo? (id : ℕ) : Output → Option AppendEntriesRequest
  | .appendEntries dst r => if dst = id then some r else none
  | .requestVote _ _ => none
  | .reply _ _ _ _ => none

namespace Log

variable {l : Log} {j : ℕ}

/-- The term that a leader sends along with an index: `0` below its window. -/
def sentTerm (l : Log) (j : ℕ) : ℕ := if j < l.firstIndex then 0 else (l.getTerm j).getD 0

theorem sentTerm_of_getTerm {t : ℕ} (h : l.getTerm j = some t) : l.sentTerm j = t := by
  rw [sentTerm]
  split
  · next hlt =>
    rw [getTerm] at h
    split at h
    · exact Option.some.inj h
    · rw [getEntry, if_neg (by omega)] at h
      cases h
  · rw [h]
    rfl

/-- A batch is not empty when its first entry fits. -/
theorem getEntries_ne_nil {byteSize : LogEntry → ℕ} {maxLen maxBatch segmentLast : ℕ}
    (hbatch : 0 < maxBatch) (hfit : ∀ e ∈ l.entries, byteSize e ≤ maxLen)
    (hfirst : l.firstIndex ≤ j) (hlast : j ≤ l.lastIndex) :
    l.getEntries byteSize j maxLen maxBatch segmentLast ≠ [] := by
  have hlen := l.lastIndex_add_one
  rw [getEntries, if_pos hfirst]
  have hrest : 0 < l.segmentRest j segmentLast := Nat.succ_pos _
  obtain ⟨n, hn⟩ := Nat.exists_eq_add_of_lt (Nat.lt_min.mpr ⟨hbatch, hrest⟩)
  rw [List.drop_eq_getElem_cons (by omega), hn, Nat.zero_add, List.take_succ_cons, takeBatch,
    if_neg]
  · exact List.cons_ne_nil _ _
  · rw [Nat.zero_add]
    exact Nat.not_lt.mpr (hfit _ (List.getElem_mem _))

end Log

namespace Node

variable {n m : Node}

/-- What an exchange leaves of a leader. -/
structure SameOffice (n m : Node) : Prop where
  log_eq : m.log = n.log
  role_eq : m.role = n.role
  commit_eq : m.commitIndex = n.commitIndex
  selfId_eq : m.selfId = n.selfId

theorem SameOffice.refl (n : Node) : n.SameOffice n := ⟨rfl, rfl, rfl, rfl⟩

theorem SameOffice.trans {k : Node} (h : n.SameOffice m) (h' : m.SameOffice k) :
    n.SameOffice k :=
  ⟨h'.log_eq.trans h.log_eq, h'.role_eq.trans h.role_eq, h'.commit_eq.trans h.commit_eq,
    h'.selfId_eq.trans h.selfId_eq⟩

/-! ## Sending -/

/-- The request for a peer in a given state, and whether bulk data is suppressed from now on. -/
structure Asks (n : Node) (p : Peer) (r : AppendEntriesRequest) (suppress : Bool) : Prop where
  term_eq : r.term = n.log.currentTerm
  leaderId_eq : r.leaderId = n.selfId
  prevLogIndex_eq : r.prevLogIndex = p.nextIndex - 1
  prevLogTerm_eq : r.prevLogTerm = n.log.sentTerm r.prevLogIndex
  commit_le : r.commitIndex ≤ r.prevLogIndex + r.entries.length
  suppress_iff : suppress = true ↔
    p.suppressBulkData = true ∨ r.prevLogIndex < n.log.firstIndex - 1
  entries_nil : suppress = true → r.entries = []
  entries_ne : suppress = false → p.nextIndex ≤ n.log.lastIndex → r.entries ≠ []
  slice : n.log.Slice r.prevLogIndex r.entries

theorem Asks.of_sameOffice {r : AppendEntriesRequest} {s : Bool} (h : m.Asks p r s)
    (hm : n.SameOffice m) : n.Asks p r s := by
  obtain ⟨h1, h2, h3, h4, h5, h6, h7, h8, h9⟩ := h
  rw [hm.log_eq] at *
  exact ⟨h1, h2.trans hm.selfId_eq, h3, h4, h5, h6, h7, h8, h9⟩

/-- Building a request never fails, whatever the state of the peer. -/
theorem prevLogTermFor_sent (p : Peer) :
    (n.prevLogTermFor p).Sat (fun _ => True)
      (fun x => (p.nextIndex - 1 ≤ n.log.lastIndex → x.1 = n.log.sentTerm (p.nextIndex - 1) ∧
          (x.2 = true ↔ p.suppressBulkData = true ∨ p.nextIndex - 1 < n.log.firstIndex - 1)) ∧
        (x.2 = false → p.nextIndex - 1 ≤ n.log.lastIndex)) fun _ => False := by
  rw [prevLogTermFor]
  split
  · next hout =>
    refine sat_pure.mpr ⟨fun hle => ⟨?_, ?_⟩, fun h => by cases h⟩
    · rw [Log.sentTerm, if_pos (by omega)]
    · simp only [true_iff]
      exact Or.inr (by omega)
  · next hin =>
    obtain ⟨t, ht⟩ := n.log.exists_getTerm (j := p.nextIndex - 1) (by omega) (by omega)
    rw [termOfLogEntryAt, ht]
    refine sat_pure.mpr ⟨fun _ => ⟨(Log.sentTerm_of_getTerm ht).symm, ?_⟩, fun _ => ?_⟩
    · exact (or_iff_left (by omega)).symm
    · omega

theorem entriesFor_slice (cfg : RaftConfig) (segmentLast : ℕ → ℕ) (p : Peer) {suppress : Bool}
    (hs : suppress = false → p.nextIndex - 1 ≤ n.log.lastIndex) :
    (n.entriesFor cfg segmentLast p suppress).Sat (fun _ => True)
      (fun es => (suppress = true → es = []) ∧
        (1 ≤ p.nextIndex → n.log.Slice (p.nextIndex - 1) es) ∧
        ((∀ e ∈ n.log.entries, cfg.byteSize e ≤ cfg.maxLenInBytes) → suppress = false →
          n.log.firstIndex ≤ p.nextIndex → p.nextIndex ≤ n.log.lastIndex → es ≠ []))
      fun _ => False := by
  rw [entriesFor]
  split
  · next h =>
    refine sat_pure.mpr ⟨fun _ => rfl, fun _ => n.log.slice_nil _, fun _ h' => ?_⟩
    rw [h] at h'
    cases h'
  next h =>
  have hle := hs (by simpa using h)
  split
  · next hlt =>
    refine sat_check_bind ?_
      fun _ => sat_pure.mpr
        ⟨fun _ => rfl, fun _ => n.log.slice_nil _, fun _ _ _ => by omega⟩
    exact fun hne => hne (by omega)
  · refine sat_pure.mpr ⟨fun h' => absurd h' h, fun hpos => ?_, fun hfit _ hfirst hlast =>
      Log.getEntries_ne_nil cfg.maxBatchSize_pos hfit hfirst hlast⟩
    by_cases hfirst : n.log.firstIndex ≤ p.nextIndex
    · refine Log.slice_of_isPrefix (by omega) ?_
      rw [Nat.sub_add_cancel hpos]
      exact n.log.getEntries_isPrefix _ _ _ _ _
    · rw [Log.getEntries, if_neg hfirst]
      exact n.log.slice_nil _

/-- **The request for a peer** whose next index is not beyond the log. -/
theorem buildAppendEntries_asks (cfg : RaftConfig) (segmentLast : ℕ → ℕ) (hpos : 1 ≤ p.nextIndex)
    (hnext : p.nextIndex ≤ n.log.lastIndex + 1)
    (hfit : ∀ e ∈ n.log.entries, cfg.byteSize e ≤ cfg.maxLenInBytes) :
    (n.buildAppendEntries cfg segmentLast p).Sat (fun _ => True) (fun x => n.Asks p x.1 x.2)
      fun _ => False := by
  rw [buildAppendEntries]
  refine (prevLogTermFor_sent p).bind fun x hx => ?_
  refine (entriesFor_slice cfg segmentLast p hx.2).bind fun es hes => sat_pure.mpr ?_
  obtain ⟨hterm, hsuppress⟩ := hx.1 (by omega)
  refine ⟨rfl, rfl, rfl, hterm, Nat.min_le_right _ _, hsuppress, hes.1, fun hs hlast => ?_,
    hes.2.1 hpos⟩
  refine hes.2.2 hfit hs ?_ hlast
  have hin := fun h => (hsuppress.mpr (Or.inr h)).symm.trans hs
  have hin : ¬ p.nextIndex - 1 < n.log.firstIndex - 1 := fun h => by cases hin h
  omega

theorem buildAppendEntries_ok (cfg : RaftConfig) (segmentLast : ℕ → ℕ) (p : Peer) :
    (n.buildAppendEntries cfg segmentLast p).Sat (fun _ => True) (fun _ => True)
      fun _ => False := by
  rw [buildAppendEntries]
  exact (prevLogTermFor_sent p).bind fun x hx =>
    (entriesFor_slice cfg segmentLast p hx.2).bind fun _ _ => sat_pure.mpr trivial

section Loop

variable {cfg : RaftConfig} {clk : Clock} {segmentLast : ℕ → ℕ} {id : ℕ} {ids : List ℕ}

theorem sent_sameOffice (j : ℕ) (r : AppendEntriesRequest) (f : Peer → Peer) :
    n.SameOffice ((n.send (.appendEntries j r)).modifyPeer j f) := ⟨rfl, rfl, rfl, rfl⟩

theorem peer?_modifyPeer_of_ne (hj : id ≠ j) (f : Peer → Peer) :
    (n.modifyPeer j f).peer? id = n.peer? id := Table.find?_modify_of_ne _ _ hj

theorem peer?_modifyPeer_self (f : Peer → Peer) :
    (n.modifyPeer id f).peer? id = (n.peer? id).map f := Table.find?_modify_self _ _ _

/-- Every id has a peer, also after one of them was changed. -/
theorem exists_peer_modifyPeer {i : ℕ} (h : ∃ p, n.peer? i = some p) (f : Peer → Peer) :
    ∃ p, (n.modifyPeer j f).peer? i = some p := by
  obtain ⟨p, hp⟩ := h
  by_cases hi : i = j
  · subst hi
    exact ⟨f p, by rw [peer?_modifyPeer_self, hp]; rfl⟩
  · exact ⟨p, by rw [peer?_modifyPeer_of_ne hi, hp]⟩

/-- The loop over other peers leaves this one alone. -/
theorem appendEntriesTo_other (hid : id ∉ ids) (hkeys : ∀ j ∈ ids, ∃ p, n.peer? j = some p) :
    (appendEntriesTo cfg clk segmentLast ids n).Sat (fun _ => True)
      (fun m => n.SameOffice m ∧ m.peer? id = n.peer? id ∧
        m.outbox.findSome? (Output.requestTo? id) = n.outbox.findSome? (Output.requestTo? id))
      fun _ => False := by
  induction ids generalizing n with
  | nil => exact sat_pure.mpr ⟨.refl n, rfl, rfl⟩
  | cons j ids ih =>
    have hne := List.ne_of_not_mem_cons hid
    have hid := List.not_mem_of_not_mem_cons hid
    obtain ⟨p, hp⟩ := hkeys j List.mem_cons_self
    have hkeys' : ∀ i ∈ ids, ∃ p, n.peer? i = some p := fun i hi =>
      hkeys i (List.mem_cons_of_mem _ hi)
    rw [appendEntriesTo, peerAt, hp]
    change (pure p >>= _ : Act Node).Sat _ _ _
    rw [pure_bind]
    split
    · exact ih hid hkeys'
    · refine (buildAppendEntries_ok cfg segmentLast p).bind fun x _ => ?_
      refine Sat.imp (ih hid ?_) ?_
      · exact fun i hi => exists_peer_modifyPeer (hkeys' i hi) _
      rintro m ⟨hm, hpeer, hout⟩
      refine ⟨(sent_sameOffice _ _ _).trans hm, hpeer.trans (peer?_modifyPeer_of_ne hne _),
        hout.trans ?_⟩
      simp [modifyPeer, send, List.findSome?_append, Output.requestTo?, hne.symm]

/-- The loop comes to the peer, and finds it due. -/
theorem appendEntriesTo_asks (hid : id ∈ ids) (hnodup : ids.Nodup)
    (hkeys : ∀ j ∈ ids, ∃ p, n.peer? j = some p) (hp : n.peer? id = some p)
    (hdue : p.nextAERequestTime ≤ clk.now) (hout : n.outbox.findSome? (Output.requestTo? id) = none)
    (hpos : 1 ≤ p.nextIndex) (hnext : p.nextIndex ≤ n.log.lastIndex + 1)
    (hfit : ∀ e ∈ n.log.entries, cfg.byteSize e ≤ cfg.maxLenInBytes) :
    (appendEntriesTo cfg clk segmentLast ids n).Sat (fun _ => True)
      (fun m => n.SameOffice m ∧ ∃ r s, n.Asks p r s ∧
        m.outbox.findSome? (Output.requestTo? id) = some r ∧
        m.peer? id = some { p with
          suppressBulkData := s, nextAERequestTime := never, lastAERequestTime := clk.now })
      fun _ => False := by
  induction ids generalizing n with
  | nil => cases hid
  | cons j ids ih =>
    obtain ⟨hj, hnodup⟩ := List.nodup_cons.mp hnodup
    have hkeys' : ∀ i ∈ ids, ∃ p, n.peer? i = some p := fun i hi =>
      hkeys i (List.mem_cons_of_mem _ hi)
    obtain ⟨q, hq⟩ := hkeys j List.mem_cons_self
    rw [appendEntriesTo, peerAt, hq]
    change (pure q >>= _ : Act Node).Sat _ _ _
    rw [pure_bind]
    by_cases hne : id = j
    · subst hne
      obtain rfl : q = p := Option.some.inj (hq.symm.trans hp)
      rw [if_neg (Nat.not_lt.mpr hdue)]
      refine (buildAppendEntries_asks cfg segmentLast hpos hnext hfit).bind fun x hx => ?_
      refine Sat.imp (appendEntriesTo_other hj ?_) ?_
      · exact fun i hi => exists_peer_modifyPeer (hkeys' i hi) _
      rintro m ⟨hm, hpeer, hreq⟩
      refine ⟨(sent_sameOffice _ _ _).trans hm, x.1, x.2, hx, hreq.trans ?_, hpeer.trans ?_⟩
      · simp [modifyPeer, send, List.findSome?_append, Output.requestTo?, hout]
      · rw [peer?_modifyPeer_self]
        change (n.peer? id).map _ = _
        rw [hq]
        rfl
    · have hid := (List.mem_cons.mp hid).resolve_left hne
      split
      · exact ih hid hnodup hkeys' hp hout hnext hfit
      · refine (buildAppendEntries_ok cfg segmentLast q).bind fun x _ => ?_
        refine Sat.imp (ih hid hnodup ?_ ?_ ?_ hnext hfit) ?_
        · exact fun i hi => exists_peer_modifyPeer (hkeys' i hi) _
        · exact (peer?_modifyPeer_of_ne hne _).trans hp
        · simpa [modifyPeer, send, List.findSome?_append, Output.requestTo?, Ne.symm hne] using hout
        · rintro m ⟨hm, r, s, hr, hrest⟩
          exact ⟨(sent_sameOffice _ _ _).trans hm, r, s,
            hr.of_sameOffice (sent_sameOffice _ _ _), hrest⟩

end Loop

/-- **A peer that is due is sent a request.** -/
theorem appendEntries_asks (cfg : RaftConfig) (clk : Clock) (segmentLast : ℕ → ℕ) {id : ℕ}
    (hl : n.role = .leader) (hp : n.peer? id = some p) (hdue : p.nextAERequestTime ≤ clk.now)
    (hpos : 1 ≤ p.nextIndex) (hnext : p.nextIndex ≤ n.log.lastIndex + 1)
    (hfit : ∀ e ∈ n.log.entries, cfg.byteSize e ≤ cfg.maxLenInBytes) :
    (n.handle cfg (.appendEntries clk segmentLast)).Sat (fun _ => True)
      (fun x => n.SameOffice x.1 ∧ ∃ r s, n.Asks p r s ∧
        x.1.outbox.findSome? (Output.requestTo? id) = some r ∧
        x.1.peer? id = some { p with
          suppressBulkData := s, nextAERequestTime := never, lastAERequestTime := clk.now })
      fun _ => False := by
  have hloop : (appendEntriesTo cfg clk segmentLast n.members.peers.keys.elems
      { n with outbox := [] }).Sat _ _ _ :=
    appendEntriesTo_asks (Table.mem_keys.mpr ⟨p, hp⟩) n.members.peers.keys.nodup
      (fun j hj => Table.mem_keys.mp hj) hp hdue rfl hpos hnext hfit
  change (appendEntries cfg clk { n with outbox := [] } segmentLast >>= fun m =>
    pure (m, (none : Option Answer))).Sat _ _ _
  rw [appendEntries, if_neg (not_not.mpr hl)]
  refine hloop.bind ?_
  rintro m ⟨hm, r, s, hr, hrest⟩
  exact sat_pure.mpr ⟨{ hm with }, r, s, { hr with }, hrest⟩

/-! ## The answer -/

/-- When a peer may be sent the next request after it has answered. -/
def nextTime (cfg : RaftConfig) (p : Peer) (clk : Clock) : ℕ :=
  max (p.lastAERequestTime + cfg.heartBeatIntervalInMillis * nanosPerMilli) clk.now

theorem handleAppendEntriesResponse_peer {cfg : RaftConfig} {clk : Clock} (hl : n.role = .leader)
    (hp : n.peer? q.id = some p) (hterm : q.savedTerm = n.log.currentTerm)
    (hle : q.term ≤ n.log.currentTerm) (hprev : q.savedPrevLogIndex = p.nextIndex - 1)
    (hpeer : (n.peerAfterResponse cfg q p).Sat (fun _ => True) Q fun _ => False) :
    (n.handleAppendEntriesResponse cfg clk q).Sat (fun _ => True)
      (fun m => n.SameOffice m ∧ ∃ p', m.peer? q.id = some p' ∧ Q p') fun _ => False := by
  rw [handleAppendEntriesResponse, if_neg (not_not.mpr hterm.symm)]
  refine sat_check_bind (absurd hl) fun _ => ?_
  rw [if_neg (Nat.not_lt.mpr hle), hp]
  simp only
  rw [if_neg (not_not.mpr hprev)]
  refine hpeer.bind fun p' hp' => sat_pure.mpr ⟨⟨rfl, rfl, rfl, rfl⟩, p', ?_, hp'⟩
  rw [peer?_modifyPeer_self, hp]
  rfl

/-- **What becomes of a peer when it answers** in the term of its leader. -/
theorem receiveAppendEntriesResponse_peer (cfg : RaftConfig) (clk : Clock) (hl : n.role = .leader)
    (hp : n.peer? q.id = some p) (hterm : q.savedTerm = n.log.currentTerm)
    (hle : q.term ≤ n.log.currentTerm) (hprev : q.savedPrevLogIndex = p.nextIndex - 1)
    (hpeer : (n.peerAfterResponse cfg q { p with
      nextAERequestTime := nextTime cfg p clk, lastResponseTime := clk.now }).Sat (fun _ => True) Q
        fun _ => False) :
    (n.handle cfg (.appendEntriesResponse clk q.id (some q))).Sat (fun _ => True)
      (fun x => n.SameOffice x.1 ∧ ∃ p', x.1.peer? q.id = some p' ∧ Q p') fun _ => False := by
  change (receiveAppendEntriesResponse cfg clk { n with outbox := [] } q.id (some q) >>= fun m =>
    pure (m, (none : Option Answer))).Sat _ _ _
  refine Sat.bind (R := fun m => n.SameOffice m ∧ ∃ p', m.peer? q.id = some p' ∧ Q p') ?_
    fun m hm => sat_pure.mpr hm
  have hp' : peer? { n with outbox := [] } q.id = some p := hp
  rw [receiveAppendEntriesResponse, hp']
  -- the timers of the peer come first
  have hmod : ∀ f g : Peer → Peer, peer? ((modifyPeer { n with outbox := [] } q.id f).modifyPeer
      q.id g) q.id = some (g (f p)) := fun f g => by
    rw [peer?_modifyPeer_self, peer?_modifyPeer_self, hp']
    rfl
  refine Sat.imp (handleAppendEntriesResponse_peer hl (hmod _ _) hterm hle hprev ?_)
    fun m hm => ⟨{ hm.1 with }, hm.2⟩
  exact hpeer

end Node

end Gringofts
