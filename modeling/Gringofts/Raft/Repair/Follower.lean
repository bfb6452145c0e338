import Gringofts.Raft.Repair.Windows

/-!
# The follower's side of an exchange

What a follower makes of a request of the leader it can follow. Whether it accepts depends on its
window and on the index and the term that the request starts after.

## Main definitions

* `Node.Heeds` — the node can follow a leader
* `Log.Accepts` — the consistency check

## Main results

* `Node.handleAppendEntriesRequest_rejected`, `Node.handleAppendEntriesRequest_accepted`
-/

namespace Gringofts

open Outcome

variable {L : Log} {k : ℕ} {r : AppendEntriesRequest} {Q : Node → AppendEntriesResponse → Prop}

/-- **The consistency check**: an index below the window passes, any other one is looked up. -/
def Log.Accepts (l : Log) (prevLogIndex prevLogTerm : ℕ) : Prop :=
  prevLogIndex < l.firstIndex ∨
    (prevLogIndex ≤ l.lastIndex ∧ l.getTerm prevLogIndex = some prevLogTerm)

instance (l : Log) (j t : ℕ) : Decidable (l.Accepts j t) := inferInstanceAs (Decidable (_ ∨ _))

namespace Log.SameWindow

variable {l l' : Log} (h : l.SameWindow l')
include h

theorem accepts_iff {j t : ℕ} : l'.Accepts j t ↔ l.Accepts j t := by
  rw [Accepts, Accepts, getTerm, getTerm, h.getEntry_eq, h.lastIndex_eq, h.first_eq]

theorem agreesUpTo (hk : L.AgreesUpTo l k) : L.AgreesUpTo l' k :=
  fun j hj e f he hf => hk j hj e f he (h.getEntry_eq j ▸ hf)

theorem matching (hm : L.Matching l) : L.Matching l' :=
  fun i e f he hf ht => h.agreesUpTo (hm i e f he (h.getEntry_eq i ▸ hf) ht)

theorem takes {l'' : Log} {n : ℕ} (ht : L.Takes l' k n l'') : L.Takes l k n l'' where
  first_eq := ht.first_eq.trans h.first_eq
  le_last := ht.le_last
  kept j hj := (ht.kept j hj).trans (h.getEntry_eq j)
  taken j h1 h2 h3 := ht.taken j h1 h2 (h.first_eq ▸ h3)
  tail := ht.tail.imp_left fun heq j => (heq j).trans (h.getEntry_eq j)

end Log.SameWindow

/-- A request without entries leaves the window. -/
theorem Log.Takes.sameWindow {l l' : Log} (h : L.Takes l k 0 l') : l.SameWindow l' where
  first_eq := h.first_eq
  entries_eq := by
    have hget := h.tail.resolve_right fun h => Nat.lt_irrefl 0 h.2
    refine List.ext_getElem? fun j => ?_
    have hj := hget (l.firstIndex + j)
    rw [getEntry, getEntry, h.first_eq, if_pos (Nat.le_add_right _ _),
      if_pos (Nat.le_add_right _ _), Nat.add_sub_cancel_left] at hj
    exact hj

namespace Node

variable {n m : Node} {term leader : ℕ}

/-- **The node can follow the leader of a term**: it knows the leader for a voter, it is in no
later term, and in the same term it knows of no other leader. -/
structure Heeds (n : Node) (term leader : ℕ) : Prop where
  isVoter_eq : n.members.isVoter (ClusterMemberShip.roleKey leader) = pure true
  role_ne : n.role ≠ .syncer
  term_le : n.log.currentTerm ≤ term
  hint : n.log.currentTerm = term → n.leaderId = 0 ∨
    (n.leaderId = leader ∧ n.role ≠ .candidate ∧ n.role ≠ .preCandidate)

/-- What is left when a node has found its leader. -/
structure Joins (n : Node) (term leader : ℕ) (m : Node) : Prop where
  window : n.log.SameWindow m.log
  commit_eq : m.commitIndex = n.commitIndex
  members_eq : m.members = n.members
  term_eq : m.log.currentTerm = term
  role_ne : m.role ≠ .syncer
  not_standing : m.role ≠ .candidate ∧ m.role ≠ .preCandidate
  leaderId_eq : m.leaderId = 0 ∨ m.leaderId = leader

theorem Joins.heeds (h : n.Joins term leader m) (hn : n.Heeds term leader) :
    m.Heeds term leader where
  isVoter_eq := by rw [h.members_eq]; exact hn.isVoter_eq
  role_ne := h.role_ne
  term_le := h.term_eq.le
  hint _ := h.leaderId_eq.imp_right fun hid => ⟨hid, h.not_standing⟩

theorem demotedRole_not_standing :
    n.demotedRole ≠ .candidate ∧ n.demotedRole ≠ .preCandidate := by
  rcases n.demotedRole_cases with h | h | h <;> rw [h] <;> exact ⟨nofun, nofun⟩

/-- What is left when a node has stepped down. -/
structure Descends (n : Node) (term : ℕ) (m : Node) : Prop where
  window : n.log.SameWindow m.log
  commit_eq : m.commitIndex = n.commitIndex
  members_eq : m.members = n.members
  term_eq : m.log.currentTerm = term
  role_eq : m.role = n.demotedRole
  leaderId_eq : m.leaderId = 0

/-- **`stepDown`.** Its assertions hold where the term is a later one, or where the node stands for
the same one and knows of no leader. -/
theorem stepDown_descends (clk : Clock) (term : ℕ) :
    (n.stepDown clk term).Sat (fun _ => True) (fun m => n.Descends term m)
      fun _ => ¬ (n.log.currentTerm < term ∨ n.log.currentTerm = term ∧
        (n.role = .candidate ∨ n.role = .preCandidate) ∧ n.leaderId = 0) := by
  refine sat_check_bind (fun hlt => by omega) fun hle => ?_
  refine Sat.bind (R := fun m => n.Descends term m) ?_ fun m hm => ?_
  · rw [adoptTerm]
    split
    · refine Sat.bind (R := fun m => m = { n with
          role := n.demotedRole, leaderId := 0, log := n.log.setCurrentTerm term }) ?_ ?_
      · exact sat_persist_bind trivial fun _ => sat_pure.mpr rfl
      rintro m rfl
      exact sat_persist_bind trivial
        fun _ => sat_pure.mpr ⟨⟨rfl, rfl⟩, rfl, rfl, rfl, rfl, rfl⟩
    · next hlt =>
      have hlt : ¬ n.log.currentTerm < term := hlt
      have heq : n.log.currentTerm = term := by omega
      refine sat_check_bind (fun hstand h => ?_) fun _ => ?_
      · exact hstand (h.resolve_left hlt).2.1
      refine sat_check_bind (fun hzero h => ?_) fun hzero => ?_
      · exact hzero (h.resolve_left hlt).2.2
      exact sat_pure.mpr ⟨.refl _, rfl, rfl, heq, rfl, hzero⟩
  · refine sat_pure.mpr ?_
    split
    · exact { hm with }
    · exact hm

theorem stepDown_joins (clk : Clock) (hn : n.Heeds term leader)
    (h : n.log.currentTerm < term ∨ (n.role = .candidate ∨ n.role = .preCandidate)) :
    (n.stepDown clk term).Sat (fun _ => True) (fun m => n.Joins term leader m)
      fun _ => False := by
  refine (stepDown_descends clk term).mono (fun _ => id) (fun m hm => ?_) fun _ hnot => hnot ?_
  · refine ⟨hm.window, hm.commit_eq, hm.members_eq, hm.term_eq, ?_, ?_, Or.inl hm.leaderId_eq⟩
    · rw [hm.role_eq]
      exact demotedRole_ne_syncer
    · rw [hm.role_eq]
      exact demotedRole_not_standing
  · rcases Nat.lt_or_eq_of_le hn.term_le with hlt | heq
    · exact Or.inl hlt
    · have hstand := h.resolve_left (by omega)
      exact Or.inr ⟨heq, hstand, (hn.hint heq).resolve_right fun hh =>
        hstand.elim hh.2.1 hh.2.2⟩

theorem stepDownForLeader_joins (clk : Clock) (hn : n.Heeds r.term leader) :
    (n.stepDownForLeader clk r).Sat (fun _ => True) (fun m => n.Joins r.term leader m)
      fun _ => False := by
  have hle := hn.term_le
  rw [stepDownForLeader]
  split
  · next h => exact stepDown_joins clk hn (h.imp_right fun h => h.2)
  · next h =>
    have heq : n.log.currentTerm = r.term := by omega
    have hstand : ¬ (n.role = .candidate ∨ n.role = .preCandidate) := fun hs =>
      h (Or.inr ⟨heq.symm, hs⟩)
    exact sat_pure.mpr ⟨.refl _, rfl, rfl, heq, hn.role_ne,
      ⟨fun hr => hstand (Or.inl hr), fun hr => hstand (Or.inr hr)⟩,
      (hn.hint heq).imp_right fun hh => hh.1⟩

theorem hail_joins (h : n.Joins term leader m) (clk : Clock) :
    ((m.updateElectionTimePoint clk).hail leader).Sat (fun _ => True)
      (fun k => n.Joins term leader k) fun _ => False := by
  rw [hail]
  split
  · exact sat_pure.mpr { h with leaderId_eq := Or.inr rfl }
  · next hne =>
    have hid : (m.updateElectionTimePoint clk).leaderId = leader := h.leaderId_eq.resolve_left hne
    refine sat_check_bind (absurd hid) fun _ => ?_
    exact sat_pure.mpr { h with }

/-! ## The check, and what follows from it -/

theorem logIsOk_eq (j t : ℕ) : n.logIsOk j t = pure (decide (n.log.Accepts j t)) := by
  rw [logIsOk]
  split
  · next h =>
    have hok : n.log.Accepts j t := Or.inl h
    rw [decide_eq_true hok]
  next h =>
  split
  · next hle =>
    obtain ⟨t', ht'⟩ := n.log.exists_getTerm (j := j) (by omega) hle
    rw [termOfLogEntryAt, ht']
    change pure (decide (t' = t)) = _
    congr 1
    rw [decide_eq_decide, Log.Accepts, ht', Option.some.injEq]
    exact ⟨fun h => Or.inr ⟨hle, h⟩, fun h' => (h'.resolve_left h).2⟩
  · next hle =>
    rw [decide_eq_false]
    exact fun h' => h'.elim h fun h' => hle h'.1

theorem acceptOrReject_rejected (clk : Clock) (h : ¬ n.log.Accepts r.prevLogIndex r.prevLogTerm) :
    n.acceptOrReject clk r = pure (n, n.rejectAppendEntries r r.term) := by
  rw [acceptOrReject, logIsOk_eq, decide_eq_false h, pure_bind]
  rfl

theorem acceptOrReject_accepted (clk : Clock) (h : n.log.Accepts r.prevLogIndex r.prevLogTerm)
    (hes : L.Slice r.prevLogIndex r.entries) (hm : L.Matching n.log)
    (hc : L.AgreesUpTo n.log n.commitIndex)
    (hcommit : r.commitIndex ≤ r.prevLogIndex + r.entries.length) :
    (n.acceptOrReject clk r).Sat (fun _ => True)
      (fun x => ∃ (l' : Log) (c : ℕ) (k : Node), L.Takes n.log r.prevLogIndex r.entries.length l' ∧
        (c = n.commitIndex ∨ c = r.commitIndex) ∧
        x.1 = updateElectionTimePoint { n with log := l', commitIndex := c } clk ∧
        x.2 = k.acceptAppendEntries r ∧ k.members = n.members) fun _ => False := by
  rw [acceptOrReject, logIsOk_eq, decide_eq_true h, pure_bind]
  have hlast : r.prevLogIndex ≤ n.log.lastIndex := by
    have := n.log.lastIndex_add_one
    rcases h with h | h
    · omega
    · exact h.1
  refine (applyEntries_takes hes hlast hm hc).bind ?_
  rintro m ⟨l', hl', rfl⟩
  refine Sat.bind (R := fun k => ∃ c, (c = n.commitIndex ∨ c = r.commitIndex) ∧
    k = { n with log := l', commitIndex := c }) ?_ ?_
  · rw [followCommit]
    split
    · refine sat_check_bind ?_
        fun _ => sat_pure.mpr ⟨r.commitIndex, Or.inr rfl, rfl⟩
      exact absurd (hcommit.trans hl'.le_last)
    · exact sat_pure.mpr ⟨n.commitIndex, Or.inl rfl, rfl⟩
  · rintro k ⟨c, hc, rfl⟩
    exact sat_pure.mpr ⟨l', c, _, hl', hc, rfl, rfl, rfl⟩

/-- The node finds its leader, and then looks at the request. -/
theorem handleAppendEntriesRequest_heeded (clk : Clock) (hn : n.Heeds r.term r.leaderId)
    (h : ∀ m, n.Joins r.term r.leaderId m →
      (m.acceptOrReject clk r).Sat (fun _ => True) (fun x => Q x.1 x.2) fun _ => False) :
    (n.handleAppendEntriesRequest clk r).Sat (fun _ => True)
      (fun x => ∃ q, x.2 = some q ∧ Q x.1 q) fun _ => False := by
  rw [handleAppendEntriesRequest, hn.isVoter_eq, pure_bind, if_neg (by simp),
    if_neg (Nat.not_lt.mpr hn.term_le), if_neg hn.role_ne]
  refine (stepDownForLeader_joins clk hn).bind fun m hm => ?_
  refine (hail_joins hm clk).bind fun k hk => ?_
  exact (h k { hk with }).bind fun x hx => sat_pure.mpr ⟨x.2, rfl, hx⟩

theorem handleAppendEntriesRequest_sat_of (cfg : RaftConfig) (clk : Clock)
    (hn : n.Heeds r.term r.leaderId) (h : ∀ m, n.Joins r.term r.leaderId m →
      (m.acceptOrReject clk r).Sat (fun _ => True) (fun x => Q x.1 x.2) fun _ => False) :
    (n.handle cfg (.appendEntriesRequest clk r)).Sat (fun _ => True)
      (fun x => ∃ q, x.2 = some (.appendEntries q) ∧ Q x.1 q) fun _ => False := by
  have hn' : Heeds { n with outbox := [] } r.term r.leaderId := { hn with }
  change ((handleAppendEntriesRequest clk { n with outbox := [] } r) >>= fun x =>
    pure (x.1, x.2.map Answer.appendEntries)).Sat _ _ _
  refine (handleAppendEntriesRequest_heeded clk hn' fun m hm => h m { hm with }).bind ?_
  rintro x ⟨q, hq, hx⟩
  exact sat_pure.mpr ⟨q, by rw [hq]; rfl, hx⟩

/-- **A request that is rejected** leaves the window, and is answered with where it ends. -/
theorem handleAppendEntriesRequest_rejected (cfg : RaftConfig) (clk : Clock)
    (hn : n.Heeds r.term r.leaderId) (h : ¬ n.log.Accepts r.prevLogIndex r.prevLogTerm) :
    (n.handle cfg (.appendEntriesRequest clk r)).Sat (fun _ => True)
      (fun x => ∃ q, x.2 = some (.appendEntries q) ∧ n.Joins r.term r.leaderId x.1 ∧
        q = n.rejectAppendEntries r r.term) fun _ => False := by
  refine handleAppendEntriesRequest_sat_of cfg clk hn (Q := fun m q =>
    n.Joins r.term r.leaderId m ∧ q = n.rejectAppendEntries r r.term) fun m hm => ?_
  rw [acceptOrReject_rejected clk (mt hm.window.accepts_iff.mp h)]
  refine sat_pure.mpr ⟨hm, ?_⟩
  rw [rejectAppendEntries, rejectAppendEntries, hm.window.lastIndex_eq, selfId, selfId,
    hm.members_eq]

/-- **A request that is accepted** brings the follower what the leader has. -/
theorem handleAppendEntriesRequest_accepted (cfg : RaftConfig) (clk : Clock)
    (hn : n.Heeds r.term r.leaderId) (h : n.log.Accepts r.prevLogIndex r.prevLogTerm)
    (hes : L.Slice r.prevLogIndex r.entries) (hm : L.Matching n.log)
    (hc : L.AgreesUpTo n.log n.commitIndex)
    (hcommit : r.commitIndex ≤ r.prevLogIndex + r.entries.length) :
    (n.handle cfg (.appendEntriesRequest clk r)).Sat (fun _ => True)
      (fun x => ∃ q, x.2 = some (.appendEntries q) ∧ x.1.Heeds r.term r.leaderId ∧
        x.1.members = n.members ∧ L.Takes n.log r.prevLogIndex r.entries.length x.1.log ∧
        (x.1.commitIndex = n.commitIndex ∨ x.1.commitIndex = r.commitIndex) ∧
        ∃ k : Node, q = k.acceptAppendEntries r ∧ k.members = n.members) fun _ => False := by
  refine handleAppendEntriesRequest_sat_of cfg clk hn (Q := fun m q =>
    m.Heeds r.term r.leaderId ∧ m.members = n.members ∧
      L.Takes n.log r.prevLogIndex r.entries.length m.log ∧
      (m.commitIndex = n.commitIndex ∨ m.commitIndex = r.commitIndex) ∧
      ∃ k : Node, q = k.acceptAppendEntries r ∧ k.members = n.members) fun m hjoin => ?_
  have hcom : L.AgreesUpTo m.log m.commitIndex := hjoin.commit_eq ▸ hjoin.window.agreesUpTo hc
  have hsat := (acceptOrReject_accepted clk (hjoin.window.accepts_iff.mpr h) hes
    (hjoin.window.matching hm) hcom hcommit).and (acceptOrReject_sat clk r)
  refine hsat.mono (fun _ _ => trivial) ?_ fun _ h => h.1
  rintro x ⟨⟨l', c, k, hl', hc', hx, hq, hk⟩, hfront, -⟩
  have hmem : x.1.members = n.members := by
    rw [hx]
    exact hjoin.members_eq
  refine ⟨⟨?_, ?_, ?_, ?_⟩, hmem, ?_, ?_, k, hq, hk.trans hjoin.members_eq⟩
  · rw [hmem]
    exact hn.isVoter_eq
  · rw [hx]
    exact hjoin.role_ne
  · exact (hfront.1.trans hjoin.term_eq).le
  · intro _
    rw [hx]
    exact hjoin.leaderId_eq.imp_right fun hid => ⟨hid, hjoin.not_standing⟩
  · rw [hx]
    exact hjoin.window.takes hl'
  · rw [hx]
    exact hc'.imp_left fun hc' => hc'.trans hjoin.commit_eq

end Node

end Gringofts
