import Gringofts.Raft.Refinement.StepDown

/-!
# Following a leader

The handler of AE requests, step by step. The request carries a piece of the log of the leader
of its term. The consistency check finds out that the logs agree up to where the piece starts:
above the front of the window by comparing terms, below it because what is below was committed,
and committed entries are in the log of every later leader. From there on the loop keeps the
agreement: what it skips agrees, what it cuts departs from the leader, and what it appends is the
leader's.

No assertion of the handler can fail on the way, which is part of every statement here.

## Main results

* `Node.logIsOk_sim` — a request that passes the check starts where the logs agree
* `Node.applyEntries_sim` — afterwards the logs agree as far as the request reaches
* `Node.handleAppendEntriesRequest_sim` — the whole handler
-/

namespace Gringofts

open Replication Abstraction Node

variable {S : Setup} {i : ℕ} {a : S.Abstract} {l : Log} {j src c k : ℕ} {n : Node}
  {r : AppendEntriesRequest} {es log : List LogEntry} {e : LogEntry}

/-- The entries are the ones of `L` that follow index `k`, and are numbered so. -/
def Slice (L : List LogEntry) (k : ℕ) (es : List LogEntry) : Prop :=
  ∀ j e, es[j]? = some e → entryAt L (k + j + 1) = some e ∧ e.index = k + j + 1

namespace Slice

variable {L es : List LogEntry} {e : LogEntry} {k : ℕ}

theorem head (h : Slice L k (e :: es)) : entryAt L (k + 1) = some e ∧ e.index = k + 1 :=
  h 0 e rfl

theorem tail (h : Slice L k (e :: es)) : Slice L (k + 1) es := by
  intro j e' he
  have := h (j + 1) e' (by simpa using he)
  rwa [show k + (j + 1) + 1 = k + 1 + j + 1 by omega] at this

theorem index_eq (h : Slice L k es) (j : ℕ) (e : LogEntry) (he : es[j]? = some e) :
    e.index = k + j + 1 :=
  (h j e he).2

theorem nil (L : List LogEntry) (k : ℕ) : Slice L k [] := by
  intro j e he
  simp at he

end Slice

/-! ### The consistency check -/

/-- A node in the term of a request agrees with that term's leader on what it has counted as
committed, and so below its window. -/
theorem Durable.agree_of_lt_first (hd : Durable a.1 i l) (hl : a.1.leader (a.1.term i) ≠ none)
    (hj : j < l.firstIndex) : Agree (a.1.log i) (a.1.llog (a.1.term i)) j := by
  have hcom := a.2.committed_agree (Nat.le_refl (a.1.term i)) hl
  rcases hd.first_le with h1 | h1
  · have h0 : j = 0 := by omega
    rw [h0]
    exact agree_zero _ _
  · exact hcom.mono (by omega)

/-- Two logs that carry the same term at an index of the window agree up to it. -/
theorem agree_of_termAt_eq {t : ℕ} (h1 : 1 ≤ j) (hj : j ≤ (a.1.log i).length)
    (hj' : j ≤ (a.1.llog t).length)
    (ht : termAt LogEntry.term (a.1.log i) j = termAt LogEntry.term (a.1.llog t) j) :
    Agree (a.1.log i) (a.1.llog t) j :=
  (a.2.log_rooted i).agree (a.2.llog_rooted t) h1 hj hj' ht

/-- **A request that passes the check starts where the logs agree.** -/
theorem Node.logIsOk_sim (hd : Durable a.1 i n.log) (hr : AppendEntriesOk S a.1 src i r)
    (hterm : a.1.term i = r.term) :
    (S.abstraction i).Sim a (n.logIsOk r.prevLogIndex r.prevLogTerm)
      (fun b ok => b = a ∧
        (ok = true → Agree (a.1.log i) (a.1.llog (a.1.term i)) r.prevLogIndex))
      fun _ => False := by
  have hl : a.1.leader (a.1.term i) ≠ none := by
    rw [hterm, hr.leader_eq]
    exact Option.some_ne_none src
  have hlen : r.prevLogIndex ≤ (a.1.llog r.term).length :=
    (Nat.le_add_right _ _).trans hr.le_length
  rw [logIsOk]
  refine .ite (fun hlt => ?_) fun hge => .ite (fun hle => ?_) fun _ => ?_
  · exact sim_pure ⟨rfl, fun _ => hd.agree_of_lt_first hl hlt⟩
  · have hfirst : n.log.firstIndex ≤ r.prevLogIndex := Nat.not_lt.mp hge
    have h1 : 1 ≤ r.prevLogIndex := n.log.first_pos.trans hfirst
    have hlast : r.prevLogIndex ≤ (a.1.log i).length := by rwa [← hd.lastIndex_eq]
    rw [termOfLogEntryAt, hd.getTerm_eq hfirst hle]
    refine sim_pure ⟨rfl, fun hok => ?_⟩
    have hok := of_decide_eq_true hok
    rcases hr.prevLogTerm_eq with h0 | heq
    · -- a term of `0` is sent only where the sender did not know better, and never matches
      have hpos := a.2.termAt_pos (a.2.log_rooted i) h1 hlast
      exact absurd (hok.trans h0) (Nat.pos_iff_ne_zero.mp hpos)
    · rw [hterm]
      exact agree_of_termAt_eq h1 hlast hlen (hok.trans heq)
  · exact sim_pure ⟨rfl, fun hok => by simp at hok⟩

/-! ### The loop over the entries -/

/-- Once an entry lies above the log, the loop only collects. -/
theorem Node.mergeEntries_of_last_le (hes : ∀ j e, es[j]? = some e → e.index = k + j + 1)
    (hlast : l.lastIndex ≤ k) : mergeEntries c k es l = pure (l, es) := by
  induction es generalizing k with
  | nil => rfl
  | cons e es ih =>
    have hidx : e.index = k + 1 := hes 0 e rfl
    have hfirst := l.lastIndex_add_one
    have htail : ∀ j e, es[j]? = some e → e.index = k + 1 + j + 1 := fun j e he => by
      rw [hes (j + 1) e (by simpa using he)]
      omega
    rw [mergeEntries, Outcome.check, if_pos hidx, pure_bind, if_neg (by omega),
      if_neg (by omega), ih htail (by omega)]
    rfl

/-- An entry that was cut off in front, or whose term the log has, is passed over. -/
theorem Node.mergeEntries_skip (hidx : e.index = k + 1) (hlast : k < l.lastIndex)
    (hsame : ∀ f, l.getEntry (k + 1) = some f → f.term = e.term) :
    mergeEntries c k (e :: es) l = mergeEntries c (k + 1) es l := by
  rw [mergeEntries, Outcome.check, if_pos hidx, pure_bind]
  split
  · rfl
  · next hfirst =>
    obtain ⟨f, hf⟩ := l.exists_getEntry (j := k + 1) (by omega) hlast
    rw [if_pos (by omega), hidx, Log.getTerm_of_getEntry hf]
    change (pure f.term >>= _ : Act (Log × List LogEntry)) = _
    rw [pure_bind, if_pos (hsame f hf).symm]

/-- An entry that is in conflict cuts the log, and then the loop only collects. -/
theorem Node.mergeEntries_cut {f : LogEntry}
    (hes : ∀ j e', (e :: es)[j]? = some e' → e'.index = k + j + 1)
    (hf : l.getEntry (k + 1) = some f) (hne : f.term ≠ e.term) :
    mergeEntries c k (e :: es) l = (do
      Outcome.check (c < k + 1) .truncateCommitted
      Outcome.persist (l.truncateSuffix k)
      pure (l.truncateSuffix k, e :: es)) := by
  have hidx : e.index = k + 1 := hes 0 e rfl
  have hfirst := Log.first_le_of_getEntry hf
  have hlast := Log.last_ge_of_getEntry hf
  have htail : ∀ j e', es[j]? = some e' → e'.index = k + 1 + j + 1 := fun j e' he' => by
    rw [hes (j + 1) e' (by simpa using he')]
    omega
  have hcut := Log.lastIndex_truncateSuffix (l := l) (k := k) (by omega) (by omega)
  have hrest : mergeEntries c (k + 1) es (l.truncateSuffix k) =
      pure (l.truncateSuffix k, es) :=
    mergeEntries_of_last_le htail (by omega)
  rw [mergeEntries, Outcome.check, if_pos hidx, pure_bind, if_neg (by omega),
    if_pos (by omega), hidx, Log.getTerm_of_getEntry hf]
  change (pure f.term >>= _ : Act (Log × List LogEntry)) = _
  rw [pure_bind, if_neg (Ne.symm hne)]
  simp only [Nat.add_sub_cancel, hrest, pure_bind]

/-- What the loop over the entries leaves: the log agrees with the leader's up to `k`, and the
rest of the entries is what follows there. -/
structure Merged (a : S.Abstract) (i : ℕ) (upTo : ℕ) (b : S.Abstract) (l : Log)
    (rest : List LogEntry) (log : List LogEntry) (k : ℕ) : Prop where
  state_eq : b.1 = a.1.setLog i log
  durable : Durable b.1 i l
  agree : Agree log (a.1.llog (a.1.term i)) k
  length_eq : k + rest.length = upTo
  rest_eq : rest = [] ∨ log.length = k
  slice : Slice (a.1.llog (a.1.term i)) k rest

section

variable {a : S.Abstract} {l : Log} {c : ℕ} {es : List LogEntry}

theorem setLog_self (a : State ℕ LogEntry) (i : ℕ) : a.setLog i (a.log i) = a := by
  rw [State.setLog, Function.update_eq_self]

/-- **The loop keeps the agreement with the leader.** The induction is on the entries; the
invariant is that the logs agree up to the index reached. It ends at the first entry that is not
there yet, or that has to replace another one. -/
theorem Node.mergeEntries_sim {commitIndex : ℕ} (hd : Durable a.1 i l)
    (hl : a.1.leader (a.1.term i) = some c) (hc : c ≠ i) (hcom : commitIndex ≤ a.1.committed i)
    (hes : Slice (a.1.llog (a.1.term i)) k es) (hag : Agree (a.1.log i) (a.1.llog (a.1.term i)) k) :
    (S.abstraction i).Sim a (mergeEntries commitIndex k es l)
      (fun b r => ∃ log k', Merged a i (k + es.length) b r.1 r.2 log k') fun _ => False := by
  induction es generalizing k with
  | nil =>
    refine sim_pure ⟨a.1.log i, k, ?_, hd, hag, rfl, Or.inl rfl, Slice.nil _ _⟩
    exact (setLog_self a.1 i).symm
  | cons e es ih =>
    obtain ⟨hentry, hidx⟩ := hes.head
    have hlne : a.1.leader (a.1.term i) ≠ none := hl ▸ Option.some_ne_none c
    have hlast := hd.lastIndex_eq
    have hnext : k + (e :: es).length = k + 1 + es.length := by simp; omega
    rw [hnext]
    by_cases habove : l.lastIndex < e.index
    · -- the entry lies above the log: the log is what the leader has up to here
      rw [mergeEntries_of_last_le hes.index_eq (by omega)]
      have hlen := hag.le_left
      refine sim_pure ⟨a.1.log i, k, (setLog_self a.1 i).symm, hd, hag, ?_, ?_, hes⟩
      · simp; omega
      · exact Or.inr (by omega)
    have hlt : k < l.lastIndex := by omega
    have hllog : termAt LogEntry.term (a.1.llog (a.1.term i)) (k + 1) = e.term :=
      termAt_of_entryAt hentry
    by_cases hsame : ∀ f, l.getEntry (k + 1) = some f → f.term = e.term
    · rw [mergeEntries_skip hidx hlt hsame]
      refine ih hes.tail ?_
      rcases Nat.lt_or_ge (k + 1) l.firstIndex with hfirst | hfirst
      · -- the entry was cut off in front, so it had been committed
        exact hd.agree_of_lt_first hlne (by omega)
      · -- the same term at the same index: the logs agree up to here
        obtain ⟨f, hf⟩ := l.exists_getEntry hfirst hlt
        refine agree_of_termAt_eq (by omega) (by omega) (le_length_of_entryAt hentry).2 ?_
        rw [hllog, ← hsame f hf, termAt_of_entryAt (hd.getEntry_eq hfirst ▸ hf)]
    · obtain ⟨f, hf, hne⟩ : ∃ f, l.getEntry (k + 1) = some f ∧ f.term ≠ e.term := by
        simpa using hsame
      have hfirst := Log.first_le_of_getEntry hf
      -- a conflict: it lies above everything committed, and the log is cut before it
      have hdiff : entryAt (a.1.log i) (k + 1) ≠ entryAt (a.1.llog (a.1.term i)) (k + 1) := by
        rw [← hd.getEntry_eq hfirst, hf, hentry]
        exact fun heq => hne (by rw [Option.some.inj heq])
      have hcommit : commitIndex < k + 1 := by
        have := (a.2.agree_committed hl).le_of_entryAt_ne hdiff
        omega
      rw [mergeEntries_cut hes.index_eq hf hne]
      refine .bind (sim_check (Q := fun b _ => b = a) (fun _ => rfl)
        (absurd hcommit)) ?_
      rintro b - - rfl
      have hs : S.protocol.Step i b.1 (b.1.setLog i ((b.1.log i).take k)) := .cut hl hc hag hdiff
      have hdur : Durable (b.1.setLog i ((b.1.log i).take k)) i (l.truncateSuffix k) :=
        hd.truncateSuffix (by omega) (by omega)
      refine .advance (S.reach_after b hs) ?_
      refine .bind (sim_persist (Q := fun d _ => d = b.after hs) hdur rfl) ?_
      rintro d - - rfl
      refine sim_pure ⟨(b.1.log i).take k, k, rfl, hdur, hag.take_left (Nat.le_refl k),
        ?_, Or.inr ?_, hes⟩
      · simp; omega
      · rw [List.length_take, Nat.min_eq_left hag.le_left]

/-! ### Appending -/

theorem setLog_setLog (a : State ℕ LogEntry) (i : ℕ) (x y : List LogEntry) :
    (a.setLog i x).setLog i y = a.setLog i y := by
  simp only [State.setLog, Function.update_idem]

/-- A log that is all the leader's stays so when the leader's next entry is appended. -/
theorem isPrefix_append {L : List LogEntry} (h : Agree log L log.length)
    (he : entryAt L (log.length + 1) = some e) : log ++ [e] <+: L := by
  have happ : Agree (log ++ [e]) L log.length := h.append_left
  have hlast : entryAt (log ++ [e]) (log.length + 1) = some e := by simp
  have hag := happ.succ hlast he
  have hlen : (log ++ [e]).length = log.length + 1 := by simp
  rw [← hlen] at hag
  exact hag.isPrefix

/-- **Entries are appended one after the other**, each of them the leader's next one. -/
theorem appendAll_sim (hd : Durable a.1 i l) (hl : a.1.leader (a.1.term i) = some c) (hc : c ≠ i)
    (hag : Agree (a.1.log i) (a.1.llog (a.1.term i)) (a.1.log i).length)
    (hes : Slice (a.1.llog (a.1.term i)) (a.1.log i).length es) :
    (S.abstraction i).Sim a (appendAll l es)
      (fun b l' => b.1 = a.1.setLog i (a.1.log i ++ es) ∧ Durable b.1 i l' ∧
        Agree (a.1.log i ++ es) (a.1.llog (a.1.term i)) ((a.1.log i).length + es.length))
      fun _ => False := by
  induction es generalizing a l with
  | nil =>
    rw [List.append_nil]
    exact sim_pure ⟨(setLog_self a.1 i).symm, hd, hag⟩
  | cons e es ih =>
    obtain ⟨hentry, hidx⟩ := hes.head
    have hnext : e.index = l.lastIndex + 1 := by rw [hidx, hd.lastIndex_eq]
    have hp := isPrefix_append hag hentry
    have hs : S.protocol.Step i a.1 (a.1.setLog i (a.1.log i ++ [e])) := .extend hl hc hp
    rw [appendAll, dif_pos hnext]
    refine .advance (S.reach_after a hs) ?_
    refine .bind (sim_persist (Q := fun b _ => b = a.after hs)
      (hd.appendEntry hnext) rfl) ?_
    rintro b - - rfl
    have hlog : (a.after hs).1.log i = a.1.log i ++ [e] := State.setLog_log _ _ _
    have hlen : (a.1.log i ++ [e]).length = (a.1.log i).length + 1 := by simp
    refine (ih (a := a.after hs) (hd.appendEntry hnext) hl ?_ ?_).imp ?_
    · rw [hlog]
      exact agree_of_isPrefix hp (Nat.le_refl _)
    · rw [hlog, hlen]
      exact hes.tail
    · rintro b l' - ⟨hb, hdur, hag'⟩
      rw [hlog, List.append_assoc] at hb hag'
      refine ⟨hb.trans (setLog_setLog _ _ _ _), hdur, ?_⟩
      rw [hlen] at hag'
      rw [List.length_cons, show (a.1.log i).length + (es.length + 1) =
        (a.1.log i).length + 1 + es.length by omega]
      exact hag'

/-- `appendEntries` on what the loop has left: it is not refused. -/
theorem appendEntries_sim {b : S.Abstract} {upTo : ℕ} {rest : List LogEntry}
    (hl : a.1.leader (a.1.term i) = some c) (hc : c ≠ i) (hm : Merged a i upTo b l rest log k) :
    (S.abstraction i).Sim b (l.appendEntries rest)
      (fun d r => r.2 = true ∧ Durable d.1 i r.1 ∧ ∃ log', d.1 = a.1.setLog i log' ∧
        Agree log' (a.1.llog (a.1.term i)) upTo) fun _ => False := by
  have hlen := hm.length_eq
  cases rest with
  | nil =>
    have hk : k = upTo := by simpa using hlen
    subst hk
    exact sim_pure ⟨rfl, hm.durable, log, hm.state_eq, hm.agree⟩
  | cons e es =>
    obtain ⟨b, hb⟩ := b
    obtain rfl : b = a.1.setLog i log := hm.state_eq
    have hlog : (a.1.setLog i log).log i = log := State.setLog_log _ _ _
    obtain rfl : log.length = k := by
      rcases hm.rest_eq with hnil | hk
      · cases hnil
      · exact hk
    have hidx : e.index = l.lastIndex + 1 := by
      rw [hm.slice.head.2, hm.durable.lastIndex_eq, hlog]
    rw [Log.appendEntries, if_neg (not_not.mpr hidx)]
    refine .bind (appendAll_sim hm.durable hl hc (by rw [hlog]; exact hm.agree)
      (by rw [hlog]; exact hm.slice)) ?_
    rintro d l' - ⟨hd', hdur, hag⟩
    rw [hlog] at hd' hag
    refine sim_pure ⟨rfl, hdur, log ++ e :: es, hd'.trans (setLog_setLog _ _ _ _), ?_⟩
    rw [← hlen]
    exact hag

/-- **Afterwards the logs agree as far as the request reaches**, and the node has acknowledged
as much. -/
theorem Node.applyEntries_sim (hd : Describes S a.1 i n) (hf : n.Following)
    (hr : AppendEntriesOk S a.1 src i r) (hterm : a.1.term i = r.term)
    (hag : Agree (a.1.log i) (a.1.llog (a.1.term i)) r.prevLogIndex) :
    (S.abstraction i).Sim a (n.applyEntries r)
      (fun b m => Describes S b.1 i m ∧ m.Following ∧ m.selfId = n.selfId ∧
        b.1.term i = r.term ∧
        Agree (b.1.log i) (b.1.llog r.term) (r.prevLogIndex + r.entries.length) ∧
        r.prevLogIndex + r.entries.length ≤ b.1.ack r.term i)
      fun _ => False := by
  have hl : a.1.leader (a.1.term i) = some src := by
    rw [hterm]
    exact hr.leader_eq
  have hes : Slice (a.1.llog (a.1.term i)) r.prevLogIndex r.entries := by
    rw [hterm]
    exact hr.entries_eq
  rw [applyEntries]
  refine .bind (mergeEntries_sim hd.durable hl hr.ne hd.commit_le hes hag) ?_
  rintro b ⟨l, rest⟩ hab ⟨log, k, hm⟩
  refine .bind (appendEntries_sim hl hr.ne hm) ?_
  rintro ⟨d, hinv⟩ ⟨l', ok⟩ hbd ⟨hok, hdur, log', rfl, hag'⟩
  refine .bind (sim_check (Q := fun x _ => x = ⟨a.1.setLog i log', hinv⟩)
    (fun _ => rfl) (absurd hok)) ?_
  rintro x - - rfl
  -- the node acknowledges what it has received
  have hlog : (a.1.setLog i log').log i = log' := State.setLog_log _ _ _
  have hs : S.protocol.Step i (a.1.setLog i log')
      ((a.1.setLog i log').acknowledge i (r.prevLogIndex + r.entries.length)) := by
    refine .acknowledge (fun hnone => ?_) (by rw [hlog]; exact hag')
    rw [show (a.1.setLog i log').leader = a.1.leader from rfl] at hnone
    exact Option.some_ne_none src (hl.symm.trans hnone)
  have hreach := S.reach_after ⟨a.1.setLog i log', hinv⟩ hs
  have hg := S.grows_of_reach ((S.abstraction i).trans hab ((S.abstraction i).trans hbd hreach))
  refine .advance hreach (sim_pure ⟨?_, hf, rfl, hterm, ?_, ?_⟩)
  · exact .of_following hd.members { hdur with } hd.commit_le hd.role_ne hf hd.leaderId_eq
      fun o ho => (hd.outbox o ho).grows hg
  · rw [← hterm]
    change Agree ((a.1.setLog i log').log i) (a.1.llog (a.1.term i)) _
    rw [hlog]
    exact hag'
  · rw [← hterm]
    exact (Nat.le_max_right _ _).trans (State.acknowledge_ack (a.1.setLog i log') i _).ge

/-- Following the leader's commit index. -/
theorem Node.followCommit_sim (hd : Describes S a.1 i n) (hf : n.Following)
    (hr : AppendEntriesOk S a.1 src i r) (hterm : a.1.term i = r.term)
    (hag : Agree (a.1.log i) (a.1.llog r.term) (r.prevLogIndex + r.entries.length)) :
    (S.abstraction i).Sim a (n.followCommit r)
      (fun b m => Describes S b.1 i m ∧ m.selfId = n.selfId ∧ a.1.ack r.term i ≤ b.1.ack r.term i)
      fun _ => False := by
  rw [followCommit]
  refine .ite (fun hlt => ?_) fun _ => sim_pure ⟨hd, rfl, Nat.le_refl _⟩
  have hle : r.commitIndex ≤ n.log.lastIndex := by
    rw [hd.durable.lastIndex_eq]
    exact hr.commit_le.trans hag.le_left
  refine .bind (sim_check (Q := fun b _ => b = a) (fun _ => rfl) (absurd hle)) ?_
  rintro b - - rfl
  rcases hr.committed with h0 | ⟨t, j, ht, hcom, hj, hag'⟩
  · omega
  have hs : S.protocol.Step i b.1 (b.1.commit i r.commitIndex) :=
    .commit (hterm ▸ ht) hcom hj ((hag.mono hr.commit_le).trans hag')
  have hg := S.grows_of_reach (S.reach_after b hs)
  refine .advance (S.reach_after b hs) (sim_pure ⟨?_, rfl, Nat.le_refl _⟩)
  refine .of_following hd.members { hd.durable with first_le := ?_ } ?_ hd.role_ne hf
    hd.leaderId_eq fun o ho => (hd.outbox o ho).grows hg
  · rcases hd.durable.first_le with h1 | h1
    · exact Or.inl h1
    · exact Or.inr (h1.trans (hg.committed_le i))
  · exact (Nat.le_max_right _ _).trans (State.commit_committed b.1 i _).ge

/-! ### The handler -/

/-- What a node says in answer to an AE request is true. -/
def AnswerOk (a : State ℕ LogEntry) (i : ℕ) (r : AppendEntriesResponse) : Prop :=
  r.id = i ∧ (r.success = true → r.matchIndex ≤ a.ack r.savedTerm i)

/-- Stepping down for a leader: afterwards the node follows in the term of the request. -/
theorem Node.stepDownForLeader_sim (clk : Clock) (hd : Describes S a.1 i n)
    (hr : AppendEntriesOk S a.1 src i r) (hle : a.1.term i ≤ r.term) :
    (S.abstraction i).Sim a (n.stepDownForLeader clk r)
      (fun b m => Describes S b.1 i m ∧ m.Following ∧ b.1.term i = r.term) fun _ => False := by
  have hcur := hd.durable.term_eq
  rw [stepDownForLeader]
  refine .ite (fun hcond => ?_) fun hcond => sim_pure ?_
  · refine (stepDown_sim hd clk ?_).imp fun b m _ h => ⟨h.describes, h.following, h.term_eq⟩
    rw [hcur] at hcond
    rcases hcond with hlt | ⟨heq, hrole⟩
    · exact Or.inl hlt
    · exact Or.inr ⟨heq.symm, hrole⟩
  · rw [hcur] at hcond
    have hterm : a.1.term i = r.term := by omega
    have hstand : ¬ (n.role = .candidate ∨ n.role = .preCandidate) := fun h =>
      hcond (Or.inr ⟨hterm.symm, h⟩)
    refine ⟨hd, ⟨fun hlead => ?_, fun h => hstand (Or.inl h), fun h => hstand (Or.inr h)⟩, hterm⟩
    -- a leader would be the sender itself
    have hown := (hd.leader hlead).1
    rw [hterm, hr.leader_eq] at hown
    exact hr.ne (Option.some.inj hown)

/-- The sender is the leader the node knows of, or the first one it hears of. -/
theorem Node.hail_sim (hd : Describes S a.1 i n) (hf : n.Following)
    (hr : AppendEntriesOk S a.1 src i r) (hterm : a.1.term i = r.term) :
    (S.abstraction i).Sim a (n.hail r.leaderId)
      (fun b m => b = a ∧ Describes S a.1 i m ∧ m.Following ∧ m.selfId = n.selfId)
      fun _ => False := by
  rw [hail]
  refine .ite (fun _ => sim_pure ⟨rfl, ?_, hf, rfl⟩) fun hne => ?_
  · refine .of_following hd.members hd.durable hd.commit_le hd.role_ne hf (fun _ => ?_) hd.outbox
    rw [hterm, hr.leader_eq, hr.leaderId_eq]
  · have heq : n.leaderId = r.leaderId := by
      have h := hd.leaderId_eq hne
      rw [hterm, hr.leader_eq] at h
      rw [hr.leaderId_eq]
      exact (Option.some.inj h).symm
    refine .bind (sim_check (Q := fun b _ => b = a) (fun _ => rfl) (absurd heq)) ?_
    rintro b - - rfl
    exact sim_pure ⟨rfl, hd, hf, rfl⟩

/-- Accepting or rejecting a request of the leader the node follows. -/
theorem Node.acceptOrReject_sim (clk : Clock) (hd : Describes S a.1 i n) (hf : n.Following)
    (hr : AppendEntriesOk S a.1 src i r) (hterm : a.1.term i = r.term) :
    (S.abstraction i).Sim a (n.acceptOrReject clk r)
      (fun b m => Describes S b.1 i m.1 ∧ AnswerOk b.1 i m.2) fun _ => False := by
  have hself : n.selfId = i := hd.members.selfId_eq
  rw [acceptOrReject]
  refine .bind (logIsOk_sim hd.durable hr hterm) ?_
  rintro b ok - ⟨rfl, hok⟩
  refine .ite (fun _ => sim_pure ⟨hd, hself, fun h => by cases h⟩) fun hacc => ?_
  have hag := hok (by simpa using hacc)
  refine .bind (applyEntries_sim hd hf hr hterm hag) ?_
  rintro c m hbc ⟨hdm, hfm, hidm, htermc, hagc, hackc⟩
  refine .bind (followCommit_sim hdm hfm (hr.grows (S.grows_of_reach hbc)) htermc hagc) ?_
  rintro d m' - ⟨hdm', hidm', hack⟩
  refine sim_pure ⟨hdm'.updateElectionTimePoint clk, ?_, fun _ => hackc.trans hack⟩
  exact (hidm'.trans hidm).trans hself

/-- **A follower never aborts on a genuine request**, and is described afterwards. -/
theorem Node.handleAppendEntriesRequest_sim (clk : Clock) (hd : Describes S a.1 i n)
    (hr : AppendEntriesOk S a.1 src i r) :
    (S.abstraction i).Sim a (n.handleAppendEntriesRequest clk r)
      (fun b m => Describes S b.1 i m.1 ∧ ∀ x, m.2 = some x → AnswerOk b.1 i x)
      fun _ => False := by
  have hself : n.selfId = i := hd.members.selfId_eq
  have hmem : r.leaderId ∈ S.info.nodes.keys := hr.leaderId_eq ▸ hr.src_mem
  rw [handleAppendEntriesRequest, S.roleKey_eq hmem, hd.members.isVoter_eq hmem, pure_bind]
  refine .ite (fun _ => sim_pure ⟨hd, by simp⟩) fun _ =>
    .ite (fun _ => ?_) fun hge => .ite (fun hsync => absurd hsync hd.role_ne) fun _ => ?_
  · refine sim_pure ⟨hd, ?_⟩
    rintro x hx
    cases hx
    exact ⟨hself, fun h => by cases h⟩
  · have hle : a.1.term i ≤ r.term := by
      rw [← hd.durable.term_eq]
      exact Nat.not_lt.mp hge
    refine .bind (stepDownForLeader_sim clk hd hr hle) ?_
    rintro b m hab ⟨hdm, hfm, hterm⟩
    have hrb := hr.grows (S.grows_of_reach hab)
    refine .bind (hail_sim (hdm.updateElectionTimePoint clk) hfm hrb hterm) ?_
    rintro c m' - ⟨rfl, hdm', hfm', -⟩
    refine .bind (acceptOrReject_sim clk hdm' hfm' hrb hterm) ?_
    rintro d ⟨m'', resp⟩ - ⟨hd'', hans⟩
    refine sim_pure ⟨hd'', ?_⟩
    rintro x hx
    cases hx
    exact hans

end

end Gringofts
