import Gringofts.Raft.Provenance
import Gringofts.Raft.Safety

/-!
# The loop that answers clients

`RaftReplyLoop` answers a client when the fate of its entry is known. A thread of the loop waits in
`waitTillCommittedOrQuit`: it reads the term, the last index and the commit index of its node from
outside the thread that changes them, one after the other, and gives up when the node is in a later
term and its log has become shorter than the index waited for.

A log that has become shorter says that a later leader has overwritten the entry at this node. It
does not say that the later leader has won for good. Another node may still hold the entry, be
elected in a term later still, and commit it (`not_leader_reply_then_committed`).

## What a thread can read

A node handles an event in several writes. `Cluster.Visible` are the logs that a thread may find:
the one the node has, and those it has in the course of handling an event.

## Main definitions

* `Node.waitTillCommittedOrQuit` — the next step of a thread that waits
* `Waits` — the runs of a cluster in which a thread waits
* `Cluster.Counts`, `Cluster.Superseded` — an entry, or one that excludes it, has been counted

## Main results

* `not_leader_reply_final`
-/

namespace Gringofts

open Replication Scenario

variable {S : Setup} {i j u v k t t' index term : ℕ} {c d : Cluster} {a : S.Abstract} {n : Node}
  {l : Log} {e : LogEntry}

/-! ## Committed entries -/

/-- Node `v` has counted the entry with this index and this term as committed, and retains it. -/
def Cluster.Counts (c : Cluster) (v index term : ℕ) : Prop :=
  index ≤ (c.nodes v).commitIndex ∧
    ∃ e, (c.nodes v).log.getEntry index = some e ∧ e.term = term

/-- **The entry cannot be committed any more**: an entry of a later term has been counted as
committed, at its index or below. -/
def Cluster.Superseded (S : Setup) (c : Cluster) (index term : ℕ) : Prop :=
  ∃ v ∈ S.info.nodes.keys, ∃ j t, j ≤ index ∧ term < t ∧ c.Counts v j t

/-- Terms do not fall along a log. -/
theorem Replication.Protocol.Inv.term_le {ι ε : Type} {P : Protocol ι ε} {s : State ι ε}
    (h : P.Inv s) {l : List ε} (hr : P.Rooted s l) {e f : ε} (hij : i ≤ j)
    (he : entryAt l i = some e) (hf : entryAt l j = some f) : P.term e ≤ P.term f := by
  obtain ⟨hlead, hag⟩ := hr j (le_length_of_entryAt hf).1 (le_length_of_entryAt hf).2
  rw [hag.entryAt_eq hij, termAt_of_entryAt hf] at he
  rw [termAt_of_entryAt hf] at hlead
  exact h.llog_terms hlead (entryAt_mem he)

/-- What has been counted, at two moments of a run and by any two nodes, is part of one log. -/
theorem RunsTo.exists_common (hrun : RunsTo S c d) (ha : Refines S c a.1)
    (hu : u ∈ S.info.nodes.keys) (hv : v ∈ S.info.nodes.keys) (hj : c.Counts u j t)
    (hk : d.Counts v k t') :
    ∃ (b : S.Abstract) (w : ℕ) (e f : LogEntry), entryAt (b.1.llog w) j = some e ∧ e.term = t ∧
      entryAt (b.1.llog w) k = some f ∧ f.term = t' := by
  obtain ⟨hjle, e, he, het⟩ := hj
  obtain ⟨hkle, f, hf, hft⟩ := hk
  obtain ⟨w, m, -, hcw, hjm, hew⟩ := ha.exists_committed hu hjle he
  obtain ⟨b, hg, hb⟩ := hrun.refines ha
  obtain ⟨w', m', -, hcw', hkm', hfw'⟩ := hb.exists_committed hv hkle hf
  have hew := Grows.entryAt_llog hg hew
  have hcw := hg.committed hcw
  rcases Nat.le_total w w' with hle | hle
  · refine ⟨b, w', e, f, ?_, het, hfw', hft⟩
    rw [(b.2.committed_agree_llog hcw hle hcw'.1).entryAt_eq hjm, hew]
  · refine ⟨b, w, e, f, hew, het, ?_, hft⟩
    rw [(b.2.committed_agree_llog hcw' hle hcw.1).entryAt_eq hkm', hfw']

/-- Of two indices that have been counted, the lower one does not have the later term. -/
theorem RunsTo.term_le (hc : Reachable S c) (hrun : RunsTo S c d) (hu : u ∈ S.info.nodes.keys)
    (hv : v ∈ S.info.nodes.keys) (hj : c.Counts u j t) (hk : d.Counts v k t') (hle : j ≤ k) :
    t ≤ t' := by
  obtain ⟨a, ha⟩ := hc.refines
  obtain ⟨b, w, e, f, he, rfl, hf, rfl⟩ := hrun.exists_common ha hu hv hj hk
  exact b.2.term_le (b.2.llog_rooted w) hle he hf

/-! ## Waiting -/

/-- A log of node `i` that a thread finds: the one the node has, or the one after so many writes in
the course of handling an input. -/
def Cluster.glimpse (S : Setup) (c : Cluster) (i : ℕ) : Option (Input × ℕ) → Option Log
  | none => some (c.nodes i).log
  | some (inp, k) =>
    (c.event? i inp).bind fun x => ((c.nodes i).handle (S.config i) x.1).writes[k]?

/-- A log of node `i` that a thread can find. -/
def Cluster.Visible (S : Setup) (c : Cluster) (i : ℕ) (l : Log) : Prop :=
  ∃ g, c.glimpse S i g = some l

/-- `RaftCore::getEntry`, which finds the log `l`: only committed entries may be asked for. -/
def Node.readEntry (n : Node) (l : Log) (index : ℕ) : Option LogEntry :=
  if n.commitIndex < index then none else l.getEntry index

theorem Node.getEntry_of_readEntry (h : n.readEntry l index = some e) :
    l.getEntry index = some e := by
  rw [readEntry] at h
  split at h
  · cases h
  · exact h

/-- Where a thread of the loop is. -/
inductive ReplyPhase
  /-- At the top of the loop. -/
  | begin
  /-- The term was read. -/
  | term1 (term1 : ℕ)
  /-- The last index was read. -/
  | lastLogIndex (term1 lastLogIndex : ℕ)
  /-- The term was the same when it was read again, and there is no reason to quit. -/
  | stable
  /-- The commit index has reached the index. -/
  | reached
  /-- `false` was returned, the log being too short. -/
  | quit
  /-- The entry at the index was read, and the comparison of its term was returned. -/
  | compared (committed : Bool)
  deriving DecidableEq

/-- What has been returned. -/
def ReplyPhase.result : ReplyPhase → Option Bool
  | .quit => some false
  | .compared committed => some committed
  | _ => none

/-- The next step of `waitTillCommittedOrQuit` at a node whose log is found to be `l`. There is none
after the return, or where an assertion fails. -/
def Node.waitTillCommittedOrQuit (n : Node) (l : Log) (index term : ℕ) :
    ReplyPhase → Option ReplyPhase
  | .begin => some (.term1 l.currentTerm)
  | .term1 term1 => some (.lastLogIndex term1 l.lastIndex)
  | .lastLogIndex term1 lastLogIndex =>
    if term1 ≠ l.currentTerm then some .begin
    else if term1 < term then none
    else if lastLogIndex < index ∧ term < term1 then some .quit
    else some .stable
  | .stable => some (if n.commitIndex < index then .begin else .reached)
  | .reached => (n.readEntry l index).map fun e => .compared (e.term = term)
  | .quit => none
  | .compared _ => none

/-- **What one step tells.** A thread gets past the commit index only if it has read one that is
high enough, and what it compares is an entry that it has read. -/
theorem Node.waitTillCommittedOrQuit_spec {p q : ReplyPhase}
    (hs : n.waitTillCommittedOrQuit l index term p = some q) :
    (q = .reached → index ≤ n.commitIndex) ∧ ∀ committed, q = .compared committed →
      p = .reached ∧ ∃ e, l.getEntry index = some e ∧ committed = decide (e.term = term) := by
  cases p with
  | begin =>
    cases hs
    exact ⟨nofun, nofun⟩
  | term1 t =>
    cases hs
    exact ⟨nofun, nofun⟩
  | lastLogIndex t last =>
    rw [waitTillCommittedOrQuit] at hs
    split_ifs at hs <;> cases hs <;> exact ⟨nofun, nofun⟩
  | stable =>
    rw [waitTillCommittedOrQuit] at hs
    split_ifs at hs with hlt
    · cases hs
      exact ⟨nofun, nofun⟩
    · cases hs
      exact ⟨fun _ => Nat.not_lt.mp hlt, nofun⟩
  | reached =>
    obtain ⟨e, he, rfl⟩ := Option.map_eq_some_iff.mp hs
    refine ⟨nofun, fun committed heq => ⟨rfl, e, getEntry_of_readEntry he, ?_⟩⟩
    exact (ReplyPhase.compared.inj heq).symm
  | quit => cases hs
  | compared committed => cases hs

/-- **The runs in which node `i` waits** for an entry of a term in which it was leader. The nodes
take steps in any order. The thread is gone when its node stops. -/
inductive Waits (S : Setup) (i index term : ℕ) : Cluster → ReplyPhase → Prop
  | pushTask {c d : Cluster} (hc : Reachable S c) (hrole : (c.nodes i).role = .leader)
      (hterm : (c.nodes i).log.currentTerm = term) (hrun : RunsTo S c d) :
      Waits S i index term d .begin
  | step {c d : Cluster} {p : ReplyPhase} {act : Action} (h : Waits S i index term c p)
      (hact : i = act.node → act.isCrash = false)
      (hs : c.step S act = some d) : Waits S i index term d p
  | wait {c : Cluster} {p q : ReplyPhase} {l : Log} (h : Waits S i index term c p)
      (hl : c.Visible S i l) (hs : (c.nodes i).waitTillCommittedOrQuit l index term p = some q) :
      Waits S i index term c q

namespace Waits

variable {i index term : ℕ} {c : Cluster} {p : ReplyPhase}

/-- In a later term and with a log that is too short, the thread quits. -/
theorem quit (h : Waits S i index term c .begin) (hterm : term < (c.nodes i).log.currentTerm)
    (hlast : (c.nodes i).log.lastIndex < index) : Waits S i index term c .quit := by
  have hread := (h.wait ⟨none, rfl⟩ rfl).wait ⟨none, rfl⟩ rfl
  refine hread.wait ⟨none, rfl⟩ ?_
  rw [Node.waitTillCommittedOrQuit, if_neg (not_not.mpr rfl), if_neg (Nat.not_lt.mpr hterm.le),
    if_pos ⟨hlast, hterm⟩]

theorem reachable (h : Waits S i index term c p) : Reachable S c := by
  induction h with
  | pushTask hc _ _ hrun => exact hc.trans hrun
  | step _ _ hs ih => exact .tail ih hs
  | wait _ _ _ ih => exact ih

end Waits

/-- Whatever log a thread finds, the protocol can come to it. -/
theorem Refines.visible (h : Refines S c a.1) (hi : i ∈ S.info.nodes.keys) (hl : c.Visible S i l) :
    ∃ b : S.Abstract, (S.abstraction i).reach a b ∧ Durable b.1 i l := by
  obtain ⟨g, hg⟩ := hl
  cases g with
  | none =>
    rw [← Option.some.inj hg]
    exact ⟨a, .refl _, (h.nodes i hi).durable⟩
  | some x =>
    obtain ⟨⟨ev, origin⟩, hev, hl⟩ := Option.bind_eq_some_iff.mp hg
    exact (Cluster.handle_sim h hi hev).1 l (List.mem_of_getElem? hl)

/-- What the state of the protocol says about a thread that has got past the commit index. -/
def ReplyPhase.Knows (a : State ℕ LogEntry) (i index term : ℕ) : ReplyPhase → Prop
  | .reached => index ≤ a.committed i
  | .compared committed => index ≤ a.committed i ∧
    ∃ e, entryAt (a.log i) index = some e ∧ committed = decide (e.term = term)
  | _ => True

theorem ReplyPhase.Knows.grows {a b : State ℕ LogEntry} {p : ReplyPhase}
    (h : p.Knows a i index term) (hg : Grows a b) : p.Knows b i index term := by
  cases p with
  | reached => exact h.trans (hg.committed_le i)
  | compared committed =>
    obtain ⟨hle, e, he, hc⟩ := h
    refine ⟨hle.trans (hg.committed_le i), e, ?_, hc⟩
    rw [(hg.committed_log i).entryAt_eq hle, he]
  | _ => trivial

/-- **A thread that got past the commit index** knows of a committed entry. -/
theorem Waits.knows {p : ReplyPhase} (h : Waits S i index term c p) (hi : i ∈ S.info.nodes.keys) :
    ∃ a : S.Abstract, Refines S c a.1 ∧ p.Knows a.1 i index term := by
  induction h with
  | pushTask hc _ _ hrun =>
    obtain ⟨a, ha⟩ := Reachable.refines (RunsTo.trans hc hrun)
    exact ⟨a, ha, trivial⟩
  | step _ _ hs ih =>
    obtain ⟨a, ha, hp⟩ := ih
    obtain ⟨j, b, hab, hb⟩ := Cluster.step_refines ha hs
    exact ⟨b, hb, hp.grows (S.grows_of_reach hab)⟩
  | @wait c p q l _ hl hs ih =>
    obtain ⟨a, ha, hp⟩ := ih
    refine ⟨a, ha, ?_⟩
    obtain ⟨hreached, hcompared⟩ := Node.waitTillCommittedOrQuit_spec hs
    cases q with
    | reached => exact (hreached rfl).trans (ha.nodes i hi).commit_le
    | compared committed =>
      obtain ⟨rfl, e, he, hc⟩ := hcompared committed rfl
      obtain ⟨b, hab, hb⟩ := ha.visible hi hl
      refine ⟨hp, e, ?_, hc⟩
      -- the entry is committed, so it is the same in every log that the thread can find
      rw [← ((S.grows_of_reach hab).committed_log i).entryAt_eq hp]
      exact hb.entryAt_of_getEntry he
    | _ => trivial

/-- An entry that was found to have another term excludes the one waited for. -/
theorem Refines.term_of_counts (ha : Refines S c a.1) (hv : v ∈ S.info.nodes.keys)
    (hle : index ≤ a.1.committed i) (he : entryAt (a.1.log i) index = some e) (hrun : RunsTo S c d)
    (hd : d.Counts v index term) : e.term = term := by
  obtain ⟨b, hg, hb⟩ := hrun.refines ha
  obtain ⟨hdle, f, hf, rfl⟩ := hd
  have hf' := (hb.nodes v hv).durable.entryAt_of_getEntry hf
  have hag := b.2.committed_agree_committed i v
  rw [← hag.entryAt_eq (Nat.le_min.mpr ⟨hle.trans (hg.committed_le i),
    hdle.trans (hb.nodes v hv).commit_le⟩), (hg.committed_log i).entryAt_eq hle, he] at hf'
  rw [Option.some.inj hf']

/-- **A negative answer is final**, provided that a thread that quits because of a short log does so
when an entry of a later term has been counted as committed at the index or below: no node counts
the entry waited for as committed, then or later. -/
theorem not_leader_reply_final {i index term : ℕ} {c : Cluster} {p : ReplyPhase}
    (hi : i ∈ S.info.nodes.keys) (h : Waits S i index term c p) (hp : p.result = some false)
    (hquit : p = .quit → c.Superseded S index term) :
    ∀ d, RunsTo S c d → ∀ v ∈ S.info.nodes.keys, ¬ d.Counts v index term := by
  intro d hd v hv hcounts
  cases p with
  | quit =>
    obtain ⟨u, hu, j, t, hj, ht, hcount⟩ := hquit rfl
    have hle := hd.term_le h.reachable hu hv hcount hcounts hj
    omega
  | compared committed =>
    cases Option.some.inj hp
    obtain ⟨a, ha, hle, e, he, hne⟩ := h.knows hi
    exact of_decide_eq_false hne.symm (ha.term_of_counts hv hle he hd hcounts)
  | _ => cases hp

/-! ### Runs -/

namespace Scenario

/-- Node `1` of three voters wins term `1` and appends two entries. -/
def unreplicated : List Action :=
  stand 1 10 ++ [deliver 2 0 12, deliver 1 2 13, own 1 (.becomeLeader ⟨14, 1⟩),
    own 1 (.clientRequests [⟨⟨1, 2, false, 0, [], 0, none⟩, none⟩])]

/-- Node `3` wins term `2` with the vote of node `2`, and commits its first entry with the help of
node `1`. -/
def superseded : List Action :=
  own 3 (.electionTimeout ⟨3000000, 1⟩) :: stand 3 3000002 ++
  [deliver 2 4 3000004, deliver 3 5 3000005, own 3 (.becomeLeader ⟨3000006, 1⟩),
    replicate 3 3000007, deliver 1 6 3000008, deliver 3 8 3000009, replicate 3 5000000,
    deliver 1 9 5000001, deliver 3 10 5000002, own 3 .advanceCommitIndex]

/-- Five voters. -/
def fiveVoters : Setup :=
  setup ⟨[(1, ⟨"a", 1, .voter⟩), (2, ⟨"b", 1, .voter⟩), (3, ⟨"c", 1, .voter⟩),
    (4, ⟨"d", 1, .voter⟩), (5, ⟨"e", 1, .voter⟩)], by decide⟩ (by decide) (by decide)

/-- Node `1` wins term `1` with the votes of nodes `2` and `4` and appends two entries. -/
def appended : List Action :=
  stand 1 10 ++ [deliver 2 0 12, deliver 4 2 12, deliver 1 4 13, deliver 1 5 13,
    own 1 (.becomeLeader ⟨14, 1⟩),
    own 1 (.clientRequests [⟨⟨1, 2, false, 0, [], 0, none⟩, none⟩])]

/-- Its entries come to node `2` only. Node `3` wins term `2` with the votes of nodes `4` and `5`,
and overwrites them at node `1`. -/
def shortened : List Action :=
  [replicate 1 15, deliver 2 6 16, deliver 1 10 17, replicate 1 2000000, deliver 2 11 2000001] ++
  own 3 (.electionTimeout ⟨3000000, 1⟩) :: stand 3 3000002 ++
  [deliver 4 15 3000004, deliver 5 16 3000004, deliver 3 17 3000005, deliver 3 18 3000005,
    own 3 (.becomeLeader ⟨3000006, 1⟩), replicate 3 3000007, deliver 1 19 3000008,
    deliver 3 23 3000009, replicate 3 5000000, deliver 1 24 5000001]

/-- Node `2` wins term `3` with the votes of nodes `4` and `5`, and commits its log with their
help. -/
def revived : List Action :=
  own 2 (.electionTimeout ⟨6000000, 1⟩) :: stand 2 6000002 ++
  [deliver 4 28 6000004, deliver 5 29 6000004, deliver 2 30 6000005, deliver 2 31 6000005,
    own 2 (.becomeLeader ⟨6000006, 1⟩), replicate 2 6000007, deliver 4 34 6000008,
    deliver 5 35 6000008, deliver 2 36 6000009, deliver 2 37 6000009, replicate 2 8000000,
    deliver 4 38 8000001, deliver 5 39 8000001, deliver 2 40 8000002, deliver 2 41 8000002,
    replicate 2 10000000, deliver 4 42 10000001, deliver 5 43 10000001, deliver 2 44 10000002,
    deliver 2 45 10000002, own 2 .advanceCommitIndex]

end Scenario

/-- Node `1` waits for the entry at index `2`; node `3` has committed another entry at index `1`. -/
theorem not_leader_reply_final_superseded :
    ∃ c, Waits threeVoters 1 2 1 c .quit ∧
      c.Superseded threeVoters 2 1 ∧
      ∀ d, RunsTo threeVoters c d → ∀ v ∈ threeVoters.info.nodes.keys,
        ¬ d.Counts v 2 1 := by
  obtain ⟨b, hb, hp⟩ := exists_reachable threeVoters unreplicated
    (p := fun b => (b.nodes 1).role = .leader ∧ (b.nodes 1).log.currentTerm = 1 ∧
      (b.run threeVoters superseded).any fun c =>
        1 < (c.nodes 1).log.currentTerm ∧ (c.nodes 1).log.lastIndex < 2 ∧
        1 ≤ (c.nodes 3).commitIndex ∧
        (c.nodes 3).log.getEntry 1 = some ⟨2, 1, true, 3000006, [], 0, none⟩) (by decide +kernel)
  obtain ⟨hrole, hterm, hrun⟩ := of_decide_eq_true hp
  obtain ⟨c, hc, hq⟩ := (Option.any_eq_true _ _).mp hrun
  obtain ⟨hlater, hshort, hcommit, hentry⟩ := of_decide_eq_true hq
  have hwaits : Waits threeVoters 1 2 1 c .quit :=
    (Waits.pushTask hb hrole hterm (runsTo_of_run hc)).quit hlater hshort
  have hsuper : c.Superseded threeVoters 2 1 :=
    ⟨3, by decide, 1, 2, by decide, by decide, hcommit, _, hentry, rfl⟩
  exact ⟨c, hwaits, hsuper,
    not_leader_reply_final (by decide) hwaits rfl fun _ => hsuper⟩

/-- **A negative answer that is not final.** Node `1` is leader of term `1` and waits for its entry
at index `2`. It finds its log overwritten by the leader of term `2` and quits. But node `2` still
holds the entry, wins term `3` and commits it. -/
theorem not_leader_reply_then_committed :
    ∃ c d p, Waits fiveVoters 1 2 1 c p ∧ p.result = some false ∧
      RunsTo fiveVoters c d ∧ 2 ∈ fiveVoters.info.nodes.keys ∧
      d.Counts 2 2 1 := by
  obtain ⟨b, hb, hp⟩ := exists_reachable fiveVoters appended
    (p := fun b => (b.nodes 1).role = .leader ∧ (b.nodes 1).log.currentTerm = 1 ∧
      (b.run fiveVoters shortened).any fun c =>
        1 < (c.nodes 1).log.currentTerm ∧ (c.nodes 1).log.lastIndex < 2 ∧
        (c.run fiveVoters revived).any fun d => 2 ≤ (d.nodes 2).commitIndex ∧
          (d.nodes 2).log.getEntry 2 = some ⟨1, 2, false, 0, [], 0, none⟩) (by decide +kernel)
  obtain ⟨hrole, hterm, hrun⟩ := of_decide_eq_true hp
  obtain ⟨c, hc, hq⟩ := (Option.any_eq_true _ _).mp hrun
  obtain ⟨hlater, hshort, hrest⟩ := of_decide_eq_true hq
  obtain ⟨d, hd, hr⟩ := (Option.any_eq_true _ _).mp hrest
  obtain ⟨hcommit, hentry⟩ := of_decide_eq_true hr
  have hwaits : Waits fiveVoters 1 2 1 c .begin :=
    .pushTask hb hrole hterm (runsTo_of_run hc)
  exact ⟨c, d, .quit, hwaits.quit hlater hshort, rfl, runsTo_of_run hd, by decide, hcommit, _,
    hentry, rfl⟩

end Gringofts
