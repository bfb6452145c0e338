import Gringofts.Lib.Replication.Preservation
import Gringofts.Lib.Simulation
import Gringofts.Raft.Counting

/-!
# How the abstract protocol describes a cluster

A node of the cluster keeps a window of its log; the protocol knows the whole log. What was cut
off in front is committed, and that is all the relation has to say about it: `Durable.first_le`
is why a follower may accept a request that starts below its window without looking.

Messages are described by the history only, never by the present state of the node that sent
them. Since the history only grows, a message that was described once is described forever, no
matter how late it arrives.

## Main definitions

* `Durable` — the protocol describes what is on disk
* `Describes` — the protocol describes a node
* `MessageOk` — the protocol describes a message
* `Setup.abstraction` — the steps of one node, as an abstraction to simulate in
-/

namespace Gringofts

open Replication

variable {j src dst i : ℕ} {b : State ℕ LogEntry}

/-- The states of the abstract protocol that satisfy its invariant. -/
abbrev Setup.Abstract (S : Setup) := { a : State ℕ LogEntry // S.protocol.Inv a }

/-! ## What is on disk -/

/-- The abstract state describes a durable log of node `i`. -/
structure Durable (a : State ℕ LogEntry) (i : ℕ) (l : Log) : Prop where
  term_eq : l.currentTerm = a.term i
  vote_eq : a.vote i = if l.voteFor = 0 then none else some l.voteFor
  /-- The window is what is left of the whole log. -/
  entries_eq : l.entries = (a.log i).drop (l.firstIndex - 1)
  first_sub_le : l.firstIndex - 1 ≤ (a.log i).length
  /-- Only what was committed has been cut off. -/
  first_le : l.firstIndex = 1 ∨ l.firstIndex ≤ a.committed i

namespace Durable

variable {S : Setup} {a : State ℕ LogEntry} {i : ℕ} {l : Log} (h : Durable a i l)
include h

theorem lastIndex_eq : l.lastIndex = (a.log i).length := by
  have h1 := l.lastIndex_add_one
  have h2 := l.first_pos
  have h3 := h.first_sub_le
  rw [h.entries_eq, List.length_drop] at h1
  omega

theorem getEntry_eq (hj : l.firstIndex ≤ j) : l.getEntry j = entryAt (a.log i) j := by
  have h1 := l.first_pos
  rw [Log.getEntry, if_pos hj, h.entries_eq, List.getElem?_drop]
  obtain ⟨k, rfl⟩ := Nat.exists_eq_add_of_le' (h1.trans hj)
  rw [entryAt_succ]
  congr 1
  omega

theorem getTerm_eq (hj : l.firstIndex ≤ j) (hlast : j ≤ l.lastIndex) :
    l.getTerm j = some (termAt LogEntry.term (a.log i) j) := by
  have h1 := l.first_pos
  rw [h.lastIndex_eq] at hlast
  obtain ⟨e, he⟩ := exists_entryAt (h1.trans hj) hlast
  rw [Log.getTerm, if_neg (by omega), h.getEntry_eq hj, he, Option.map_some,
    termAt_of_entryAt he]

/-- A window that has lost its front is not empty. -/
theorem first_le_last (ha : S.protocol.Inv a) : l.firstIndex = 1 ∨ l.firstIndex ≤ l.lastIndex := by
  rcases h.first_le with h1 | h1
  · exact Or.inl h1
  · rw [h.lastIndex_eq]
    exact Or.inr (h1.trans (ha.committed_le i))

/-- The last term is the real one, also for an empty window. -/
theorem getTerm_last (ha : S.protocol.Inv a) :
    l.getTerm l.lastIndex = some (termAt LogEntry.term (a.log i) (a.log i).length) := by
  have hlast := h.lastIndex_eq
  rcases Nat.lt_or_ge l.lastIndex l.firstIndex with hlt | hle
  · have h1 : l.firstIndex = 1 := by
      rcases h.first_le_last ha with h1 | h1
      · exact h1
      · omega
    have h0 : (a.log i).length = 0 := by omega
    rw [Log.getTerm, if_pos (by omega), h0, termAt_zero]
  · rw [h.getTerm_eq hle (Nat.le_refl _), hlast]

/-- Appending to the window is appending to the whole log. -/
theorem appendEntry {e : LogEntry}
    (he : e.index = l.lastIndex + 1) :
    Durable (a.setLog i (a.log i ++ [e])) i (l.appendEntry e he) where
  term_eq := h.term_eq
  vote_eq := h.vote_eq
  entries_eq := by
    rw [State.setLog_log]
    change l.entries ++ [e] = (a.log i ++ [e]).drop (l.firstIndex - 1)
    rw [List.drop_append_of_le_length h.first_sub_le, ← h.entries_eq]
  first_sub_le := by
    rw [State.setLog_log, List.length_append]
    exact Nat.le_add_right_of_le h.first_sub_le
  first_le := h.first_le

/-- Cutting the window inside is cutting the whole log. -/
theorem truncateSuffix {k : ℕ}
    (hfirst : l.firstIndex ≤ k + 1) (hlast : k < l.lastIndex) :
    Durable (a.setLog i ((a.log i).take k)) i (l.truncateSuffix k) := by
  have hlen := h.lastIndex_eq
  have h1 := l.first_pos
  refine ⟨?_, ?_, ?_, ?_, ?_⟩
  · rw [Log.truncateSuffix_currentTerm]
    exact h.term_eq
  · rw [Log.truncateSuffix_voteFor]
    exact h.vote_eq
  · rw [State.setLog_log, Log.truncateSuffix_firstIndex hfirst, Log.truncateSuffix_entries,
      h.entries_eq, List.drop_take]
    congr 1
    omega
  · rw [State.setLog_log, Log.truncateSuffix_firstIndex hfirst, List.length_take]
    omega
  · rw [Log.truncateSuffix_firstIndex hfirst]
    exact h.first_le

end Durable

/-! ## Messages -/

/-- The abstract state describes an AE request. -/
structure AppendEntriesOk (S : Setup) (a : State ℕ LogEntry) (src dst : ℕ)
    (r : AppendEntriesRequest) : Prop where
  src_mem : src ∈ S.info.nodes.keys
  ne : src ≠ dst
  leaderId_eq : r.leaderId = src
  /-- The sender won the term of the request. -/
  leader_eq : a.leader r.term = some src
  /-- The entries follow `prevLogIndex` in the log of that term's leader. -/
  entries_eq : ∀ j e, r.entries[j]? = some e →
    entryAt (a.llog r.term) (r.prevLogIndex + j + 1) = some e ∧ e.index = r.prevLogIndex + j + 1
  le_length : r.prevLogIndex + r.entries.length ≤ (a.llog r.term).length
  /-- The previous term is the real one, or `0` where the sender did not know it. -/
  prevLogTerm_eq : r.prevLogTerm = 0 ∨
    r.prevLogTerm = termAt LogEntry.term (a.llog r.term) r.prevLogIndex
  commit_le : r.commitIndex ≤ r.prevLogIndex + r.entries.length
  /-- The commit index was committed by a leader of no later term. -/
  committed : r.commitIndex = 0 ∨ ∃ t j, t ≤ r.term ∧ S.protocol.Committed a t j ∧
    r.commitIndex ≤ j ∧ Agree (a.llog r.term) (a.llog t) r.commitIndex

/-- The abstract state describes an RV request: a voter is asked, and by a candidate that stands
with the log it tells of. Nothing is said of a prevote. -/
structure RequestVoteOk (S : Setup) (a : State ℕ LogEntry) (src dst : ℕ)
    (r : RequestVoteRequest) : Prop where
  src_mem : src ∈ S.info.nodes.keys
  ne : src ≠ dst
  dst_voter : S.info.IsVoter dst
  candidateId_eq : r.candidateId = src
  cand_eq : r.prevote = false → ∃ l, a.cand r.term src = some l ∧ r.lastLogIndex = l.length ∧
    r.lastLogTerm = termAt LogEntry.term l l.length

/-- The abstract state describes a message. -/
def MessageOk (S : Setup) (a : State ℕ LogEntry) (e : Envelope) : Prop :=
  match e.msg with
  | .appendEntriesRequest r => AppendEntriesOk S a e.src e.dst r
  | .appendEntriesResponse r =>
    r.id = e.src ∧ (r.success = true → r.matchIndex ≤ a.ack r.savedTerm e.src)
  | .requestVoteRequest r => RequestVoteOk S a e.src e.dst r
  | .requestVoteResponse r =>
    r.id = e.src ∧ (r.voteGranted = true → r.prevote = false →
      S.info.IsVoter e.src ∧ a.ballot r.savedTerm e.src = some e.dst)

/-- The abstract state describes what node `i` sends. -/
def OutputOk (S : Setup) (a : State ℕ LogEntry) (i : ℕ) : Output → Prop
  | .appendEntries dst r => AppendEntriesOk S a i dst r
  | .requestVote dst r => RequestVoteOk S a i dst r
  | .reply _ _ _ _ => True

/-! ## Nodes -/

/-- What is known of a peer by a leader in term `t` whose log has `last` entries. -/
structure PeerOk (a : State ℕ LogEntry) (t last id : ℕ) (p : Peer) : Prop where
  /-- The peer has acknowledged as much. -/
  match_le : p.matchIndex ≤ a.ack t id
  match_lt : p.matchIndex < p.nextIndex
  next_le : p.nextIndex ≤ last + 1

/-- The abstract state describes a node that stands for election in its current term and knows
this of its peers. -/
structure Standing (S : Setup) (a : State ℕ LogEntry) (i : ℕ) (peers : Table Peer) : Prop where
  cand_eq : a.cand (a.term i) i = some (a.log i)
  ballot_eq : a.ballot (a.term i) i = some i
  leader_ne : a.leader (a.term i) ≠ some i
  /-- A vote that the node knows of was cast, and by a voter. -/
  votes : ∀ id p, peers.find? id = some p → p.haveVote = true →
    S.info.IsVoter id ∧ a.ballot (a.term i) id = some i

/-- **The abstract state describes node `i`.** -/
structure Describes (S : Setup) (a : State ℕ LogEntry) (i : ℕ) (n : Node) : Prop where
  members : n.members.Of S i
  durable : Durable a i n.log
  commit_le : n.commitIndex ≤ a.committed i
  role_ne : n.role ≠ .syncer
  leaderId_eq : n.leaderId ≠ 0 → a.leader (a.term i) = some n.leaderId
  leader : n.role = .leader → a.leader (a.term i) = some i ∧ n.leaderId = i
  candidate : n.role = .candidate → Standing S a i n.members.peers
  no_leaderId : n.role = .candidate ∨ n.role = .preCandidate → n.leaderId = 0
  peers : n.role = .leader → ∀ id p, n.peer? id = some p →
    PeerOk a (a.term i) (a.log i).length id p
  outbox : ∀ o ∈ n.outbox, OutputOk S a i o

/-! ## What the history keeps -/

section Grows

variable {S : Setup} {a b : State ℕ LogEntry} (hg : Grows a b)
include hg

theorem AppendEntriesOk.grows {r : AppendEntriesRequest} (h : AppendEntriesOk S a src dst r) :
    AppendEntriesOk S b src dst r where
  src_mem := h.src_mem
  ne := h.ne
  leaderId_eq := h.leaderId_eq
  leader_eq := hg.leader_eq h.leader_eq
  entries_eq := fun j e he => by
    obtain ⟨hentry, hindex⟩ := h.entries_eq j e he
    refine ⟨?_, hindex⟩
    rw [(hg.llog_agree (le_length_of_entryAt hentry).2).entryAt_eq (Nat.le_refl _), hentry]
  le_length := h.le_length.trans (hg.llog_isPrefix _).length_le
  prevLogTerm_eq := by
    rcases h.prevLogTerm_eq with h0 | heq
    · exact Or.inl h0
    · refine Or.inr (heq.trans ?_)
      have hle : r.prevLogIndex ≤ (a.llog r.term).length :=
        (Nat.le_add_right _ _).trans h.le_length
      exact ((hg.llog_agree hle).termAt_eq (Nat.le_refl _)).symm
  commit_le := h.commit_le
  committed := by
    rcases h.committed with h0 | ⟨t, j, ht, hc, hj, ha⟩
    · exact Or.inl h0
    · refine Or.inr ⟨t, j, ht, hg.committed hc, hj, ?_⟩
      exact (hg.llog_agree ha.le_left).trans (hg.agree_llog ha)

theorem RequestVoteOk.grows {r : RequestVoteRequest} (h : RequestVoteOk S a src dst r) :
    RequestVoteOk S b src dst r :=
  { h with
    cand_eq := fun hp => by
      obtain ⟨l, hl, hrest⟩ := h.cand_eq hp
      exact ⟨l, hg.cand_eq hl, hrest⟩ }

theorem MessageOk.grows {e : Envelope} (h : MessageOk S a e) : MessageOk S b e := by
  rw [MessageOk] at h ⊢
  cases hm : e.msg with
  | appendEntriesRequest r =>
    rw [hm] at h
    exact AppendEntriesOk.grows hg h
  | appendEntriesResponse r =>
    rw [hm] at h
    exact ⟨h.1, fun hs => (h.2 hs).trans (hg.ack_le _ _)⟩
  | requestVoteRequest r =>
    rw [hm] at h
    exact RequestVoteOk.grows hg h
  | requestVoteResponse r =>
    rw [hm] at h
    exact ⟨h.1, fun hv hp => ⟨(h.2 hv hp).1, hg.ballot_eq (h.2 hv hp).2⟩⟩

theorem OutputOk.grows {o : Output} (h : OutputOk S a i o) : OutputOk S b i o := by
  cases o with
  | appendEntries dst r => exact AppendEntriesOk.grows hg h
  | requestVote dst r => exact RequestVoteOk.grows hg h
  | reply => trivial

end Grows

/-- **A step of another node** leaves the description of a node as it is. -/
theorem Describes.other {S : Setup} {a : State ℕ LogEntry} {n : Node} (h : Describes S a i n)
    (ha : S.protocol.Inv a) (hs : S.protocol.Steps j a b) (hij : i ≠ j) : Describes S b i n := by
  have hg := hs.grows ha
  obtain ⟨hterm, hvote, hlog, hcom, hlead⟩ := hs.sameElsewhere i hij
  exact
    { members := h.members
      durable :=
        { term_eq := h.durable.term_eq.trans hterm.symm
          vote_eq := hvote.trans h.durable.vote_eq
          entries_eq := by rw [hlog]; exact h.durable.entries_eq
          first_sub_le := by rw [hlog]; exact h.durable.first_sub_le
          first_le := by rw [hcom]; exact h.durable.first_le }
      commit_le := by rw [hcom]; exact h.commit_le
      role_ne := h.role_ne
      leaderId_eq := fun h0 => by rw [hterm]; exact hg.leader_eq (h.leaderId_eq h0)
      leader := fun hr => by rw [hterm]; exact ⟨hg.leader_eq (h.leader hr).1, (h.leader hr).2⟩
      candidate := fun hr => by
        obtain ⟨hc, hb, hl, hv⟩ := h.candidate hr
        refine ⟨?_, ?_, ?_, fun id p hp hp' => ⟨(hv id p hp hp').1, ?_⟩⟩
        · rw [hterm, hlog]
          exact hg.cand_eq hc
        · rw [hterm]
          exact hg.ballot_eq hb
        · rw [hterm]
          exact fun hcon => hl (hlead _ hcon)
        · rw [hterm]
          exact hg.ballot_eq (hv id p hp hp').2
      no_leaderId := h.no_leaderId
      peers := fun hr id p hp => by
        have hpeer := h.peers hr id p hp
        rw [hterm, hlog]
        exact { hpeer with match_le := hpeer.match_le.trans (hg.ack_le _ _) }
      outbox := fun o ho => OutputOk.grows hg (h.outbox o ho) }

/-! ## Simulation -/

/-- The steps of node `i`, as an abstraction to simulate the node in. -/
def Setup.abstraction (S : Setup) (i : ℕ) : Abstraction S.Abstract Log where
  reach a b := S.protocol.Steps i a.1 b.1
  refl a := .refl a.1
  trans := Protocol.Steps.trans
  durable a l := Durable a.1 i l

namespace Setup

variable {S : Setup} {i : ℕ}

/-- The abstract state after one step. -/
def Abstract.after (a : S.Abstract) {b : State ℕ LogEntry} (h : S.protocol.Step i a.1 b) :
    S.Abstract := ⟨b, h.inv a.2⟩

theorem reach_after (a : S.Abstract) (h : S.protocol.Step i a.1 b) :
    (S.abstraction i).reach a (a.after h) := h.steps

theorem grows_of_reach {a b : S.Abstract} (h : (S.abstraction i).reach a b) : Grows a.1 b.1 :=
  Protocol.Steps.grows a.2 h

end Setup

end Gringofts
