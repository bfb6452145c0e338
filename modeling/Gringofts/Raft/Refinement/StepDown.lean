import Gringofts.Raft.Refinement.Relation

/-!
# Stepping down

A node that steps down adopts a higher term, or gives up a candidacy in its own term. The first
is two durable writes, and both states in between are described: after the first one the node has
the new term and still the old vote.

## Main results

* `Node.stepDown_sim` — a node that steps down is described as a follower of the new term
-/

namespace Gringofts

open Replication Abstraction

variable {a : State ℕ LogEntry} {t : ℕ}

/-- The node neither leads nor stands for election. -/
def Node.Following (n : Node) : Prop :=
  n.role ≠ .leader ∧ n.role ≠ .candidate ∧ n.role ≠ .preCandidate

variable {S : Setup} {i : ℕ} {n : Node}

/-- What has to be checked of a node that follows. -/
theorem Describes.of_following (members : n.members.Of S i) (durable : Durable a i n.log)
    (commit_le : n.commitIndex ≤ a.committed i) (role_ne : n.role ≠ .syncer) (hf : n.Following)
    (leaderId_eq : n.leaderId ≠ 0 → a.leader (a.term i) = some n.leaderId)
    (outbox : ∀ o ∈ n.outbox, OutputOk S a i o) : Describes S a i n where
  members := members
  durable := durable
  commit_le := commit_le
  role_ne := role_ne
  leaderId_eq := leaderId_eq
  leader := fun hr => absurd hr hf.1
  candidate := fun hr => absurd hr hf.2.1
  no_leaderId := fun hr => (hr.elim hf.2.1 hf.2.2).elim
  peers := fun hr => absurd hr hf.1
  outbox := outbox

/-- Answers to clients are always in order. -/
theorem outputOk_replyPending {code : ℕ} {message : String} {ps : List (ℕ × Option ℕ)} :
    ∀ o ∈ n.replyPending code message ps, OutputOk S a i o := by
  induction ps with
  | nil => simp [Node.replyPending]
  | cons p ps ih =>
    obtain ⟨index, handle⟩ := p
    cases handle with
    | none => exact ih
    | some handle =>
      intro o ho
      rcases List.mem_cons.mp ho with rfl | ho
      · trivial
      · exact ih o ho

theorem Describes.append_outbox {os : List Output} (h : ∀ o ∈ n.outbox, OutputOk S a i o)
    (hos : ∀ o ∈ os, OutputOk S a i o) : ∀ o ∈ n.outbox ++ os, OutputOk S a i o := by
  intro o ho
  rcases List.mem_append.mp ho with ho | ho
  · exact h o ho
  · exact hos o ho

theorem Describes.dropPending (h : Describes S a i n) (clk : Clock) :
    Describes S a i (n.dropPending clk) :=
  { h with outbox := Describes.append_outbox h.outbox outputOk_replyPending }

theorem Describes.updateElectionTimePoint (h : Describes S a i n) (clk : Clock) :
    Describes S a i (n.updateElectionTimePoint clk) :=
  { h with }

/-! ### The two writes -/

section

variable {a : S.Abstract} {l : Log}

/-- A node has cast no ballot in a term it has not reached. -/
theorem ballot_eq_none (ht : a.1.term i < t) : a.1.ballot t i = none := by
  cases hb : a.1.ballot t i with
  | none => rfl
  | some c => exact absurd (a.2.ballot_vote hb).1 (by omega)

theorem Durable.bump (h : Durable a.1 i l) : Durable (a.1.bump i t) i (l.setCurrentTerm t) :=
  { h with term_eq := (State.bump_term _ _ _).symm }

theorem Durable.forget (h : Durable a.1 i l) : Durable (a.1.forget i) i (l.setVoteFor 0) :=
  { h with vote_eq := State.forget_vote _ _ }

/-- **Adopting a higher term.** -/
theorem Node.adoptTerm_sim (h : Describes S a.1 i n) (hf : n.Following) {prev : RaftRole}
    (ht : a.1.term i < t) :
    (S.abstraction i).Sim a (n.adoptTerm prev t)
      (fun b m => Describes S b.1 i m ∧ b.1.term i = t ∧ b.1.log i = a.1.log i ∧
        m.leaderId = 0 ∧ m.role = n.role ∧ m.log.entries = n.log.entries ∧
        m.log.firstIndex = n.log.firstIndex)
      fun _ => False := by
  have hlt : n.log.currentTerm < t := by rw [h.durable.term_eq]; exact ht
  rw [Node.adoptTerm, if_pos hlt]
  -- the term is raised and written
  have hs1 : S.protocol.Step i a.1 (a.1.bump i t) := .bump ht
  refine .advance (S.reach_after a hs1) (.bind (R := fun b m => b = a.after hs1 ∧
    m = { n with leaderId := 0, log := n.log.setCurrentTerm t }) ?_ ?_)
  · rw [Node.write]
    refine .bind (sim_persist (Q := fun b _ => b = a.after hs1)
      (h.durable.bump) rfl) fun b _ _ hb => sim_pure ⟨hb, rfl⟩
  rintro b m - ⟨rfl, rfl⟩
  -- then the vote is reset and written
  have hterm : (a.1.bump i t).term i = t := State.bump_term _ _ _
  have hs2 : S.protocol.Step i (a.1.bump i t) ((a.1.bump i t).forget i) := by
    refine .forget ?_
    rw [hterm]
    exact ballot_eq_none ht
  refine .advance (S.reach_after (a.after hs1) hs2) ?_
  have hdur : Durable ((a.1.bump i t).forget i) i ((n.log.setCurrentTerm t).setVoteFor 0) :=
    Durable.forget (a := a.after hs1) h.durable.bump
  rw [Node.write]
  refine .bind (sim_persist (Q := fun b _ => b = (a.after hs1).after hs2)
    hdur rfl) ?_
  rintro b - - rfl
  refine sim_pure ⟨?_, hterm, rfl, rfl, rfl, rfl, rfl⟩
  have hg : Grows a.1 ((a.1.bump i t).forget i) :=
    (Protocol.Step.grows a.2 hs1).trans (Protocol.Step.grows (a.after hs1).2 hs2)
  exact .of_following h.members hdur h.commit_le h.role_ne hf (fun h0 => absurd rfl h0)
    fun o ho => (h.outbox o ho).grows hg

/-- What `stepDown` leaves behind: a follower of the new term with the same log. -/
structure SteppedDown (S : Setup) (i : ℕ) (a : S.Abstract) (n : Node) (t : ℕ) (b : S.Abstract)
    (m : Node) : Prop where
  describes : Describes S b.1 i m
  following : m.Following
  term_eq : b.1.term i = t
  log_eq : b.1.log i = a.1.log i
  leaderId_eq : m.leaderId = 0
  entries_eq : m.log.entries = n.log.entries
  firstIndex_eq : m.log.firstIndex = n.log.firstIndex

/-- **Stepping down**, to a higher term or from a candidacy in the same one. -/
theorem Node.stepDown_sim (h : Describes S a.1 i n) (clk : Clock) (ht : a.1.term i < t ∨
      (a.1.term i = t ∧ (n.role = .candidate ∨ n.role = .preCandidate))) :
    (S.abstraction i).Sim a (n.stepDown clk t) (SteppedDown S i a n t) fun _ => False := by
  have hle : n.log.currentTerm ≤ t := by
    rw [h.durable.term_eq]
    omega
  have hrole : n.demotedRole ≠ .syncer ∧ n.demotedRole ≠ .leader ∧
      n.demotedRole ≠ .candidate ∧ n.demotedRole ≠ .preCandidate := by
    rw [demotedRole]
    cases hr : n.role <;> simp
  have hfol : Node.Following { n with role := n.demotedRole } := hrole.2
  rw [Node.stepDown]
  refine .bind (sim_check (Q := fun b _ => b = a) (fun _ => rfl) (absurd hle)) ?_
  rintro b - - rfl
  have hdemoted : (leaderId_eq : n.leaderId ≠ 0 → b.1.leader (b.1.term i) = some n.leaderId) →
      Describes S b.1 i { n with role := n.demotedRole } := fun hid =>
    .of_following h.members h.durable h.commit_le hrole.1 hfol hid h.outbox
  refine .bind (R := SteppedDown S i b n t) ?_ fun c m _ hm => ?_
  · rcases ht with ht | ⟨ht, hstand⟩
    · refine (Node.adoptTerm_sim (hdemoted h.leaderId_eq) hfol ht).imp ?_
      rintro c m - ⟨hd, hterm, hlog, hid, hrole', hent, hfirst⟩
      have hmf : m.Following := by
        rw [Node.Following, hrole']
        exact hfol
      exact ⟨hd, hmf, hterm, hlog, hid, hent, hfirst⟩
    · have hnlt : ¬ n.log.currentTerm < t := by
        rw [h.durable.term_eq]
        omega
      have hzero := h.no_leaderId hstand
      rw [Node.adoptTerm, if_neg hnlt]
      refine .bind (sim_check (Q := fun c _ => c = b) (fun _ => rfl)
        (absurd hstand)) ?_
      rintro c - - rfl
      refine .bind (sim_check (Q := fun d _ => d = c) (fun _ => rfl)
        (absurd hzero)) ?_
      rintro d - - rfl
      exact sim_pure ⟨hdemoted h.leaderId_eq, hfol, ht, rfl, hzero, rfl, rfl⟩
  · refine sim_pure ?_
    split
    · exact { hm with describes := hm.describes.dropPending clk }
    · exact hm

end

end Gringofts
