import Gringofts.Raft.Repair.CatchUp

/-!
# Repair by a leader that has its whole log

A leader that has never truncated a prefix repairs every follower. No single quantity gets smaller
with every round: a follower that was rolled back sends the leader to the start of the search, every
rejection lowers the next index, and once a request is accepted the match index grows.

## Main definitions

* `Link.Stage` — where the search is, with the measure of what is left

## Main results

* `Link.Stage.step` — every round of the search gets on
* `untruncated_leader_repairs`
-/

namespace Gringofts

open Scenario

namespace Link

/-- **The stages of the search**, with the measure of what is left. -/
inductive Stage (cfg : RaftConfig) : ℕ → Link → Peer → Prop
  /-- The follower has lost what the leader counts as matching. -/
  | rolledBack {x : Link} {p : Peer} (h : x.Compatible cfg p)
    (hfirst : x.leader.log.firstIndex = 1) (hlast : x.follower.log.lastIndex < p.matchIndex) :
    Stage cfg (x.leader.log.lastIndex + 2) x p
  /-- The leader looks for the place where the follower accepts. -/
  | probing {x : Link} {p : Peer} (h : x.Compatible cfg p)
    (hfirst : x.leader.log.firstIndex = 1) (hlast : p.matchIndex ≤ x.follower.log.lastIndex)
    (hag : x.leader.log.AgreesUpTo x.follower.log p.matchIndex) :
    Stage cfg p.nextIndex x p

variable {cfg : RaftConfig} {rd : Round} {x : Link} {p : Peer}

theorem Compatible.exists_stage (h : x.Compatible cfg p) (hfirst : x.leader.log.firstIndex = 1)
    (hag : p.matchIndex ≤ x.follower.log.lastIndex →
      x.leader.log.AgreesUpTo x.follower.log p.matchIndex) : ∃ m, Stage cfg m x p := by
  rcases Nat.lt_or_ge x.follower.log.lastIndex p.matchIndex with hlt | hge
  · exact ⟨_, .rolledBack h hfirst hlt⟩
  · exact ⟨_, .probing h hfirst hge (hag hge)⟩

/-- What matches passes the check again. -/
theorem Compatible.passes_of_match (h : x.Compatible cfg p)
    (hfirst : x.leader.log.firstIndex = 1) (hlast : p.matchIndex ≤ x.follower.log.lastIndex)
    (hag : x.leader.log.AgreesUpTo x.follower.log p.matchIndex)
    (hnext : p.nextIndex = p.matchIndex + 1) : x.leader.log.Passes x.follower.log p.nextIndex := by
  have hle := h.next_le
  rw [Log.Passes, hnext, Nat.add_sub_cancel]
  rcases Nat.eq_zero_or_pos p.matchIndex with h0 | hpos
  · rw [h0]
    exact Or.inl x.follower.log.first_pos
  · exact Log.accepts_of_agrees (by omega) (by omega) hlast hag

/-- **Every round of the search gets on.** -/
theorem Stage.step (cfg' : RaftConfig) {m : ℕ} (h : Stage cfg m x p) (hdue : x.Due rd) :
    ∃ y p', x.Exchanges cfg cfg' rd y ∧ (y.Settled cfg p' ∨ ∃ m' < m, Stage cfg m' y p') := by
  cases h with
  | rolledBack h hfirst hlast =>
    -- what the request starts after lies above the follower's log
    have hlt := h.match_lt
    have hno : ¬ x.leader.log.Passes x.follower.log p.nextIndex := by
      have := x.follower.log.lastIndex_add_one
      rintro (hbelow | hin) <;> omega
    obtain ⟨y, p', hround, hy, hrej, -⟩ := h.reject cfg' hdue hno (Or.inl hlast)
    obtain ⟨-, hmatch, -⟩ := hrej.rolledBack hlast
    have hlog := hround.stays.office.log_eq
    refine ⟨y, p', hround, Or.inr ⟨_, Nat.lt_succ_of_le (hlog ▸ hy.next_le),
      .probing hy (hlog ▸ hfirst) (hmatch ▸ Nat.zero_le _) fun j hj e f he hf => ?_⟩⟩
    have := Log.first_le_of_getEntry he
    have := y.leader.log.first_pos
    omega
  | probing h hfirst hlast hag =>
    have hlt := h.match_lt
    by_cases hok : x.leader.log.Passes x.follower.log p.nextIndex
    · obtain ⟨y, p', k, hround, hy, -⟩ := h.settle cfg' hdue (by omega) hok
      exact ⟨y, p', hround, Or.inl hy⟩
    · have hgap : p.matchIndex + 1 < p.nextIndex := by
        rcases Nat.eq_or_lt_of_le (Nat.succ_le_of_lt hlt) with heq | hgt
        · exact absurd (h.passes_of_match hfirst hlast hag heq.symm) hok
        · exact hgt
      obtain ⟨y, p', hround, hy, hrej, hwindow⟩ :=
        h.reject cfg' hdue hok (Or.inr (Or.inr hgap))
      obtain ⟨hnext, hmatch, -⟩ := hrej.decreased hlast (by omega)
      have hlog := hround.stays.office.log_eq
      refine ⟨y, p', hround, Or.inr ⟨p'.nextIndex, ?_, .probing hy (hlog ▸ hfirst) ?_ ?_⟩⟩
      · rw [hnext]
        exact (Node.decreasedIndex_bounds cfg hgap hlast).2
      · rw [hmatch, hwindow.lastIndex_eq]
        exact hlast
      · rw [hmatch, hlog]
        exact hwindow.agreesUpTo hag

end Link

/-- **A leader that has its whole log repairs every follower**: whatever the follower retains,
whatever conflicts above what it has counted as committed, and however much of its log it has lost,
no round fails an assertion, and after some round the leader knows that the follower has all of its
log. -/
theorem untruncated_leader_repairs (cfg cfg' : RaftConfig) (rds : ℕ → Round) (x : Link) (p : Peer)
    (hfirst : x.leader.log.firstIndex = 1) (h : x.Compatible cfg p)
    (htrue : p.matchIndex ≤ x.follower.log.lastIndex →
      x.leader.log.AgreesUpTo x.follower.log p.matchIndex)
    (hdue : x.Due (rds 0)) (hpace : ∀ k, (rds k).Paces cfg (rds (k + 1))) :
    (∀ k, ∃ y, rounds (Link.exchange cfg cfg') rds k x = .ok y) ∧
      ∃ k y p', rounds (Link.exchange cfg cfg') rds k x = .ok y ∧
        y.leader.log = x.leader.log ∧ y.leader.peer? x.follower.selfId = some p' ∧
        p'.matchIndex = x.leader.log.lastIndex ∧
        y.follower.log.firstIndex = x.follower.log.firstIndex ∧
        ∀ j, x.follower.log.firstIndex ≤ j → j ≤ x.leader.log.lastIndex →
          y.follower.log.getEntry j = x.leader.log.getEntry j := by
  obtain ⟨m, hm⟩ := h.exists_stage hfirst htrue
  obtain ⟨hall, k, y, p', hy, hup⟩ := Link.repairs_of_search
    (fun rd m x p hx hdue => hx.step cfg' hdue) hm hdue hpace
  refine ⟨hall, k, y, p', hy, hup.log_eq, hup.peer_eq, hup.match_eq, hup.first_eq,
    fun j hl hj => hup.getEntry_eq j ?_ hl hj⟩
  rw [hfirst]
  exact x.follower.log.first_pos.trans hl

/-- Node `1` has the terms `1, 2, 2`, node `2` the terms `1, 1, 1, 1`. -/
theorem untruncated_leader_repairs_conflict :
    ∃ k y, rounds (Link.exchange config config) pace k
        (link (window 1 (by decide) [1, 2, 2] 2)
          (window 1 (by decide) [1, 1, 1, 1] 1) { address := "b", nextIndex := 4 }) =
          .ok y ∧
      ∀ j, 1 ≤ j → j ≤ 3 → y.follower.log.getEntry j =
        (window 1 (by decide) [1, 2, 2] 2).getEntry j := by
  obtain ⟨-, k, y, p', hy, -, -, -, -, hget⟩ := untruncated_leader_repairs config
    config pace _ _ rfl
    (link_compatible (L := window 1 (by decide) [1, 2, 2] 2)
      (l := window 1 (by decide) [1, 1, 1, 1] 1)
      (p := { address := "b", nextIndex := 4 }) (by decide) (by decide) (by decide) (by decide))
    (fun _ => by decide) (link_due rfl) pace_paces
  exact ⟨k, y, hy, hget⟩

end Gringofts
