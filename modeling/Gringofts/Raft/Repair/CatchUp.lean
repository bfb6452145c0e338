import Gringofts.Raft.Repair.Exchange
import Mathlib.Data.Prod.Lex

/-!
# Catching up

What a leader and a follower keep up through every round, and the end of every repair: once the
follower has accepted a request where the logs agree, each round brings it more of the leader's log
until it has all of it.

## Main definitions

* `Log.Passes` — the follower accepts what starts at an index
* `Link.Compatible` — what every round keeps
* `Link.Settled` — the leader has found where to go on
* `Link.CaughtUp` — the follower has what the leader has

## Main results

* `Link.Compatible.accept`, `Link.Compatible.reject` — one round
* `Link.Settled.step` — a settled follower catches up
* `Link.repairs_of_search` — a search that comes to an end is a repair
-/

namespace Gringofts

namespace Log

variable {L l l' : Log} {j k n t : ℕ}

/-! ## The consistency check finds out what it should -/

/-- A request of the leader that starts at an index passes the check of the follower. -/
def Passes (L l : Log) (next : ℕ) : Prop := l.Accepts (next - 1) (L.sentTerm (next - 1))

instance : Decidable (L.Passes l j) := inferInstanceAs (Decidable (l.Accepts _ _))

/-- Where the logs agree, the check passes. -/
theorem accepts_of_agrees (hfirst : L.firstIndex ≤ j) (hlast : j ≤ L.lastIndex)
    (hl : j ≤ l.lastIndex) (h : L.AgreesUpTo l j) : l.Accepts j (L.sentTerm j) := by
  rcases Nat.lt_or_ge j l.firstIndex with hlt | hge
  · exact Or.inl hlt
  · obtain ⟨e, he⟩ := L.exists_getEntry hfirst hlast
    obtain ⟨f, hf⟩ := l.exists_getEntry hge hl
    obtain rfl := h j (Nat.le_refl j) e f he hf
    rw [sentTerm_of_getTerm (getTerm_of_getEntry he)]
    exact Or.inr ⟨hl, getTerm_of_getEntry hf⟩

/-- Where the check passes, the logs agree. -/
theorem agrees_of_accepts (hm : L.Matching l) (hlast : j ≤ L.lastIndex)
    (h : l.Accepts j (L.sentTerm j)) : L.AgreesUpTo l j := by
  intro i hi e f he hf
  have hLi := first_le_of_getEntry he
  have hli := first_le_of_getEntry hf
  obtain ⟨hl, hterm⟩ := h.resolve_left (by omega)
  obtain ⟨e', he'⟩ := L.exists_getEntry (hLi.trans hi) hlast
  obtain ⟨f', hf'⟩ := l.exists_getEntry (hli.trans hi) hl
  rw [sentTerm_of_getTerm (getTerm_of_getEntry he'), getTerm_of_getEntry hf'] at hterm
  exact hm j e' f' he' hf' (Option.some.inj hterm).symm i hi e f he hf

/-- A request is accepted again after it has been taken. -/
theorem Takes.accepts (h : L.Takes l k n l') (hk : l.Accepts k t) : l'.Accepts k t := by
  refine hk.imp (fun hlt => h.first_eq ▸ hlt) fun hin => ⟨by have := h.le_last; omega, ?_⟩
  rw [← hin.2, getTerm, getTerm, h.first_eq, h.kept k (Nat.le_refl k)]

end Log

namespace Link

/-! ## One round -/

/-- **What every round keeps**: the follower can follow, the logs satisfy log matching and agree on
what the follower has counted as committed, every entry fits into a request, and the next index of
the peer lies above its match index and not beyond the leader's log. -/
structure Compatible (cfg : RaftConfig) (x : Link) (p : Peer) : Prop where
  ready : x.Ready p
  matching : x.leader.log.Matching x.follower.log
  committed : x.leader.log.AgreesUpTo x.follower.log x.follower.commitIndex
  fit : ∀ e ∈ x.leader.log.entries, cfg.byteSize e ≤ cfg.maxLenInBytes
  match_lt : p.matchIndex < p.nextIndex
  next_le : p.nextIndex ≤ x.leader.log.lastIndex + 1

/-- The follower's timer at the leader is due when the round begins. -/
def Due (x : Link) (rd : Round) : Prop :=
  ∀ p, x.leader.peer? x.follower.selfId = some p → p.nextAERequestTime ≤ rd.send.now

/-- A round that went well, and after which the next one is due in its time. -/
structure Exchanges (cfg cfg' : RaftConfig) (rd : Round) (x y : Link) : Prop where
  exchange_eq : x.exchange cfg cfg' rd = .ok y
  stays : x.Stays y
  due : ∀ rd', rd.Paces cfg rd' → y.Due rd'

variable {cfg : RaftConfig} {rd : Round} {x : Link} {p : Peer}

namespace Compatible

/-- A round in which the follower accepts a request that starts where the logs agree. -/
theorem accept (cfg' : RaftConfig) (h : x.Compatible cfg p) (hdue : x.Due rd)
    (hok : x.leader.log.Passes x.follower.log p.nextIndex)
    (hag : x.leader.log.AgreesUpTo x.follower.log (p.nextIndex - 1)) :
    ∃ y p' k, x.Exchanges cfg cfg' rd y ∧ y.Compatible cfg p' ∧ Accepted x.leader.log k p p' ∧
      x.leader.log.Takes x.follower.log (p.nextIndex - 1) k y.follower.log := by
  have hpos : 1 ≤ p.nextIndex := Nat.lt_of_le_of_lt (Nat.zero_le _) h.match_lt
  obtain ⟨y, p', k, hy, hready, hstays, htime, htakes, hcommit, hacc⟩ :=
    exchange_accepted h.ready (hdue p h.ready.peer_eq) hpos h.next_le h.fit cfg' h.match_lt hok
      h.matching h.committed
  have hlog := hstays.office.log_eq
  refine ⟨y, p', k, ⟨hy, hstays, fun rd' hpace q hq => ?_⟩, ⟨hready, ?_, ?_, ?_, ?_, ?_⟩, hacc,
    htakes⟩
  · obtain rfl := Option.some.inj (hready.peer_eq.symm.trans hq)
    exact htime.trans_le hpace
  · rw [hlog]
    exact htakes.matching hag h.matching
  · rw [hlog]
    rcases hcommit with heq | hle
    · rw [heq]
      exact htakes.agrees_of_agrees hag h.committed
    · exact (htakes.agrees hag).mono hle
  · rw [hlog]
    exact h.fit
  · exact hacc.next_eq ▸ Nat.lt_succ_self _
  · rw [hlog, hacc.next_eq]
    exact Nat.succ_le_succ hacc.match_le

/-- A round in which the follower rejects. -/
theorem reject (cfg' : RaftConfig) (h : x.Compatible cfg p) (hdue : x.Due rd)
    (hno : ¬ x.leader.log.Passes x.follower.log p.nextIndex)
    (hgap : x.follower.log.lastIndex < p.matchIndex ∨
      p.nextIndex ≤ x.leader.log.firstIndex ∨ p.matchIndex + 1 < p.nextIndex) :
    ∃ y p', x.Exchanges cfg cfg' rd y ∧ y.Compatible cfg p' ∧
      Rejected cfg x.leader.log x.follower.log.lastIndex p p' ∧
      x.follower.log.SameWindow y.follower.log := by
  have hpos : 1 ≤ p.nextIndex := Nat.lt_of_le_of_lt (Nat.zero_le _) h.match_lt
  obtain ⟨y, p', hy, hready, hstays, htime, hwindow, hcommit, hrej⟩ :=
    exchange_rejected h.ready (hdue p h.ready.peer_eq) hpos h.next_le h.fit cfg' hno hgap
  have hlog := hstays.office.log_eq
  have hbounds : p'.matchIndex < p'.nextIndex ∧ p'.nextIndex ≤ x.leader.log.lastIndex + 1 := by
    have hnext := h.next_le
    rcases Nat.lt_or_ge x.follower.log.lastIndex p.matchIndex with hlt | hge
    · obtain ⟨h1, h2, -⟩ := hrej.rolledBack hlt
      have := Node.rolledBackIndex_bounds x.leader.log x.follower.log.lastIndex
      omega
    rcases Nat.lt_or_ge x.leader.log.firstIndex p.nextIndex with hin | hout
    · obtain ⟨h1, h2, -⟩ := hrej.decreased hge hin
      have := Node.decreasedIndex_bounds cfg (p := p) (by omega) hge
      omega
    · obtain ⟨h1, h2, -⟩ := hrej.truncated hge hout
      have := Node.restartIndex_bounds x.leader.log x.follower.log.lastIndex
      omega
  refine ⟨y, p', ⟨hy, hstays, fun rd' hpace q hq => ?_⟩, ⟨hready, ?_, ?_, ?_, hbounds.1, ?_⟩, hrej,
    hwindow⟩
  · obtain rfl := Option.some.inj (hready.peer_eq.symm.trans hq)
    exact htime.trans_le hpace
  · rw [hlog]
    exact hwindow.matching h.matching
  · rw [hlog, hcommit]
    exact hwindow.agreesUpTo h.committed
  · rw [hlog]
    exact h.fit
  · rw [hlog]
    exact hbounds.2

end Compatible

/-! ## The end of the search -/

/-- **The leader has found where to go on**: the follower accepts what follows its match index, up
to which the logs agree, and the leader has all of it to send. -/
structure Settled (cfg : RaftConfig) (x : Link) (p : Peer) : Prop where
  compatible : x.Compatible cfg p
  next_eq : p.nextIndex = p.matchIndex + 1
  suppress_eq : p.suppressBulkData = false
  first_le : x.leader.log.firstIndex ≤ p.nextIndex
  agrees : x.leader.log.AgreesUpTo x.follower.log p.matchIndex
  passes : x.leader.log.Passes x.follower.log p.nextIndex

/-- **The search ends with the first request that is accepted and does not start below what the
leader can describe.** -/
theorem Compatible.settle (cfg' : RaftConfig) (h : x.Compatible cfg p) (hdue : x.Due rd)
    (hfirst : x.leader.log.firstIndex ≤ p.nextIndex)
    (hok : x.leader.log.Passes x.follower.log p.nextIndex) :
    ∃ y p' k, x.Exchanges cfg cfg' rd y ∧ y.Settled cfg p' ∧ Accepted x.leader.log k p p' := by
  have hnext := h.next_le
  have hlt := h.match_lt
  have hag := Log.agrees_of_accepts h.matching (by omega) hok
  obtain ⟨y, p', k, hround, hy, hacc, htakes⟩ := h.accept cfg' hdue hok hag
  have hlog := hround.stays.office.log_eq
  have hmatch := hacc.match_eq
  have hagrees := htakes.agrees hag
  rw [← hmatch] at hagrees
  refine ⟨y, p', k, hround, ⟨hy, hacc.next_eq, hacc.suppress_eq, ?_, hlog ▸ hagrees, ?_⟩, hacc⟩
  · rw [hlog, hacc.next_eq]
    omega
  · rw [hlog, Log.Passes, hacc.next_eq, Nat.add_sub_cancel]
    rcases Nat.eq_zero_or_pos k with rfl | hk
    · rw [hmatch]
      exact htakes.accepts hok
    · exact Log.accepts_of_agrees (by omega) hacc.match_le (hmatch ▸ htakes.le_last) hagrees

namespace Settled

variable (h : x.Settled cfg p)
include h

/-- **A settled follower catches up**: each round leaves less to send, until nothing is left. -/
theorem step (cfg' : RaftConfig) (hdue : x.Due rd) :
    ∃ y p', x.Exchanges cfg cfg' rd y ∧ y.Settled cfg p' ∧
      (p.matchIndex = x.leader.log.lastIndex ∨
        y.leader.log.lastIndex - p'.matchIndex < x.leader.log.lastIndex - p.matchIndex) := by
  obtain ⟨y, p', k, hround, hy, hacc⟩ := h.compatible.settle cfg' hdue h.first_le h.passes
  refine ⟨y, p', hround, hy, ?_⟩
  have hmatch := hacc.match_eq
  have hle := h.compatible.next_le
  have hnext := h.next_eq
  rw [hround.stays.office.log_eq]
  rcases Nat.lt_or_ge x.leader.log.lastIndex p.nextIndex with hend | hmore
  · exact Or.inl (by omega)
  · have hk := hacc.pos h.suppress_eq h.first_le hmore
    exact Or.inr (by omega)

/-- At the end of the leader's log the follower has all of it that it retains. -/
theorem getEntry_eq (hend : p.matchIndex = x.leader.log.lastIndex) {j : ℕ}
    (hL : x.leader.log.firstIndex ≤ j) (hl : x.follower.log.firstIndex ≤ j)
    (hj : j ≤ x.leader.log.lastIndex) : x.follower.log.getEntry j = x.leader.log.getEntry j := by
  have hprev : p.nextIndex - 1 = p.matchIndex := by rw [h.next_eq, Nat.add_sub_cancel]
  have hin := h.passes.resolve_left (by omega)
  obtain ⟨e, he⟩ := x.leader.log.exists_getEntry hL hj
  obtain ⟨f, hf⟩ := x.follower.log.exists_getEntry hl (by omega)
  rw [he, hf, h.agrees j (by omega) e f he hf]

end Settled

/-! ## A whole repair -/

/-- The follower has all of the leader's log that both retain, and the leader knows. -/
structure CaughtUp (x y : Link) (p : Peer) : Prop where
  log_eq : y.leader.log = x.leader.log
  peer_eq : y.leader.peer? x.follower.selfId = some p
  match_eq : p.matchIndex = x.leader.log.lastIndex
  first_eq : y.follower.log.firstIndex = x.follower.log.firstIndex
  getEntry_eq : ∀ j, x.leader.log.firstIndex ≤ j → x.follower.log.firstIndex ≤ j →
    j ≤ x.leader.log.lastIndex → y.follower.log.getEntry j = x.leader.log.getEntry j

theorem Settled.caughtUp {y : Link} (h : y.Settled cfg p) (hstays : x.Stays y)
    (hend : p.matchIndex = y.leader.log.lastIndex) : x.CaughtUp y p where
  log_eq := hstays.office.log_eq
  peer_eq := hstays.selfId_eq ▸ h.compatible.ready.peer_eq
  match_eq := hstays.office.log_eq ▸ hend
  first_eq := hstays.first_eq
  getEntry_eq j hL hl hj := by
    rw [← hstays.office.log_eq] at hL hj ⊢
    exact h.getEntry_eq hend hL (hstays.first_eq ▸ hl) hj

/-- **A search that comes to an end is a repair**: the rounds of the search have a measure that gets
smaller until the leader has found where to go on, and from there on the follower catches up. -/
theorem repairs_of_search {cfg' : RaftConfig} {I : ℕ → Link → Peer → Prop} {rds : ℕ → Round} {m : ℕ}
    (hstep : ∀ rd m x p, I m x p → x.Due rd → ∃ y p', x.Exchanges cfg cfg' rd y ∧
      (y.Settled cfg p' ∨ ∃ m' < m, I m' y p'))
    (hx : I m x p) (hdue : x.Due (rds 0)) (hpace : ∀ k, (rds k).Paces cfg (rds (k + 1))) :
    (∀ k, ∃ y, rounds (exchange cfg cfg') rds k x = .ok y) ∧
      ∃ k y p', rounds (exchange cfg cfg') rds k x = .ok y ∧ x.CaughtUp y p' := by
  -- searching comes before catching up, and each has a measure of its own
  obtain ⟨hall, k, y, hy, ⟨-, hstays, -⟩, p', hp', hend⟩ := rounds_eventually
    (I := fun m y => x.Stays y ∧ ∃ p, (∃ i, I i y p ∧ m = toLex (1, i)) ∨
      (y.Settled cfg p ∧ m = toLex (0, y.leader.log.lastIndex - p.matchIndex)))
    (G := fun y => ∃ p, y.Settled cfg p ∧ p.matchIndex = y.leader.log.lastIndex)
    (fun rd m y hy hdue => by
      obtain ⟨hstays, p, ⟨i, hi, rfl⟩ | ⟨hset, rfl⟩⟩ := hy
      · obtain ⟨z, q, hround, hset | ⟨i', hlt, hi'⟩⟩ := hstep rd i y p hi hdue
        · exact ⟨z, _, hround.exchange_eq, ⟨hstays.trans hround.stays, q, Or.inr ⟨hset, rfl⟩⟩,
            Or.inr (Prod.Lex.toLex_lt_toLex.mpr (Or.inl Nat.one_pos)), hround.due⟩
        · exact ⟨z, _, hround.exchange_eq,
            ⟨hstays.trans hround.stays, q, Or.inl ⟨i', hi', rfl⟩⟩,
            Or.inr (Prod.Lex.toLex_lt_toLex.mpr (Or.inr ⟨rfl, hlt⟩)), hround.due⟩
      · obtain ⟨z, q, hround, hset', hless⟩ := hset.step cfg' hdue
        exact ⟨z, _, hround.exchange_eq, ⟨hstays.trans hround.stays, q, Or.inr ⟨hset', rfl⟩⟩,
          hless.imp (fun hend => ⟨p, hset, hend⟩)
            fun hlt => Prod.Lex.toLex_lt_toLex.mpr (Or.inr ⟨rfl, hlt⟩), hround.due⟩)
    hpace ⟨.refl x, p, Or.inl ⟨m, hx, rfl⟩⟩ hdue
  exact ⟨hall, k, y, p', hy, hp'.caughtUp hstays hend⟩

end Link

/-! ## Concrete links -/

namespace Scenario

/-- A window of entries with the given terms. -/
def window (first : ℕ) (hfirst : 1 ≤ first) (terms : List ℕ) (currentTerm : ℕ) : Log where
  firstIndex := first
  entries := terms.mapIdx fun j t => ⟨t, first + j, false, 0, [], 0, none⟩
  currentTerm := currentTerm
  voteFor := 0
  first_pos := hfirst
  indexed := by
    intro j e h
    rw [List.getElem?_mapIdx] at h
    obtain ⟨t, -, rfl⟩ := Option.map_eq_some_iff.mp h
    rfl

/-- Node `1` of three voters leads; node `2` has just started. -/
def link (L l : Log) (p : Peer) : Link where
  leader := { (threeVoters.start 1 ⟨0, 0⟩ .follower L).modifyPeer 2 fun _ => p with
    role := .leader, leaderId := 1 }
  follower := threeVoters.start 2 ⟨0, 0⟩ .follower l

theorem link_compatible {L l : Log} {p : Peer} (hterm : l.currentTerm ≤ L.currentTerm)
    (hmatching : L.Matching l) (hlt : p.matchIndex < p.nextIndex)
    (hle : p.nextIndex ≤ L.lastIndex + 1) : (link L l p).Compatible config p where
  ready := ⟨rfl, rfl, rfl, nofun, hterm, fun _ => Or.inl rfl⟩
  matching := hmatching
  committed := fun j hj e f he hf => by
    have hfirst : L.firstIndex ≤ j := Log.first_le_of_getEntry he
    exact absurd (L.first_pos.trans (hfirst.trans hj)) (show ¬ 1 ≤ 0 by decide)
  fit _ _ := show 1 ≤ 1000 by decide
  match_lt := hlt
  next_le := hle

/-- Rounds that are two milliseconds apart. -/
def pace (k : ℕ) : Round where
  send := ⟨2000000 * k, 1⟩
  receive := ⟨2000000 * k + 1, 1⟩
  answer := ⟨2000000 * k + 2, 1⟩
  segmentLast _ := 100

theorem pace_paces (k : ℕ) : (pace k).Paces config (pace (k + 1)) := by
  change max (2000000 * k + 1 * 1000000) (2000000 * k + 2) ≤ 2000000 * (k + 1)
  omega

theorem link_due {L l : Log} {p : Peer} (hp : p.nextAERequestTime = 0) :
    (link L l p).Due (pace 0) := by
  rintro q hq
  obtain rfl : p = q := Option.some.inj hq
  exact hp.le

end Scenario

end Gringofts
