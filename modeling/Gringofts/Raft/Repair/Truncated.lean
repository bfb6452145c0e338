import Gringofts.Raft.Repair.CatchUp

/-!
# Repair by a leader that has truncated its log

A leader that has lost the front of its log may look for a match where it has nothing to compare
with. The search halves the distance to index `0` and not to the first index it retains, so it can
step over the part of the log that both retain. What the follower makes of a probe below that part
decides what happens next: a follower that retains the index rejects, and the search starts over
from the end of its log; one that does not accepts, and the leader goes on sending nothing from
there.

Which of these happens is a matter of the two windows alone. The search is a walk on indices, and
the follower is repaired exactly if the first probe it accepts does not lie below the leader's
window.

## Main definitions

* `Log.nextProbe`, `Log.probe` — the walk
* `Log.FindsMatch` — the walk comes to a good end
* `Link.Searching`, `Link.Pinned` — nothing is known to match; the leader is stuck below its window

## Main results

* `truncated_leader_repairs_iff`
* `truncated_leader_never_repairs` — a search that goes in a circle
-/

namespace Gringofts

open Scenario

/-! ## The walk -/

namespace Log

variable (L l : Log) (maxDecrStep : ℕ)

/-- Where the leader looks after a rejected probe, when nothing is known to match: half the way
down, within the limit, or right after the follower's log if that is shorter. Below its own window
it starts over. -/
def nextProbe (next : ℕ) : ℕ :=
  if next ≤ L.firstIndex then Node.restartIndex L l.lastIndex
  else if l.lastIndex + 1 < next then l.lastIndex + 1
  else next - min (next / 2) maxDecrStep

/-- The `i`-th probe after the one at `next`, if all are rejected. -/
def probe (next i : ℕ) : ℕ := (L.nextProbe l maxDecrStep)^[i] next

/-- The `i`-th probe is the first that the follower accepts, and the leader can go on from it. -/
def FindsAfter (next i : ℕ) : Prop :=
  L.firstIndex ≤ L.probe l maxDecrStep next i ∧ L.Passes l (L.probe l maxDecrStep next i) ∧
    ∀ k < i, ¬ L.Passes l (L.probe l maxDecrStep next k)

/-- **The walk comes to a good end.** -/
def FindsMatch (next : ℕ) : Prop := ∃ i, L.FindsAfter l maxDecrStep next i

variable {L l maxDecrStep} {next i : ℕ}

theorem findsMatch_of_passes (hfirst : L.firstIndex ≤ next) (h : L.Passes l next) :
    L.FindsMatch l maxDecrStep next :=
  ⟨0, hfirst, h, nofun⟩

theorem findsAfter_succ_iff (hno : ¬ L.Passes l next) :
    L.FindsAfter l maxDecrStep next (i + 1) ↔
      L.FindsAfter l maxDecrStep (L.nextProbe l maxDecrStep next) i := by
  refine and_congr_right fun _ => and_congr_right fun _ => ⟨fun h k hk => ?_, fun h k hk => ?_⟩
  · exact h (k + 1) (Nat.succ_lt_succ hk)
  · cases k with
    | zero => exact hno
    | succ k => exact h k (Nat.lt_of_succ_lt_succ hk)

/-- A walk that is not at its end goes on from its second probe. -/
theorem findsMatch_iff_of_not_passes (hno : ¬ L.Passes l next) :
    L.FindsMatch l maxDecrStep next ↔
      L.FindsMatch l maxDecrStep (L.nextProbe l maxDecrStep next) := by
  refine ⟨?_, fun ⟨i, hi⟩ => ⟨i + 1, (findsAfter_succ_iff hno).mpr hi⟩⟩
  rintro ⟨i, hi⟩
  cases i with
  | zero => exact absurd hi.2.1 hno
  | succ i => exact ⟨i, (findsAfter_succ_iff hno).mp hi⟩

/-- Logs that do not differ anywhere are found to match. -/
theorem findsMatch_of_agrees {j : ℕ} {e f : LogEntry} (he : L.getEntry j = some e)
    (hf : l.getEntry j = some f) (hag : L.AgreesUpTo l L.lastIndex)
    (hfirst : L.firstIndex ≤ next) (hlast : next ≤ L.lastIndex + 1) :
    L.FindsMatch l maxDecrStep next := by
  have hL := first_le_of_getEntry he
  have hL' := last_ge_of_getEntry he
  have hl := last_ge_of_getEntry hf
  have hpass : ∀ n, L.firstIndex < n → n ≤ L.lastIndex + 1 → n ≤ l.lastIndex + 1 → L.Passes l n :=
    fun n h1 h2 h3 => accepts_of_agrees (by omega) (by omega) (by omega) (hag.mono (by omega))
  by_cases hok : L.Passes l next
  · exact findsMatch_of_passes hfirst hok
  -- one step takes the walk to the end of the shorter log
  have hstep : L.nextProbe l maxDecrStep next = min l.lastIndex L.lastIndex + 1 := by
    rw [nextProbe]
    split
    · rw [Node.restartIndex, if_neg (by omega)]
    · split
      · omega
      · exact absurd (hpass next (by omega) hlast (by omega)) hok
  rw [findsMatch_iff_of_not_passes hok, hstep]
  exact findsMatch_of_passes (by omega) (hpass _ (by omega) (by omega) (by omega))

variable {l' : Log} (h : l.SameWindow l')
include h

theorem SameWindow.passes_iff {n : ℕ} : L.Passes l' n ↔ L.Passes l n := h.accepts_iff

theorem SameWindow.nextProbe_eq : L.nextProbe l' maxDecrStep = L.nextProbe l maxDecrStep := by
  funext n
  rw [nextProbe, nextProbe, h.lastIndex_eq]

theorem SameWindow.findsAfter_iff :
    L.FindsAfter l' maxDecrStep next i ↔ L.FindsAfter l maxDecrStep next i := by
  simp only [FindsAfter, probe, h.nextProbe_eq, h.passes_iff]

end Log

/-! ## The search follows the walk -/

namespace Link

/-- Nothing is known to match. -/
structure Searching (cfg : RaftConfig) (x : Link) (p : Peer) : Prop where
  compatible : x.Compatible cfg p
  match_eq : p.matchIndex = 0
  suppress_eq : p.suppressBulkData = true

/-- The follower has accepted a probe below the leader's window. -/
structure Pinned (cfg : RaftConfig) (x : Link) (p : Peer) : Prop where
  compatible : x.Compatible cfg p
  next_lt : p.nextIndex < x.leader.log.firstIndex
  passes : x.leader.log.Passes x.follower.log p.nextIndex

variable {cfg cfg' : RaftConfig} {rd : Round} {x : Link} {p : Peer}

/-- A rejected probe moves the search one step along the walk. -/
theorem Searching.reject (cfg' : RaftConfig) (h : x.Searching cfg p) (hdue : x.Due rd)
    (hno : ¬ x.leader.log.Passes x.follower.log p.nextIndex) :
    ∃ y p', x.Exchanges cfg cfg' rd y ∧ y.Searching cfg p' ∧
      p'.nextIndex = x.leader.log.nextProbe x.follower.log cfg.maxDecrStep p.nextIndex ∧
      x.follower.log.SameWindow y.follower.log := by
  have hfirst := x.leader.log.first_pos
  have hmatch := h.match_eq
  obtain ⟨y, p', hround, hy, hrej, hwindow⟩ := h.compatible.reject cfg' hdue hno (by omega)
  rw [Log.nextProbe]
  split
  · next hle =>
    obtain ⟨hnext, hmatch', hsup⟩ := hrej.truncated (by omega) hle
    exact ⟨y, p', hround, ⟨hy, hmatch', hsup⟩, hnext, hwindow⟩
  · next hlt =>
    obtain ⟨hnext, hmatch', hsup⟩ := hrej.decreased (by omega) (by omega)
    refine ⟨y, p', hround, ⟨hy, hmatch'.trans hmatch, hsup.trans h.suppress_eq⟩, ?_, hwindow⟩
    rw [hnext, Node.decreasedIndex, hmatch, Nat.sub_zero]

/-- An accepted probe below the window brings nothing, and the leader stays where it is. -/
theorem Compatible.pin (cfg' : RaftConfig) (h : x.Compatible cfg p) (hdue : x.Due rd)
    (hlt : p.nextIndex < x.leader.log.firstIndex)
    (hok : x.leader.log.Passes x.follower.log p.nextIndex) :
    ∃ y p', x.Exchanges cfg cfg' rd y ∧ y.Pinned cfg p' ∧
      x.follower.log.SameWindow y.follower.log := by
  have hpos := h.match_lt
  have hle := h.next_le
  obtain ⟨y, p', k, hround, hy, hacc, htakes⟩ := h.accept cfg' hdue hok
    (Log.agrees_of_accepts h.matching (by omega) hok)
  obtain rfl := hacc.zero (Or.inr hlt)
  have hnext : p'.nextIndex = p.nextIndex := by
    rw [hacc.next_eq, hacc.match_eq]
    omega
  have hwindow := htakes.sameWindow
  refine ⟨y, p', hround, ⟨hy, ?_, ?_⟩, hwindow⟩
  · rw [hnext, hround.stays.office.log_eq]
    exact hlt
  · rw [hnext, hround.stays.office.log_eq]
    exact hwindow.passes_iff.mpr hok

/-- **The search for a match that is found**: every round brings it nearer. -/
theorem Searching.step_of_findsAfter (cfg' : RaftConfig) {i : ℕ} (h : x.Searching cfg p)
    (hi : x.leader.log.FindsAfter x.follower.log cfg.maxDecrStep p.nextIndex i) (hdue : x.Due rd) :
    ∃ y p', x.Exchanges cfg cfg' rd y ∧ (y.Settled cfg p' ∨ ∃ i' < i, y.Searching cfg p' ∧
      y.leader.log.FindsAfter y.follower.log cfg.maxDecrStep p'.nextIndex i') := by
  cases i with
  | zero =>
    obtain ⟨y, p', k, hround, hy, -⟩ := h.compatible.settle cfg' hdue hi.1 hi.2.1
    exact ⟨y, p', hround, Or.inl hy⟩
  | succ i =>
    have hno := hi.2.2 0 (Nat.succ_pos i)
    obtain ⟨y, p', hround, hy, hnext, hwindow⟩ := h.reject cfg' hdue hno
    refine ⟨y, p', hround, Or.inr ⟨i, Nat.lt_succ_self i, hy, ?_⟩⟩
    rw [hround.stays.office.log_eq, hnext, hwindow.findsAfter_iff]
    exact (Log.findsAfter_succ_iff hno).mp hi

/-- **The search for a match that is not found**: it goes on, or it ends below the window. -/
inductive Lost (cfg : RaftConfig) (x : Link) (p : Peer) : Prop
  | searching (h : x.Searching cfg p)
    (hno : ¬ x.leader.log.FindsMatch x.follower.log cfg.maxDecrStep p.nextIndex)
  | pinned (h : x.Pinned cfg p)

theorem Lost.step (cfg' : RaftConfig) (h : x.Lost cfg p) (hdue : x.Due rd) :
    ∃ y p', x.Exchanges cfg cfg' rd y ∧ y.Lost cfg p' ∧
      x.follower.log.SameWindow y.follower.log := by
  cases h with
  | pinned h =>
    obtain ⟨y, p', hround, hy, hwindow⟩ := h.compatible.pin cfg' hdue h.next_lt h.passes
    exact ⟨y, p', hround, .pinned hy, hwindow⟩
  | searching h hno =>
    by_cases hok : x.leader.log.Passes x.follower.log p.nextIndex
    · have hlt : p.nextIndex < x.leader.log.firstIndex :=
        Nat.lt_of_not_le fun hle => hno (Log.findsMatch_of_passes hle hok)
      obtain ⟨y, p', hround, hy, hwindow⟩ := h.compatible.pin cfg' hdue hlt hok
      exact ⟨y, p', hround, .pinned hy, hwindow⟩
    · obtain ⟨y, p', hround, hy, hnext, hwindow⟩ := h.reject cfg' hdue hok
      refine ⟨y, p', hround, .searching hy fun ⟨i, hi⟩ => hno ?_, hwindow⟩
      rw [hround.stays.office.log_eq, hnext, hwindow.findsAfter_iff] at hi
      exact (Log.findsMatch_iff_of_not_passes hok).mpr ⟨i, hi⟩

variable {rds : ℕ → Round} (hdue : x.Due (rds 0)) (hpace : ∀ k, (rds k).Paces cfg (rds (k + 1)))
include hdue hpace

/-- **The follower of a search without end stays as it is.** -/
theorem Lost.rounds_sameWindow (cfg' : RaftConfig) (h : x.Lost cfg p) (k : ℕ) :
    ∃ y, rounds (exchange cfg cfg') rds k x = .ok y ∧ y.leader.log = x.leader.log ∧
      x.follower.log.SameWindow y.follower.log := by
  obtain ⟨y, hy, hstays, hwindow, -⟩ := rounds_ok
    (P := fun y => x.Stays y ∧ x.follower.log.SameWindow y.follower.log ∧ ∃ p, y.Lost cfg p)
    (fun rd y hy hdue => by
      obtain ⟨hstays, hwindow, p, hlost⟩ := hy
      obtain ⟨z, p', hround, hz, hwindow'⟩ := hlost.step cfg' hdue
      exact ⟨z, hround.exchange_eq, ⟨hstays.trans hround.stays, hwindow.trans hwindow', p', hz⟩,
        hround.due⟩)
    hpace ⟨.refl x, .refl _, p, h⟩ hdue k
  exact ⟨y, hy, hstays.office.log_eq, hwindow⟩

end Link

/-! ## The law -/

section Law

variable {cfg cfg' : RaftConfig} {rds : ℕ → Round} {x : Link} {p : Peer}

/-- **Repair by a leader that has truncated its log.** Nothing is known to match, and the logs agree
somewhere. No round fails an assertion. If the walk from the next index comes to a good end, the
follower is repaired; otherwise its log never changes, and it differs from the leader's. -/
theorem truncated_leader_repairs_iff {j : ℕ} {e : LogEntry} (h : x.Compatible cfg p)
    (hnext : x.leader.log.firstIndex ≤ p.nextIndex) (hmatch : p.matchIndex = 0)
    (hsup : p.suppressBulkData = true) (hL : x.leader.log.getEntry j = some e)
    (hl : x.follower.log.getEntry j = some e) (hdue : x.Due (rds 0))
    (hpace : ∀ k, (rds k).Paces cfg (rds (k + 1))) :
    (∀ k, ∃ y, rounds (Link.exchange cfg cfg') rds k x = .ok y) ∧
      (x.leader.log.FindsMatch x.follower.log cfg.maxDecrStep p.nextIndex →
        ∃ k y p', rounds (Link.exchange cfg cfg') rds k x = .ok y ∧ x.CaughtUp y p') ∧
      (¬ x.leader.log.FindsMatch x.follower.log cfg.maxDecrStep p.nextIndex →
        ∀ k y, rounds (Link.exchange cfg cfg') rds k x = .ok y →
          (∀ i, y.follower.log.getEntry i = x.follower.log.getEntry i) ∧
          ¬ x.leader.log.AgreesUpTo y.follower.log x.leader.log.lastIndex) := by
  by_cases hfind : x.leader.log.FindsMatch x.follower.log cfg.maxDecrStep p.nextIndex
  · obtain ⟨i, hi⟩ := hfind
    obtain ⟨hall, hup⟩ := Link.repairs_of_search
      (I := fun i x p => x.Searching cfg p ∧
        x.leader.log.FindsAfter x.follower.log cfg.maxDecrStep p.nextIndex i)
      (fun rd i x p hx hdue => hx.1.step_of_findsAfter cfg' hx.2 hdue)
      ⟨⟨h, hmatch, hsup⟩, hi⟩ hdue hpace
    exact ⟨hall, fun _ => hup, fun hno => absurd ⟨i, hi⟩ hno⟩
  · have hlost := Link.Lost.rounds_sameWindow hdue hpace cfg' (.searching ⟨h, hmatch, hsup⟩ hfind)
    refine ⟨fun k => (hlost k).imp fun y hy => hy.1, fun hyes => absurd hyes hfind,
      fun _ k y hy => ?_⟩
    obtain ⟨z, hz, -, hwindow⟩ := hlost k
    obtain rfl := Except.ok.inj (hy.symm.trans hz)
    refine ⟨hwindow.getEntry_eq, fun hag => hfind ?_⟩
    refine Log.findsMatch_of_agrees hL hl (fun i hi e f he hf => hag i hi e f he ?_) hnext h.next_le
    rw [hwindow.getEntry_eq]
    exact hf

end Law

/-- Both nodes retain the indices from `3` on. Node `1` has the terms `1, 2, 2` there and node `2`
the terms `1, 1`; the probes are at `6`, `5` and `3`. -/
theorem truncated_leader_repairs_iff_boundary :
    ∃ k y, rounds (Link.exchange config config) pace k
        (link (window 3 (by decide) [1, 2, 2] 2)
          (window 3 (by decide) [1, 1] 1) { address := "b", nextIndex := 6 }) = .ok y ∧
      ∀ i, 3 ≤ i → i ≤ 5 → y.follower.log.getEntry i =
        (window 3 (by decide) [1, 2, 2] 2).getEntry i := by
  obtain ⟨k, y, p', hy, hup⟩ := (truncated_leader_repairs_iff (j := 3)
    (link_compatible (L := window 3 (by decide) [1, 2, 2] 2)
      (l := window 3 (by decide) [1, 1] 1)
      (p := { address := "b", nextIndex := 6 }) (by decide) (by decide) (by decide) (by decide))
    (by decide) rfl rfl rfl rfl (link_due rfl) pace_paces).2.1
    ⟨2, by decide, by decide, by decide⟩
  exact ⟨k, y, hy, fun i hfirst hlast => hup.getEntry_eq i hfirst hfirst hlast⟩

/-- Node `1` retains the indices `3` and `4`, with the terms `1` and `2`; node `2` has the indices
`1` to `4`, all of term `1`. -/
def Scenario.circle : Link :=
  link (window 3 (by decide) [1, 2] 2) (window 1 Nat.zero_lt_one [1, 1, 1, 1] 1)
    { address := "b", nextIndex := 5 }

theorem Scenario.circle_probe (i : ℕ) :
    circle.leader.log.probe circle.follower.log config.maxDecrStep 5 i = 5 ∨
      circle.leader.log.probe circle.follower.log config.maxDecrStep 5 i = 3 := by
  induction i with
  | zero => exact Or.inl rfl
  | succ i ih =>
    rw [Log.probe, Function.iterate_succ_apply']
    rcases ih with h | h
    · rw [Log.probe] at h
      rw [h]
      exact Or.inr (by decide)
    · rw [Log.probe] at h
      rw [h]
      exact Or.inl (by decide)

/-- **A search that goes in a circle**: the logs agree at index `3`, but the leader probes only at
`5`, where the terms differ, and at `3`, where it has nothing to compare with. -/
theorem truncated_leader_never_repairs :
    ∃ p, circle.Compatible config p ∧
      1 < circle.leader.log.firstIndex ∧
      p.nextIndex = circle.leader.log.lastIndex + 1 ∧ p.matchIndex = 0 ∧
      p.suppressBulkData = true ∧
      (∃ e, circle.leader.log.getEntry 3 = some e ∧
        circle.follower.log.getEntry 3 = some e) ∧
      ∀ k, ∃ y, rounds (Link.exchange config config) pace k
          circle = .ok y ∧ y.leader.log = circle.leader.log ∧
        ¬ y.leader.log.AgreesUpTo y.follower.log y.leader.log.lastIndex := by
  have hcompatible := link_compatible (L := window 3 (by decide) [1, 2] 2)
    (l := window 1 (by decide) [1, 1, 1, 1] 1)
    (p := { address := "b", nextIndex := 5 }) (by decide) (by decide) (by decide) (by decide)
  have hlost : circle.Lost config { address := "b", nextIndex := 5 } := by
    refine .searching ⟨hcompatible, rfl, rfl⟩ ?_
    rintro ⟨i, -, hok, -⟩
    rcases circle_probe i with h | h
    · rw [h] at hok
      exact absurd hok (by decide)
    · rw [h] at hok
      exact absurd hok (by decide)
  refine ⟨_, hcompatible, by decide, by decide, rfl, rfl, ⟨_, rfl, rfl⟩, fun k => ?_⟩
  obtain ⟨y, hy, hlog, hwindow⟩ := hlost.rounds_sameWindow (link_due rfl)
    pace_paces config k
  refine ⟨y, hy, hlog, fun hag => ?_⟩
  have hag' : circle.leader.log.AgreesUpTo circle.follower.log 4 := by
    intro i hi e f he hf
    exact hag i (hlog ▸ hi) e f (hlog ▸ he) (hwindow.getEntry_eq i ▸ hf)
  exact absurd hag' (by decide)

end Gringofts
