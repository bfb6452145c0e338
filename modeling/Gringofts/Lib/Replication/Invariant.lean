import Gringofts.Lib.Replication.State
import Mathlib.Tactic.ByContra

/-!
# The invariant of leader-based replication

One structure, `Protocol.Inv`, says everything that is true of every reachable state, and the
safety theorems are read off it. Its fields fall into four groups.

* **Ballots.** A ballot is backed by the voter's term and register; a candidate stands with a log
  of earlier terms; a term is won by an electing set of early ballots.
* **Logs.** Every log is *rooted*: at each of its entries it agrees with the log of the leader of
  that entry's term. Log matching is a consequence, because two logs with the same term at an
  index are both prefixes of one leader's log there.
* **Acknowledgements.** A node that acknowledged a leader up to `i` still holds that prefix
  unless some later leader was elected without it. The proviso is what makes the statement
  inductive: whether `i` is going to be committed is not known yet when the node moves on.
* **Commitment.** What a node has counted as committed is in its log and is a prefix of what a
  leader of no later term has committed.

The proviso in the third group is discharged by `Inv.leader_completeness`: for a committed index
no such leader exists.

## Main results

* `Protocol.Inv.log_matching` — same index and term, same prefix
* `Protocol.Inv.leader_completeness` — a committed prefix is in the log of every later leader
-/

namespace Gringofts

namespace Replication

namespace Protocol

variable {ι ε : Type} {P : Protocol ι ε}

/-- At each of its entries the log agrees with the log of the leader of that entry's term. -/
def Rooted (P : Protocol ι ε) (s : State ι ε) (l : List ε) : Prop :=
  ∀ i, 1 ≤ i → i ≤ l.length →
    s.leader (termAt P.term l i) ≠ none ∧ Agree l (s.llog (termAt P.term l i)) i

/-- No leader elected in a term between `t` and `u` is without the first `i` entries of the
leader of `t`. -/
def Carried (s : State ι ε) (t u i : ℕ) : Prop :=
  ∀ v, t < v → v ≤ u → s.leader v ≠ none → Agree (s.elog v) (s.llog t) i

theorem Carried.mono {s : State ι ε} {t u v i : ℕ} (h : Carried s t v i) (huv : u ≤ v) :
    Carried s t u i :=
  fun w htw hwu hl => h w htw (hwu.trans huv) hl

/-- **The invariant.** -/
structure Inv (P : Protocol ι ε) (s : State ι ε) : Prop where
  /-- Nobody wins term `0`. -/
  leader_zero : s.leader 0 = none
  /-- A ballot is backed by the voter's term and, while that term lasts, its register. -/
  ballot_vote : ∀ {t n c}, s.ballot t n = some c →
    t ≤ s.term n ∧ (t = s.term n → s.vote n = some c)
  /-- A candidate has reached the term it stands in, and its log is of earlier terms. -/
  cand_terms : ∀ {t n l}, s.cand t n = some l →
    (0 < t ∧ t ≤ s.term n) ∧ ∀ e ∈ l, P.term e < t
  /-- A candidate's log is rooted. -/
  cand_rooted : ∀ {t n l}, s.cand t n = some l → P.Rooted s l
  /-- An early ballot is a ballot for a candidate whose log is as up to date as the voter's. -/
  early_ballot : ∀ {t n m}, s.early t n = some m → ∃ c l, s.ballot t n = some c ∧
    s.cand t c = some l ∧ P.UpToDate l m
  /-- The log of an early voter is rooted. -/
  early_rooted : ∀ {t n m}, s.early t n = some m → P.Rooted s m
  /-- An early voter's log held what the voter had acknowledged, unless a leader in between was
  elected without it. -/
  early_ack : ∀ {t' n m}, s.early t' n = some m → ∀ t, t < t' → ∀ i, i ≤ s.ack t n →
    Carried s t (t' - 1) i → Agree m (s.llog t) i
  /-- In an open term every ballot is early. -/
  ballot_early : ∀ {t n c}, s.ballot t n = some c → s.leader t = none → s.early t n ≠ none
  /-- A winner stood with the log it won with, and was elected by early ballots. -/
  leader_elected : ∀ {t c}, s.leader t = some c → s.cand t c = some (s.elog t) ∧
    ∃ E, P.elects E ∧ ∀ n ∈ E, s.ballot t n = some c ∧ s.early t n ≠ none
  /-- A leader's log is the one it won with, followed by entries of its own term. -/
  llog_elog : ∀ t, ∃ x, s.llog t = s.elog t ++ x ∧ ∀ e ∈ x, P.term e = t
  /-- An open term has no leader log. -/
  llog_open : ∀ {t}, s.leader t = none → s.llog t = []
  /-- A leader's log is rooted. -/
  llog_rooted : ∀ t, P.Rooted s (s.llog t)
  /-- While it stays in its term, a leader holds the leader's log. -/
  leader_log : ∀ {t c}, s.leader t = some c → t = s.term c → s.log c = s.llog t
  /-- Entries are not from the future. -/
  log_terms : ∀ {n e}, e ∈ s.log n → P.term e ≤ s.term n
  /-- Every log is rooted. -/
  log_rooted : ∀ n, P.Rooted s (s.log n)
  /-- An acknowledgement stays within the leader's log and within the terms reached. -/
  ack_le : ∀ t n, s.ack t n ≤ (s.llog t).length ∧ (0 < s.ack t n → t ≤ s.term n)
  /-- A node still holds what it acknowledged, unless a later leader was elected without it. -/
  ack_log : ∀ {t n i}, i ≤ s.ack t n → Carried s t (s.term n) i →
    Agree (s.log n) (s.llog t) i
  /-- A leader has acknowledged its own log. -/
  leader_ack : ∀ {t c}, s.leader t = some c → (s.llog t).length ≤ s.ack t c
  /-- What a node counted as committed is in its log and committed by a leader of no later
  term. -/
  committed_log : ∀ n, s.committed n = 0 ∨ ∃ t i, t ≤ s.term n ∧ P.Committed s t i ∧
    s.committed n ≤ i ∧ Agree (s.log n) (s.llog t) (s.committed n)

theorem rooted_nil (P : Protocol ι ε) (s : State ι ε) : P.Rooted s [] := by
  intro i h1 hi
  simp only [List.length_nil] at hi
  omega

theorem inv_init (P : Protocol ι ε) : P.Inv (State.init ι ε) where
  leader_zero := rfl
  ballot_vote := fun h => by simp [State.init] at h
  cand_terms := fun h => by simp [State.init] at h
  cand_rooted := fun h => by simp [State.init] at h
  early_ballot := fun h => by simp [State.init] at h
  early_rooted := fun h => by simp [State.init] at h
  early_ack := fun h => by simp [State.init] at h
  ballot_early := fun h => by simp [State.init] at h
  leader_elected := fun h => by simp [State.init] at h
  llog_elog := fun _ => ⟨[], rfl, by simp⟩
  llog_open := fun _ => rfl
  llog_rooted := fun _ => rooted_nil P _
  leader_log := fun h => by simp [State.init] at h
  log_terms := fun h => by simp [State.init] at h
  log_rooted := fun _ => rooted_nil P _
  ack_le := fun _ _ => ⟨Nat.le_refl _, fun h => absurd h (Nat.lt_irrefl 0)⟩
  ack_log := fun {_ _ i} hi _ => by
    have h0 : i = 0 := Nat.le_zero.mp hi
    subst h0
    exact agree_zero _ _
  leader_ack := fun h => by simp [State.init] at h
  committed_log := fun _ => Or.inl rfl

/-! ## Rooted logs -/

variable {s s' : State ι ε} {l m : List ε} {t t' i : ℕ}

theorem Rooted.agree_last (h : P.Rooted s l) (hl : 1 ≤ l.length) :
    Agree l (s.llog (termAt P.term l l.length)) l.length :=
  (h l.length hl (Nat.le_refl _)).2

theorem Rooted.take (h : P.Rooted s l) (k : ℕ) : P.Rooted s (l.take k) := by
  intro i h1 hi
  have hi' : i ≤ k ∧ i ≤ l.length := by simpa using hi
  have hag : Agree (l.take k) l i := (Agree.refl hi'.2).take_left hi'.1
  rw [hag.termAt_eq (Nat.le_refl i)]
  obtain ⟨hlead, hroot⟩ := h i h1 hi'.2
  exact ⟨hlead, hag.trans hroot⟩

theorem Rooted.of_isPrefix (h : P.Rooted s m) (hp : l <+: m) : P.Rooted s l := by
  rw [List.prefix_iff_eq_take.mp hp]
  exact h.take _

/-- **Log matching**, for rooted logs: the same term at an index, the same log up to it. -/
theorem Rooted.agree (hl : P.Rooted s l) (hm : P.Rooted s m) (h1 : 1 ≤ i) (hil : i ≤ l.length)
    (him : i ≤ m.length) (ht : termAt P.term l i = termAt P.term m i) : Agree l m i := by
  have h := (hl i h1 hil).2
  rw [ht] at h
  exact h.trans (hm i h1 him).2.symm

namespace Inv

variable (h : P.Inv s)
include h

theorem leader_le {c : ι} (hl : s.leader t = some c) : t ≤ s.term c :=
  (h.cand_terms (h.leader_elected hl).1).1.2

theorem elog_le : (s.elog t).length ≤ (s.llog t).length := by
  obtain ⟨x, hx, -⟩ := h.llog_elog t
  rw [hx, List.length_append]
  exact Nat.le_add_right _ _

theorem elog_agree (hi : i ≤ (s.elog t).length) : Agree (s.llog t) (s.elog t) i := by
  obtain ⟨x, hx, -⟩ := h.llog_elog t
  rw [hx]
  exact (Agree.refl hi).append_left

theorem elog_terms (hl : s.leader t ≠ none) {e : ε} (he : e ∈ s.elog t) : P.term e < t := by
  obtain ⟨c, hc⟩ := Option.ne_none_iff_exists'.mp hl
  exact (h.cand_terms (h.leader_elected hc).1).2 e he

/-- Entries of a leader's log are of its own term or earlier. -/
theorem llog_terms (hl : s.leader t ≠ none) {e : ε} (he : e ∈ s.llog t) : P.term e ≤ t := by
  obtain ⟨x, hx, hxt⟩ := h.llog_elog t
  rw [hx] at he
  rcases List.mem_append.mp he with he | he
  · exact (h.elog_terms hl he).le
  · exact (hxt e he).le

theorem llog_termAt_le (hl : s.leader t ≠ none) (i : ℕ) : termAt P.term (s.llog t) i ≤ t := by
  rw [termAt]
  cases he : entryAt (s.llog t) i with
  | none => exact Nat.zero_le t
  | some e => exact h.llog_terms hl (entryAt_mem he)

/-- An entry of the leader's own term lies above the log it was elected with. -/
theorem elog_lt_of_termAt (hl : s.leader t ≠ none) (ht : termAt P.term (s.llog t) i = t)
    (h1 : 1 ≤ i) : (s.elog t).length < i := by
  by_contra hle
  have hle : i ≤ (s.elog t).length := by omega
  obtain ⟨e, he⟩ := exists_entryAt h1 hle
  have hlt := h.elog_terms hl (entryAt_mem he)
  rw [(h.elog_agree hle).termAt_eq (Nat.le_refl i), termAt_of_entryAt he] at ht
  omega

theorem termAt_pos (hr : P.Rooted s l) (h1 : 1 ≤ i) (hi : i ≤ l.length) :
    0 < termAt P.term l i := by
  rcases Nat.eq_zero_or_pos (termAt P.term l i) with h0 | h0
  · have := (hr i h1 hi).1
    rw [h0] at this
    exact absurd h.leader_zero this
  · exact h0

/-- A rooted log that reaches into a leader's log ends in that leader's term or a later one. -/
theorem le_lastTerm (hr : P.Rooted s m) (h1 : 1 ≤ i) (ha : Agree m (s.llog t) i)
    (ht : termAt P.term (s.llog t) i = t) : t ≤ termAt P.term m m.length := by
  have hlen : 1 ≤ m.length := h1.trans ha.le_left
  obtain ⟨hlead, hlast⟩ := hr m.length hlen (Nat.le_refl _)
  have hti : termAt P.term (s.llog (termAt P.term m m.length)) i = t := by
    rw [← hlast.termAt_eq ha.le_left, ha.termAt_eq (Nat.le_refl i), ht]
  have hle := h.llog_termAt_le hlead i
  rwa [hti] at hle

/-- **A term is won once.** Two electing sets meet, and nobody votes twice. -/
theorem leader_open {n : ι} {E : Finset ι} (hl : s.leader (s.term n) ≠ some n)
    (hE : P.elects E) (hb : ∀ v ∈ E, s.ballot (s.term n) v = some n) :
    s.leader (s.term n) = none := by
  by_contra hne
  obtain ⟨c, hlc⟩ := Option.ne_none_iff_exists'.mp hne
  obtain ⟨-, E', hE', hEb'⟩ := h.leader_elected hlc
  obtain ⟨v, hv, hv'⟩ := P.elects_elects hE hE'
  have hcn : c = n := Option.some.inj ((hEb' v hv').1.symm.trans (hb v hv))
  exact hl (hcn ▸ hlc)

/-- Nobody has acknowledged anything in an open term. -/
theorem ack_open (hopen : s.leader t = none) (v : ι) : s.ack t v = 0 := by
  have hle := (h.ack_le t v).1
  rw [h.llog_open hopen] at hle
  exact Nat.le_zero.mp hle

/-- **Log matching.** -/
theorem log_matching {n v : ι} (h1 : 1 ≤ i) (hn : i ≤ (s.log n).length)
    (hv : i ≤ (s.log v).length) (ht : termAt P.term (s.log n) i = termAt P.term (s.log v) i) :
    Agree (s.log n) (s.log v) i :=
  (h.log_rooted n).agree (h.log_rooted v) h1 hn hv ht

/-! ## Leader completeness -/

/-- An up-to-date log carries a prefix that the other log holds, when every leader in between
does. -/
theorem agree_of_upToDate {u : ℕ} (hl : P.Rooted s l) (hm : P.Rooted s m)
    (hlt : ∀ e ∈ l, P.term e ≤ u) (hu : P.UpToDate l m) (h1 : 1 ≤ i)
    (ht : termAt P.term (s.llog t) i = t) (ha : Agree m (s.llog t) i) (hc : Carried s t u i) :
    Agree l (s.llog t) i := by
  have hmt : t ≤ termAt P.term m m.length := h.le_lastTerm hm h1 ha ht
  rcases hu with hgt | ⟨heq, hlen⟩
  · -- the last entry of `l` is of a later term, whose leader was elected with the prefix
    have hpos : 1 ≤ l.length := by
      by_contra hl0
      have : l = [] := List.eq_nil_of_length_eq_zero (by omega)
      subst this
      simp at hgt
    obtain ⟨hlead, hlast⟩ := hl l.length hpos (Nat.le_refl _)
    obtain ⟨e, he⟩ := exists_entryAt hpos (Nat.le_refl l.length)
    have hle : termAt P.term l l.length ≤ u := by
      rw [termAt_of_entryAt he]
      exact hlt e (entryAt_mem he)
    have hel := hc _ (by omega) hle hlead
    have hshort := h.elog_lt_of_termAt hlead (hlast.termAt_eq (Nat.le_refl _)).symm hpos
    have hi : i ≤ l.length := hel.le_left.trans hshort.le
    exact (hlast.mono hi).trans ((h.elog_agree hel.le_left).trans hel)
  · -- both logs end in the same leader's log, and `l` is no shorter
    have hml : 1 ≤ m.length := h1.trans ha.le_left
    have hl' := hl.agree_last (hml.trans hlen)
    rw [heq] at hl'
    have hlm : Agree l m m.length := (hl'.mono hlen).trans (hm.agree_last hml).symm
    exact (hlm.mono ha.le_left).trans ha

theorem committed_pos (hc : P.Committed s t i) : 1 ≤ i := by
  rcases Nat.eq_zero_or_pos i with h0 | h0
  · have ht := hc.2.2.1
    rw [h0, termAt_zero] at ht
    have hlead := hc.1
    rw [← ht] at hlead
    exact absurd h.leader_zero hlead
  · exact h0

/-- **Leader completeness.** A committed prefix is in the log every later leader was elected
with. The induction is on the later term: the voter in which the two quorums meet held the prefix
when it voted, because every leader in between already had it. -/
theorem leader_completeness (hc : P.Committed s t i) :
    ∀ t', t < t' → s.leader t' ≠ none → Agree (s.elog t') (s.llog t) i := by
  have h1 := h.committed_pos hc
  obtain ⟨-, -, hti, C, hC, hack⟩ := hc
  intro t'
  induction t' using Nat.strong_induction_on with
  | _ t' ih =>
    intro htt' hl
    obtain ⟨c, hlc⟩ := Option.ne_none_iff_exists'.mp hl
    obtain ⟨hcand, E, hE, hEb⟩ := h.leader_elected hlc
    obtain ⟨n, hnE, hnC⟩ := P.elects_commits hE hC
    obtain ⟨hbal, hearly⟩ := hEb n hnE
    obtain ⟨m, hm⟩ := Option.ne_none_iff_exists'.mp hearly
    have hcarried : Carried s t (t' - 1) i := fun v htv hv hlv => ih v (by omega) htv hlv
    have hvoter := h.early_ack hm t htt' i (hack n hnC) hcarried
    obtain ⟨c', l, hb', hc', hu⟩ := h.early_ballot hm
    have hcc : c' = c := Option.some.inj (hb'.symm.trans hbal)
    subst hcc
    have hlel : l = s.elog t' := Option.some.inj (hc'.symm.trans hcand)
    subst hlel
    refine h.agree_of_upToDate (u := t' - 1) (h.cand_rooted hcand) (h.early_rooted hm) ?_ hu h1
      hti hvoter hcarried
    intro e he
    have := (h.cand_terms hcand).2 e he
    omega

/-- The same for the leader's log as far as it has grown, from the committing term on. -/
theorem committed_agree_llog (hc : P.Committed s t i) (htt : t ≤ t') (hl : s.leader t' ≠ none) :
    Agree (s.llog t') (s.llog t) i := by
  rcases Nat.lt_or_eq_of_le htt with hlt | rfl
  · have hel := h.leader_completeness hc t' hlt hl
    exact (h.elog_agree hel.le_left).trans hel
  · exact Agree.refl hc.2.1

/-- What a node has counted as committed is in the log of every leader of its term or a later
one. -/
theorem committed_agree {n : ι} (htt : s.term n ≤ t) (hl : s.leader t ≠ none) :
    Agree (s.log n) (s.llog t) (s.committed n) := by
  rcases h.committed_log n with h0 | ⟨u, i, hu, hc, hi, ha⟩
  · rw [h0]
    exact agree_zero _ _
  · exact ha.trans ((h.committed_agree_llog hc (hu.trans htt) hl).mono hi).symm

theorem committed_le (n : ι) : s.committed n ≤ (s.log n).length := by
  rcases h.committed_log n with h0 | ⟨u, i, hu, hc, hi, ha⟩
  · rw [h0]
    exact Nat.zero_le _
  · exact ha.le_left

/-- **State machine safety.** Two nodes agree on what both have counted as committed. -/
theorem committed_agree_committed (n v : ι) :
    Agree (s.log n) (s.log v) (min (s.committed n) (s.committed v)) := by
  rcases h.committed_log n with h0 | ⟨t, i, ht, hc, hi, ha⟩
  · rw [h0, Nat.zero_min]
    exact agree_zero _ _
  rcases h.committed_log v with h0 | ⟨t', i', ht', hc', hi', ha'⟩
  · rw [h0, Nat.min_zero]
    exact agree_zero _ _
  have hn := ha.mono (Nat.min_le_left (s.committed n) (s.committed v))
  have hv := ha'.mono (Nat.min_le_right (s.committed n) (s.committed v))
  rcases Nat.le_total t t' with hle | hle
  · have hll := (h.committed_agree_llog hc hle hc'.1).mono
      ((Nat.min_le_left _ (s.committed v)).trans hi)
    exact hn.trans (hll.symm.trans hv.symm)
  · have hll := (h.committed_agree_llog hc' hle hc.1).mono
      ((Nat.min_le_right (s.committed n) _).trans hi')
    exact hn.trans (hll.trans hv.symm)

/-- What `n` still holds of an earlier leader's log, it shares with the leader of its current
term. -/
theorem agree_current {n : ι} (hl : s.leader (s.term n) ≠ none) (hi : i ≤ s.ack t n)
    (hcar : Carried s t (s.term n) i) : Agree (s.log n) (s.llog (s.term n)) i := by
  have ha := h.ack_log hi hcar
  rcases Nat.eq_zero_or_pos i with rfl | hpos
  · exact agree_zero _ _
  rcases Nat.lt_or_eq_of_le ((h.ack_le t n).2 (hpos.trans_le hi)) with hlt | rfl
  · have hel := hcar (s.term n) hlt (Nat.le_refl _) hl
    exact ha.trans ((h.elog_agree hel.le_left).trans hel).symm
  · exact ha

/-- An empty register, or one naming `c`, backs no ballot for anyone else. -/
theorem ballot_of_vote {n c : ι} (hv : s.vote n = none ∨ s.vote n = some c) :
    s.ballot (s.term n) n = none ∨ s.ballot (s.term n) n = some c := by
  cases hb : s.ballot (s.term n) n with
  | none => exact Or.inl rfl
  | some c' =>
    have hvote := (h.ballot_vote hb).2 rfl
    rcases hv with hv | hv
    · rw [hv] at hvote
      cases hvote
    · exact Or.inr (hvote.symm.trans hv)

end Inv

end Protocol

end Replication

end Gringofts
