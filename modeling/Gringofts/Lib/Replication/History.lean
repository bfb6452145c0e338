import Gringofts.Lib.Replication.Invariant

/-!
# The history only grows

`Grows s s'` collects what no step takes back: terms and acknowledgements rise, a won term stays
won with the same log, leader logs are extended at the end, candidacies and ballots stand, and the
part of a log that its node has counted as committed is never touched. Everything that is
monotone in the history — rooted logs, committed indices, and the facts about messages that a
model of a network rests on — is preserved along it.

## Main results

* `Grows.rooted`, `Grows.agree_llog` — logs stay rooted in the leader logs
* `Grows.committed` — what is committed stays committed
-/

namespace Gringofts

namespace Replication

variable {ι ε : Type}

/-- The second state extends the history of the first. -/
structure Grows (s s' : State ι ε) : Prop where
  term_le : ∀ n, s.term n ≤ s'.term n
  leader_eq : ∀ {t c}, s.leader t = some c → s'.leader t = some c
  elog_eq : ∀ {t}, s.leader t ≠ none → s'.elog t = s.elog t
  llog_isPrefix : ∀ t, s.llog t <+: s'.llog t
  cand_eq : ∀ {t n l}, s.cand t n = some l → s'.cand t n = some l
  ballot_eq : ∀ {t n c}, s.ballot t n = some c → s'.ballot t n = some c
  early_eq : ∀ {t n m}, s.early t n = some m → s'.early t n = some m
  ack_le : ∀ t n, s.ack t n ≤ s'.ack t n
  committed_le : ∀ n, s.committed n ≤ s'.committed n
  committed_log : ∀ n, Agree (s'.log n) (s.log n) (s.committed n)

namespace Grows

variable {P : Protocol ι ε} {s s' s'' : State ι ε} {l : List ε} {t u i : ℕ}

theorem trans (h : Grows s s') (h' : Grows s' s'') : Grows s s'' where
  term_le n := (h.term_le n).trans (h'.term_le n)
  leader_eq hl := h'.leader_eq (h.leader_eq hl)
  elog_eq {t} hl := by
    obtain ⟨c, hc⟩ := Option.ne_none_iff_exists'.mp hl
    have hl' : s'.leader t ≠ none := by
      rw [h.leader_eq hc]
      exact Option.some_ne_none c
    rw [h'.elog_eq hl', h.elog_eq hl]
  llog_isPrefix t := (h.llog_isPrefix t).trans (h'.llog_isPrefix t)
  cand_eq hc := h'.cand_eq (h.cand_eq hc)
  ballot_eq hb := h'.ballot_eq (h.ballot_eq hb)
  early_eq he := h'.early_eq (h.early_eq he)
  ack_le t n := (h.ack_le t n).trans (h'.ack_le t n)
  committed_le n := (h.committed_le n).trans (h'.committed_le n)
  committed_log n := ((h'.committed_log n).mono (h.committed_le n)).trans (h.committed_log n)

variable (h : Grows s s')
include h

theorem leader_ne (hl : s.leader t ≠ none) : s'.leader t ≠ none := by
  obtain ⟨c, hc⟩ := Option.ne_none_iff_exists'.mp hl
  rw [h.leader_eq hc]
  exact Option.some_ne_none c

theorem llog_agree (hi : i ≤ (s.llog t).length) : Agree (s'.llog t) (s.llog t) i :=
  (agree_of_isPrefix (h.llog_isPrefix t) hi).symm

theorem agree_llog (ha : Agree l (s.llog t) i) : Agree l (s'.llog t) i :=
  ha.trans (h.llog_agree ha.le_right).symm

theorem rooted (hr : P.Rooted s l) : P.Rooted s' l := by
  intro i h1 hi
  obtain ⟨hl, ha⟩ := hr i h1 hi
  exact ⟨h.leader_ne hl, h.agree_llog ha⟩

/-- Having been carried by more leaders is the stronger statement. -/
theorem carried (hi : i ≤ (s.llog t).length) (hc : Protocol.Carried s' t u i) :
    Protocol.Carried s t u i := by
  intro v htv hvu hl
  have ha := hc v htv hvu (h.leader_ne hl)
  rw [h.elog_eq hl] at ha
  exact ha.trans (h.llog_agree hi)

/-- **What is committed stays committed.** -/
theorem committed (hc : P.Committed s t i) : P.Committed s' t i := by
  obtain ⟨hl, hi, ht, C, hC, hack⟩ := hc
  refine ⟨h.leader_ne hl, hi.trans (h.llog_isPrefix t).length_le, ?_, C, hC, ?_⟩
  · rw [(h.llog_agree hi).termAt_eq (Nat.le_refl i), ht]
  · exact fun n hn => (hack n hn).trans (h.ack_le t n)

end Grows

theorem Protocol.Inv.grows_refl {P : Protocol ι ε} {s : State ι ε} (h : P.Inv s) : Grows s s where
  term_le _ := Nat.le_refl _
  leader_eq := id
  elog_eq _ := rfl
  llog_isPrefix _ := List.prefix_refl _
  cand_eq := id
  ballot_eq := id
  early_eq := id
  ack_le _ _ := Nat.le_refl _
  committed_le _ := Nat.le_refl _
  committed_log n := Agree.refl (h.committed_le n)

end Replication

end Gringofts
