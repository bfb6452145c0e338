import Gringofts.Lib.Replication.History

/-!
# Every step keeps the invariant

One section for each effect. An effect changes a few components of the state, so a proof lists
the fields of the invariant that read those components and takes the others over from the state
before. First it is shown that the effect extends the history (`Grows`); what is monotone in the
history then carries over without looking at the effect again.

## Main results

* `Protocol.Step.grows`, `Protocol.Steps.grows` — every step extends the history
* `Protocol.Step.inv`, `Protocol.Steps.inv` — every step keeps the invariant
-/

namespace Gringofts

variable {t k i : ℕ}

namespace Replication

namespace Protocol

variable {ι ε : Type} [DecidableEq ι] {P : Protocol ι ε} {s s' : State ι ε} {n : ι}

namespace Inv

variable (h : P.Inv s)
include h

/-! ### Raising the term -/

theorem bump_grows (ht : s.term n < t) : Grows s (s.bump n t) :=
  { h.grows_refl with
    term_le := (Function.forall_update_iff s.term fun v u => s.term v ≤ u).mpr
      ⟨ht.le, fun _ _ => Nat.le_refl _⟩ }

theorem bump (ht : s.term n < t) : P.Inv (s.bump n t) := by
  have hg := h.bump_grows ht
  -- what is recorded for a node lies in a term it had reached, so below the new one
  have hterm : ∀ {u v}, u ≤ s.term v → u = (s.bump n t).term v → u = s.term v := by
    intro u v huv hu
    change u = Function.update s.term n t v at hu
    by_cases hv : v = n
    · subst hv
      rw [Function.update_self] at hu
      omega
    · rwa [Function.update_of_ne hv] at hu
  exact
    { h with
      ballot_vote := fun hb =>
        ⟨(h.ballot_vote hb).1.trans (hg.term_le _),
          fun hu => (h.ballot_vote hb).2 (hterm (h.ballot_vote hb).1 hu)⟩
      cand_terms := fun hc =>
        ⟨⟨(h.cand_terms hc).1.1, (h.cand_terms hc).1.2.trans (hg.term_le _)⟩,
          (h.cand_terms hc).2⟩
      leader_log := fun hl hu => h.leader_log hl (hterm (h.leader_le hl) hu)
      log_terms := fun he => (h.log_terms he).trans (hg.term_le _)
      ack_le := fun u v => ⟨(h.ack_le u v).1, fun h0 => ((h.ack_le u v).2 h0).trans (hg.term_le v)⟩
      ack_log := fun hi hc => h.ack_log hi (hc.mono (hg.term_le _))
      committed_log := fun v => by
        rcases h.committed_log v with h0 | ⟨u, i, hu, hrest⟩
        · exact Or.inl h0
        · exact Or.inr ⟨u, i, hu.trans (hg.term_le v), hrest⟩ }

/-! ### The vote register -/

theorem forget_grows : Grows s (s.forget n) :=
  { h.grows_refl with }

theorem forget (hb : s.ballot (s.term n) n = none) : P.Inv (s.forget n) :=
  { h with
    ballot_vote := fun {t v c} hbal => by
      refine ⟨(h.ballot_vote hbal).1, fun ht => ?_⟩
      change Function.update s.vote n none v = some c
      by_cases hv : v = n
      · -- the register of `n` backs no ballot, since none was cast in this term
        subst hv
        change t = s.term v at ht
        change s.ballot t v = some c at hbal
        rw [ht, hb] at hbal
        cases hbal
      · rw [Function.update_of_ne hv]
        exact (h.ballot_vote hbal).2 ht }

/-! ### Standing and voting

Standing is fixing a log and then voting for oneself, so both steps are shown for the two
effects they are made of. -/

theorem nominate_grows (hc : s.cand (s.term n) n = none) : Grows s (s.nominate n) :=
  { h.grows_refl with
    cand_eq := fun {t v l} hl => by
      change record s.cand (s.term n) n (some (s.log n)) t v = some l
      rw [record_of_ne]
      · exact hl
      · rintro ⟨rfl, rfl⟩
        rw [hc] at hl
        cases hl }

omit h in
/-- A candidacy is an old one, or the one just recorded. -/
theorem nominate_cand {v : ι} {l : List ε} (hl : (s.nominate n).cand t v = some l) :
    s.cand t v = some l ∨ t = s.term n ∧ v = n ∧ l = s.log n := by
  change record s.cand (s.term n) n (some (s.log n)) t v = some l at hl
  rcases record_cases s.cand (s.term n) n (some (s.log n)) t v with ⟨ht, hv, heq⟩ | ⟨-, heq⟩
  · rw [heq] at hl
    exact Or.inr ⟨ht, hv, (Option.some.inj hl).symm⟩
  · exact Or.inl (heq.symm.trans hl)

theorem nominate (hpos : 0 < s.term n) (hc : s.cand (s.term n) n = none)
    (hlog : ∀ e ∈ s.log n, P.term e < s.term n) : P.Inv (s.nominate n) := by
  have hg := h.nominate_grows hc
  exact
    { h with
      cand_terms := fun hl => by
        rcases nominate_cand hl with hl | ⟨rfl, rfl, rfl⟩
        · exact h.cand_terms hl
        · exact ⟨⟨hpos, Nat.le_refl _⟩, hlog⟩
      cand_rooted := fun hl => by
        rcases nominate_cand hl with hl | ⟨rfl, rfl, rfl⟩
        · exact h.cand_rooted hl
        · exact h.log_rooted _
      early_ballot := fun hm => by
        obtain ⟨c, l, hb, hl, hu⟩ := h.early_ballot hm
        exact ⟨c, l, hb, hg.cand_eq hl, hu⟩
      leader_elected := fun hl =>
        ⟨hg.cand_eq (h.leader_elected hl).1, (h.leader_elected hl).2⟩ }

section Grant

variable {c : ι} (hb : s.ballot (s.term n) n = none ∨ s.ballot (s.term n) n = some c)
include hb

theorem grant_grows : Grows s (s.grant n c) :=
  { h.grows_refl with
    ballot_eq := fun {t v c'} hbal => by
      change record s.ballot (s.term n) n (some c) t v = some c'
      rcases record_cases s.ballot (s.term n) n (some c) t v with ⟨rfl, rfl, heq⟩ | ⟨-, heq⟩
      · rw [heq]
        rcases hb with hb | hb
        · rw [hb] at hbal
          cases hbal
        · exact hb.symm.trans hbal
      · exact heq.trans hbal
    early_eq := fun {t v m} hm => by
      change record s.early (s.term n) n (s.earlyBallot n) t v = some m
      rcases record_cases s.early (s.term n) n (s.earlyBallot n) t v with ⟨rfl, rfl, heq⟩ | ⟨-, heq⟩
      · rw [heq]
        exact State.earlyBallot_of_some hm
      · exact heq.trans hm }

omit h hb in
theorem grant_ballot {v c' : ι} (hbal : (s.grant n c).ballot t v = some c') :
    s.ballot t v = some c' ∨ t = s.term n ∧ v = n ∧ c' = c := by
  change record s.ballot (s.term n) n (some c) t v = some c' at hbal
  rcases record_cases s.ballot (s.term n) n (some c) t v with ⟨ht, hv, heq⟩ | ⟨-, heq⟩
  · rw [heq] at hbal
    exact Or.inr ⟨ht, hv, (Option.some.inj hbal).symm⟩
  · exact Or.inl (heq.symm.trans hbal)

omit h hb in
/-- An early ballot is an old one, or it is cast now in an open term. -/
theorem grant_early {v : ι} {m : List ε} (hm : (s.grant n c).early t v = some m) :
    s.early t v = some m ∨
      t = s.term n ∧ v = n ∧ s.leader (s.term n) = none ∧ m = s.log n := by
  change record s.early (s.term n) n (s.earlyBallot n) t v = some m at hm
  rcases record_cases s.early (s.term n) n (s.earlyBallot n) t v with ⟨rfl, rfl, heq⟩ | ⟨-, heq⟩
  · rw [heq] at hm
    rcases State.earlyBallot_cases hm with he | ⟨hl, hlog⟩
    · exact Or.inl he
    · exact Or.inr ⟨rfl, rfl, hl, hlog⟩
  · exact Or.inl (heq.symm.trans hm)

theorem grant {l : List ε} (hc : s.cand (s.term n) c = some l) (hu : P.UpToDate l (s.log n)) :
    P.Inv (s.grant n c) := by
  have hg := h.grant_grows hb
  exact
    { h with
      ballot_vote := fun {t v c'} hbal => by
        change t ≤ s.term v ∧ (t = s.term v → Function.update s.vote n (some c) v = some c')
        by_cases hv : v = n
        · subst hv
          rw [Function.update_self]
          rcases grant_ballot hbal with hold | ⟨rfl, -, rfl⟩
          · refine ⟨(h.ballot_vote hold).1, ?_⟩
            rintro rfl
            rcases hb with hb | hb
            · rw [hb] at hold
              cases hold
            · exact hb.symm.trans hold
          · exact ⟨Nat.le_refl _, fun _ => rfl⟩
        · rw [Function.update_of_ne hv]
          rcases grant_ballot hbal with hold | ⟨-, hvn, -⟩
          · exact h.ballot_vote hold
          · exact absurd hvn hv
      early_ballot := fun hm => by
        rcases grant_early hm with hold | ⟨rfl, rfl, -, rfl⟩
        · obtain ⟨c', l', hb', hc', hu'⟩ := h.early_ballot hold
          exact ⟨c', l', hg.ballot_eq hb', hc', hu'⟩
        · exact ⟨c, l, record_self _ _ _ _, hc, hu⟩
      early_rooted := fun hm => by
        rcases grant_early hm with hold | ⟨rfl, rfl, -, rfl⟩
        · exact h.early_rooted hold
        · exact h.log_rooted _
      early_ack := fun hm t ht i hi hcar => by
        rcases grant_early hm with hold | ⟨rfl, rfl, hopen, rfl⟩
        · exact h.early_ack hold t ht i hi hcar
        · -- the term is open, so the leaders up to now are the leaders before it
          refine h.ack_log hi fun w htw hw hlw => hcar w htw ?_ hlw
          rcases Nat.lt_or_eq_of_le hw with hlt | rfl
          · omega
          · exact absurd hopen hlw
      ballot_early := fun {t v c'} hbal hopen => by
        change record s.early (s.term n) n (s.earlyBallot n) t v ≠ none
        rcases record_cases s.early (s.term n) n (s.earlyBallot n) t v with
          ⟨rfl, rfl, heq⟩ | ⟨hne, heq⟩
        · rw [heq]
          exact State.earlyBallot_ne_none hopen
        · rw [heq]
          rcases grant_ballot hbal with hold | ⟨ht, hv, -⟩
          · exact h.ballot_early hold hopen
          · exact absurd ⟨ht, hv⟩ hne
      leader_elected := fun hl => by
        obtain ⟨hcand, E, hE, hEb⟩ := h.leader_elected hl
        refine ⟨hcand, E, hE, fun v hv => ⟨hg.ballot_eq (hEb v hv).1, ?_⟩⟩
        obtain ⟨m, hm⟩ := Option.ne_none_iff_exists'.mp (hEb v hv).2
        rw [hg.early_eq hm]
        exact Option.some_ne_none m }

end Grant

/-! ### Winning -/

omit h in
/-- The won term has the winner, and every other term the leader it had. -/
theorem leader_elect_cases {c : ι} (hlt : (s.elect n).leader t = some c) :
    t = s.term n ∧ c = n ∨ t ≠ s.term n ∧ s.leader t = some c := by
  change Function.update s.leader (s.term n) (some n) t = some c at hlt
  by_cases ht : t = s.term n
  · rw [ht, Function.update_self] at hlt
    exact Or.inl ⟨ht, (Option.some.inj hlt).symm⟩
  · rw [Function.update_of_ne ht] at hlt
    exact Or.inr ⟨ht, hlt⟩

/-- In the won term only the winner has acknowledged something, its own log. -/
theorem ack_elect_cases (hopen : s.leader (s.term n) = none) (t : ℕ) (v : ι) :
    t ≠ s.term n ∧ (s.elect n).ack t v = s.ack t v ∨
      t = s.term n ∧ (v = n ∧ (s.elect n).ack t v = (s.log n).length ∨
        (s.elect n).ack t v = 0) := by
  rcases record_cases s.ack (s.term n) n (s.log n).length t v with ⟨rfl, hv, heq⟩ | ⟨hne, heq⟩
  · exact Or.inr ⟨rfl, Or.inl ⟨hv, heq⟩⟩
  · by_cases ht : t = s.term n
    · refine Or.inr ⟨ht, Or.inr (heq.trans ?_)⟩
      rw [ht]
      exact h.ack_open hopen v
    · exact Or.inl ⟨ht, heq⟩

section Elect

variable {E : Finset ι} (hc : s.cand (s.term n) n = some (s.log n))
  (hl : s.leader (s.term n) ≠ some n) (hE : P.elects E)
  (hb : ∀ v ∈ E, s.ballot (s.term n) v = some n)
include hl hE hb

theorem elect_grows : Grows s (s.elect n) := by
  have hopen := h.leader_open hl hE hb
  have hne : ∀ {t}, s.leader t ≠ none → t ≠ s.term n := by
    rintro t ht rfl
    exact ht hopen
  refine
    { term_le := fun _ => Nat.le_refl _
      leader_eq := fun {t c} hlt => ?_
      elog_eq := fun {t} hlt => Function.update_of_ne (hne hlt) _ _
      llog_isPrefix := fun t => ?_
      cand_eq := id
      ballot_eq := id
      early_eq := id
      ack_le := fun t v => ?_
      committed_le := fun _ => Nat.le_refl _
      committed_log := fun v => Agree.refl (h.committed_le v) }
  · change Function.update s.leader (s.term n) (some n) t = some c
    rw [Function.update_of_ne (hne (hlt ▸ Option.some_ne_none c))]
    exact hlt
  · change s.llog t <+: Function.update s.llog (s.term n) (s.log n) t
    by_cases ht : t = s.term n
    · rw [ht, h.llog_open hopen]
      exact List.nil_prefix
    · rw [Function.update_of_ne ht]
  · change s.ack t v ≤ record s.ack (s.term n) n (s.log n).length t v
    rcases record_cases s.ack (s.term n) n (s.log n).length t v with ⟨rfl, rfl, heq⟩ | ⟨-, heq⟩
    · rw [h.ack_open hopen]
      exact Nat.zero_le _
    · rw [heq]

include hc

theorem elect : P.Inv (s.elect n) := by
  have hopen := h.leader_open hl hE hb
  have hg := h.elect_grows hl hE hb
  have hlog : (s.elect n).llog (s.term n) = s.log n := Function.update_self _ _ _
  have helog : (s.elect n).elog (s.term n) = s.log n := Function.update_self _ _ _
  have hold : ∀ {t}, t ≠ s.term n → (s.elect n).llog t = s.llog t :=
    fun ht => Function.update_of_ne ht _ _
  have hack := h.ack_elect_cases hopen
  exact
    { h with
      leader_zero := by
        have hpos := (h.cand_terms hc).1.1
        exact (Function.update_of_ne (by omega) _ _).trans h.leader_zero
      cand_rooted := fun hl' => hg.rooted (h.cand_rooted hl')
      early_rooted := fun hm => hg.rooted (h.early_rooted hm)
      early_ack := fun {t' v m} hm t ht i hi hcar => by
        rcases hack t v with ⟨hne, heq⟩ | ⟨rfl, ⟨rfl, -⟩ | h0⟩
        · rw [heq] at hi
          rw [hold hne]
          exact h.early_ack hm t ht i hi (hg.carried (hi.trans (h.ack_le t v).1) hcar)
        · -- the winner has cast no ballot in a later term yet
          obtain ⟨c', l', hb', -⟩ := h.early_ballot hm
          exact absurd (h.ballot_vote hb').1 (by omega)
        · rw [h0] at hi
          rw [Nat.le_zero.mp hi]
          exact agree_zero _ _
      ballot_early := fun hbal hopen' => h.ballot_early hbal (by
        by_contra hne
        exact hg.leader_ne hne hopen')
      leader_elected := fun {t c} hlt => by
        rcases leader_elect_cases hlt with ⟨rfl, rfl⟩ | ⟨hne, hlt⟩
        · refine ⟨hc.trans (congrArg some helog.symm), E, hE, ?_⟩
          exact fun v hv => ⟨hb v hv, h.ballot_early (hb v hv) hopen⟩
        · obtain ⟨hcand, hrest⟩ := h.leader_elected hlt
          exact ⟨hcand.trans (congrArg some (Function.update_of_ne hne _ _).symm), hrest⟩
      llog_elog := fun t => by
        by_cases ht : t = s.term n
        · refine ⟨[], ?_, by simp⟩
          rw [ht, hlog, helog, List.append_nil]
        · obtain ⟨x, hx, hxt⟩ := h.llog_elog t
          refine ⟨x, ?_, hxt⟩
          rw [hold ht, hx]
          exact congrArg (· ++ x) (Function.update_of_ne ht _ _).symm
      llog_open := fun {t} hopen' => by
        have ht : t ≠ s.term n := by
          rintro rfl
          change Function.update s.leader (s.term n) (some n) (s.term n) = none at hopen'
          rw [Function.update_self] at hopen'
          cases hopen'
        rw [hold ht]
        refine h.llog_open ?_
        by_contra hne
        exact hg.leader_ne hne hopen'
      llog_rooted := fun t => by
        by_cases ht : t = s.term n
        · rw [ht, hlog]
          exact hg.rooted (h.log_rooted n)
        · rw [hold ht]
          exact hg.rooted (h.llog_rooted t)
      leader_log := fun {t c} hlt ht => by
        rcases leader_elect_cases hlt with ⟨rfl, rfl⟩ | ⟨hne, hlt⟩
        · exact hlog.symm
        · rw [hold hne]
          exact h.leader_log hlt ht
      log_rooted := fun v => hg.rooted (h.log_rooted v)
      ack_le := fun t v => by
        rcases hack t v with ⟨hne, heq⟩ | ⟨rfl, ⟨rfl, heq⟩ | h0⟩
        · rw [heq, hold hne]
          exact h.ack_le t v
        · rw [heq, hlog]
          exact ⟨Nat.le_refl _, fun _ => Nat.le_refl _⟩
        · rw [h0]
          exact ⟨Nat.zero_le _, fun hlt => absurd hlt (Nat.lt_irrefl 0)⟩
      ack_log := fun {t v i} hi hcar => by
        rcases hack t v with ⟨hne, heq⟩ | ⟨rfl, ⟨rfl, heq⟩ | h0⟩
        · rw [heq] at hi
          rw [hold hne]
          exact h.ack_log hi (hg.carried (hi.trans (h.ack_le t v).1) hcar)
        · rw [heq] at hi
          rw [hlog]
          exact Agree.refl hi
        · rw [h0] at hi
          rw [Nat.le_zero.mp hi]
          exact agree_zero _ _
      leader_ack := fun {t c} hlt => by
        rcases leader_elect_cases hlt with ⟨rfl, rfl⟩ | ⟨hne, hlt⟩
        · rw [hlog]
          exact (record_self s.ack _ _ _).ge
        · rw [hold hne]
          exact (h.leader_ack hlt).trans (hg.ack_le t c)
      committed_log := fun v => by
        rcases h.committed_log v with h0 | ⟨t, i, ht, hcm, hi, ha⟩
        · exact Or.inl h0
        · exact Or.inr ⟨t, i, ht, hg.committed hcm, hi, hg.agree_llog ha⟩ }

end Elect

/-! ### A leader extends its log -/

section Append

variable (es : List ε) (hl : s.leader (s.term n) = some n)
include hl

theorem append_llog (t : ℕ) : (s.append n es).llog t = s.llog t ∧ t ≠ s.term n ∨
    t = s.term n ∧ (s.append n es).llog t = s.llog t ++ es ∧ s.log n = s.llog t := by
  by_cases ht : t = s.term n
  · subst ht
    exact Or.inr ⟨rfl, Function.update_self _ _ _, h.leader_log hl rfl⟩
  · exact Or.inl ⟨Function.update_of_ne ht _ _, ht⟩

theorem append_isPrefix (t : ℕ) : s.llog t <+: (s.append n es).llog t := by
  rcases h.append_llog es hl t with ⟨heq, -⟩ | ⟨-, heq, -⟩
  · rw [heq]
  · rw [heq]
    exact List.prefix_append _ _

omit h hl in
theorem append_log (v : ι) : s.log v <+: (s.append n es).log v :=
  (Function.forall_update_iff s.log fun v l => s.log v <+: l).mpr
    ⟨List.prefix_append _ _, fun _ _ => List.prefix_refl _⟩ v

theorem append_grows : Grows s (s.append n es) :=
  { h.grows_refl with
    llog_isPrefix := h.append_isPrefix es hl
    ack_le := fun t v => by
      change s.ack t v ≤ record s.ack (s.term n) n (s.log n ++ es).length t v
      rcases record_cases s.ack (s.term n) n (s.log n ++ es).length t v with
        ⟨rfl, rfl, heq⟩ | ⟨-, heq⟩
      · rw [heq, List.length_append, h.leader_log hl rfl]
        exact Nat.le_add_right_of_le (h.ack_le _ _).1
      · rw [heq]
    committed_log := fun v => (agree_of_isPrefix (append_log es v) (h.committed_le v)).symm }

/-- The extended leader log is rooted: above the old one there are only entries of its own
term. -/
theorem append_rooted (hes : ∀ e ∈ es, P.term e = s.term n) (t : ℕ) :
    P.Rooted (s.append n es) ((s.append n es).llog t) := by
  have hg := h.append_grows es hl
  intro i h1 hi
  by_cases hold : i ≤ (s.llog t).length
  · have ha := hg.llog_agree hold
    rw [ha.termAt_eq (Nat.le_refl i)]
    obtain ⟨hlead, hroot⟩ := hg.rooted (h.llog_rooted t) i h1 hold
    exact ⟨hlead, ha.trans hroot⟩
  · rcases h.append_llog es hl t with ⟨heq, -⟩ | ⟨rfl, heq, -⟩
    · rw [heq] at hi
      exact absurd hi hold
    · have hterm : termAt P.term ((s.append n es).llog (s.term n)) i = s.term n := by
        obtain ⟨e, he⟩ := exists_entryAt h1 hi
        rw [termAt_of_entryAt he]
        refine hes e ?_
        rw [heq] at he
        obtain ⟨i, rfl⟩ := Nat.exists_eq_add_of_le' h1
        rw [entryAt_succ, List.getElem?_append_right (by omega)] at he
        exact List.mem_of_getElem? he
      rw [hterm]
      refine ⟨?_, Agree.refl hi⟩
      change s.leader (s.term n) ≠ none
      rw [hl]
      exact Option.some_ne_none n

omit h hl in
theorem log_append : (s.append n es).log n = s.log n ++ es := Function.update_self _ _ _

/-- The leader has the log of its term, also when it has extended it. -/
theorem log_append_self : (s.append n es).log n = (s.append n es).llog (s.term n) := by
  rcases h.append_llog es hl (s.term n) with ⟨-, hne⟩ | ⟨-, heq, hlog⟩
  · exact absurd rfl hne
  · rw [heq, ← hlog, log_append]

/-- Only the leader has acknowledged more than before, all of its log. -/
theorem ack_append_cases (t : ℕ) (v : ι) : (s.append n es).ack t v = s.ack t v ∨
    t = s.term n ∧ v = n ∧ (s.append n es).ack t v = ((s.append n es).llog t).length := by
  rcases record_cases s.ack (s.term n) n (s.log n ++ es).length t v with
    ⟨rfl, rfl, heq⟩ | ⟨-, heq⟩
  · refine Or.inr ⟨rfl, rfl, heq.trans ?_⟩
    rw [← h.log_append_self es hl, log_append]
  · exact Or.inl heq

theorem append (hes : ∀ e ∈ es, P.term e = s.term n) : P.Inv (s.append n es) := by
  have hg := h.append_grows es hl
  have hlog := h.log_append_self es hl
  have hack := h.ack_append_cases es hl
  exact
    { h with
      cand_rooted := fun hl' => hg.rooted (h.cand_rooted hl')
      early_rooted := fun hm => hg.rooted (h.early_rooted hm)
      early_ack := fun {t' v m} hm t ht i hi hcar => by
        rcases hack t v with heq | ⟨rfl, rfl, -⟩
        · rw [heq] at hi
          have hle := hi.trans (h.ack_le t v).1
          exact hg.agree_llog (h.early_ack hm t ht i hi (hg.carried hle hcar))
        · obtain ⟨c', l', hb', -⟩ := h.early_ballot hm
          exact absurd (h.ballot_vote hb').1 (by omega)
      llog_elog := fun t => by
        obtain ⟨x, hx, hxt⟩ := h.llog_elog t
        rcases h.append_llog es hl t with ⟨heq, -⟩ | ⟨rfl, heq, -⟩
        · exact ⟨x, heq.trans hx, hxt⟩
        · refine ⟨x ++ es, ?_, fun e he => ?_⟩
          · rw [heq, hx, List.append_assoc]
            rfl
          · rcases List.mem_append.mp he with he | he
            · exact hxt e he
            · exact hes e he
      llog_open := fun {t} hopen => by
        rcases h.append_llog es hl t with ⟨heq, -⟩ | ⟨rfl, -⟩
        · exact heq.trans (h.llog_open hopen)
        · exact absurd (hl.symm.trans hopen) (Option.some_ne_none n)
      llog_rooted := h.append_rooted es hl hes
      leader_log := fun {t c} hlt ht => by
        by_cases hc : c = n
        · subst hc
          rw [ht]
          exact hlog
        · -- the leader of another term than the one extended
          have hlog' : (s.append n es).log c = s.log c := Function.update_of_ne hc _ _
          rcases h.append_llog es hl t with ⟨heq, -⟩ | ⟨rfl, -⟩
          · rw [hlog', heq]
            exact h.leader_log hlt ht
          · exact absurd (Option.some.inj (hlt.symm.trans hl)) hc
      log_terms := fun {v e} he => by
        refine (Function.forall_update_iff s.log fun v l => ∀ e ∈ l, P.term e ≤ s.term v).mpr
          ⟨fun e he => ?_, fun v _ e => h.log_terms⟩ v e he
        exact (List.mem_append.mp he).elim h.log_terms fun he => (hes e he).le
      log_rooted := fun v => by
        by_cases hv : v = n
        · rw [hv, hlog]
          exact h.append_rooted es hl hes _
        · have hlog' : (s.append n es).log v = s.log v := Function.update_of_ne hv _ _
          rw [hlog']
          exact hg.rooted (h.log_rooted v)
      ack_le := fun t v => by
        rcases hack t v with heq | ⟨rfl, rfl, heq⟩
        · rw [heq]
          exact ⟨(h.ack_le t v).1.trans (hg.llog_isPrefix t).length_le, (h.ack_le t v).2⟩
        · exact ⟨heq.le, fun _ => Nat.le_refl _⟩
      ack_log := fun {t v i} hi hcar => by
        rcases hack t v with heq | ⟨rfl, rfl, heq⟩
        · rw [heq] at hi
          have ha := h.ack_log hi (hg.carried (hi.trans (h.ack_le t v).1) hcar)
          exact (agree_of_isPrefix (append_log es v) ha.le_left).symm.trans (hg.agree_llog ha)
        · rw [heq] at hi
          rw [hlog]
          exact Agree.refl hi
      leader_ack := fun {t c} hlt => by
        rcases hack t c with heq | ⟨rfl, rfl, heq⟩
        · rcases h.append_llog es hl t with ⟨heq', -⟩ | ⟨rfl, -⟩
          · rw [heq, heq']
            exact h.leader_ack hlt
          · obtain rfl : c = n := Option.some.inj (hlt.symm.trans hl)
            rw [← hlog, log_append]
            exact (record_self s.ack _ _ _).ge
        · exact heq.ge
      committed_log := fun v => by
        rcases h.committed_log v with h0 | ⟨t, i, ht, hcm, hi, ha⟩
        · exact Or.inl h0
        · refine Or.inr ⟨t, i, ht, hg.committed hcm, hi, ?_⟩
          exact (hg.committed_log v).trans (hg.agree_llog ha) }

end Append

/-! ### A follower's log -/

section Follow

variable {l : List ε}

/-- Replacing the log of a follower keeps the invariant when the new log is rooted, still holds
what the node has acknowledged and has counted as committed, and is of no later terms. -/
theorem setLog (hown : s.leader (s.term n) ≠ some n) (hterms : ∀ e ∈ l, P.term e ≤ s.term n)
    (hroot : P.Rooted s l)
    (hack : ∀ {t i}, i ≤ s.ack t n → Carried s t (s.term n) i → Agree l (s.llog t) i)
    (hcom : Agree l (s.log n) (s.committed n)) : P.Inv (s.setLog n l) := by
  have hlog : ∀ v, v = n ∧ (s.setLog n l).log v = l ∨ (s.setLog n l).log v = s.log v := by
    intro v
    by_cases hv : v = n
    · subst hv
      exact Or.inl ⟨rfl, Function.update_self _ _ _⟩
    · exact Or.inr (Function.update_of_ne hv _ _)
  exact
    { h with
      leader_log := fun {t c} hlt ht => by
        rcases hlog c with ⟨rfl, -⟩ | heq
        · subst ht
          exact absurd hlt hown
        · exact heq.trans (h.leader_log hlt ht)
      log_terms := fun {v e} he => by
        rcases hlog v with ⟨rfl, heq⟩ | heq
        · rw [heq] at he
          exact hterms e he
        · rw [heq] at he
          exact h.log_terms he
      log_rooted := fun v => by
        rcases hlog v with ⟨rfl, heq⟩ | heq
        · rw [heq]
          exact hroot
        · rw [heq]
          exact h.log_rooted v
      ack_log := fun {t v i} hi hcar => by
        rcases hlog v with ⟨rfl, heq⟩ | heq
        · rw [heq]
          exact hack hi hcar
        · rw [heq]
          exact h.ack_log hi hcar
      committed_log := fun v => by
        rcases h.committed_log v with h0 | ⟨t, i, ht, hcm, hi, ha⟩
        · exact Or.inl h0
        · refine Or.inr ⟨t, i, ht, hcm, hi, ?_⟩
          rcases hlog v with ⟨rfl, heq⟩ | heq
          · rw [heq]
            exact hcom.trans ha
          · rw [heq]
            exact ha }

theorem setLog_grows (hcom : Agree l (s.log n) (s.committed n)) : Grows s (s.setLog n l) :=
  { h.grows_refl with
    committed_log :=
      (Function.forall_update_iff s.log fun v l => Agree l (s.log v) (s.committed v)).mpr
        ⟨hcom, fun v _ => Agree.refl (h.committed_le v)⟩ }

variable {c : ι} (hl : s.leader (s.term n) = some c)
include hl

omit [DecidableEq ι] h in
theorem not_leader (hc : c ≠ n) : s.leader (s.term n) ≠ some n := by
  rw [hl]
  exact fun heq => hc (Option.some.inj heq)

omit [DecidableEq ι] in
/-- A follower shares with its leader what it has counted as committed. -/
theorem agree_committed : Agree (s.log n) (s.llog (s.term n)) (s.committed n) :=
  h.committed_agree (Nat.le_refl _) (hl ▸ Option.some_ne_none c)

omit [DecidableEq ι] in
theorem cut_committed (hne : entryAt (s.log n) (k + 1) ≠ entryAt (s.llog (s.term n)) (k + 1)) :
    Agree ((s.log n).take k) (s.log n) (s.committed n) :=
  (Agree.refl (h.committed_le n)).take_left ((h.agree_committed hl).le_of_entryAt_ne hne)

/-- A follower may cut its log where it departs from its leader's. -/
theorem cut (hc : c ≠ n) (hne : entryAt (s.log n) (k + 1) ≠ entryAt (s.llog (s.term n)) (k + 1)) :
    P.Inv (s.setLog n ((s.log n).take k)) := by
  refine h.setLog (not_leader hl hc) (fun e he => h.log_terms (List.mem_of_mem_take he))
    ((h.log_rooted n).take k) (fun hi hcar => ?_) (h.cut_committed hl hne)
  have hcur := h.agree_current (hl ▸ Option.some_ne_none c) hi hcar
  exact (h.ack_log hi hcar).take_left (hcur.le_of_entryAt_ne hne)

omit [DecidableEq ι] hl in
theorem extend_committed (es : List ε) :
    Agree (s.log n ++ es) (s.log n) (s.committed n) :=
  (Agree.refl (h.committed_le n)).append_left

/-- A follower may extend its log along its leader's. -/
theorem extend {es : List ε} (hc : c ≠ n) (hp : s.log n ++ es <+: s.llog (s.term n)) :
    P.Inv (s.setLog n (s.log n ++ es)) := by
  have hlead : s.leader (s.term n) ≠ none := hl ▸ Option.some_ne_none c
  refine h.setLog (not_leader hl hc) (fun e he => h.llog_terms hlead (hp.subset he))
    ((h.llog_rooted _).of_isPrefix hp) (fun hi hcar => ?_) (h.extend_committed es)
  exact (h.ack_log hi hcar).append_left

end Follow

/-! ### Acknowledging and committing -/

section Acknowledge

variable {j : ℕ}

theorem acknowledge_grows : Grows s (s.acknowledge n j) :=
  { h.grows_refl with
    ack_le := fun t v => by
      change s.ack t v ≤ record s.ack (s.term n) n (max (s.ack (s.term n) n) j) t v
      rcases record_cases s.ack (s.term n) n (max (s.ack (s.term n) n) j) t v with
        ⟨rfl, rfl, heq⟩ | ⟨-, heq⟩
      · rw [heq]
        exact Nat.le_max_left _ _
      · rw [heq] }

omit h in
/-- An index is acknowledged now if it was before, or if it is up to `j` in the current term. -/
theorem acknowledge_cases {v : ι} (hi : i ≤ (s.acknowledge n j).ack t v) :
    i ≤ s.ack t v ∨ t = s.term n ∧ v = n ∧ i ≤ j := by
  change i ≤ record s.ack (s.term n) n (max (s.ack (s.term n) n) j) t v at hi
  rcases record_cases s.ack (s.term n) n (max (s.ack (s.term n) n) j) t v with
    ⟨rfl, rfl, heq⟩ | ⟨-, heq⟩
  · rw [heq] at hi
    rcases Nat.le_total (s.ack (s.term v) v) j with hle | hle
    · rw [Nat.max_eq_right hle] at hi
      exact Or.inr ⟨rfl, rfl, hi⟩
    · rw [Nat.max_eq_left hle] at hi
      exact Or.inl hi
  · rw [heq] at hi
    exact Or.inl hi

theorem acknowledge (hj : Agree (s.log n) (s.llog (s.term n)) j) : P.Inv (s.acknowledge n j) := by
  have hg := h.acknowledge_grows (n := n) (j := j)
  exact
    { h with
      early_ack := fun {t' v m} hm t ht i hi hcar => by
        rcases acknowledge_cases hi with hold | ⟨rfl, rfl, -⟩
        · exact h.early_ack hm t ht i hold hcar
        · -- no ballot has been cast in a term after the current one
          obtain ⟨c, l, hb, -⟩ := h.early_ballot hm
          exact absurd (h.ballot_vote hb).1 (by omega)
      ack_le := fun t v => by
        rcases acknowledge_cases (Nat.le_refl ((s.acknowledge n j).ack t v)) with
          hold | ⟨rfl, rfl, hle⟩
        · exact ⟨hold.trans (h.ack_le t v).1, fun h0 => (h.ack_le t v).2 (h0.trans_le hold)⟩
        · exact ⟨hle.trans hj.le_right, fun _ => Nat.le_refl _⟩
      ack_log := fun {t v i} hi hcar => by
        rcases acknowledge_cases hi with hold | ⟨rfl, rfl, hle⟩
        · exact h.ack_log hold hcar
        · exact hj.mono hle
      leader_ack := fun {t c} hlt => (h.leader_ack hlt).trans (hg.ack_le t c)
      committed_log := fun v => by
        rcases h.committed_log v with h0 | ⟨t, i, ht, hcm, hi, ha⟩
        · exact Or.inl h0
        · exact Or.inr ⟨t, i, ht, hg.committed hcm, hi, ha⟩ }

theorem commit_grows : Grows s (s.commit n j) :=
  { h.grows_refl with
    committed_le := (Function.forall_update_iff s.committed fun v k => s.committed v ≤ k).mpr
      ⟨Nat.le_max_left _ _, fun _ _ => Nat.le_refl _⟩ }

theorem commit (ht : t ≤ s.term n) (hc : P.Committed s t i) (hj : j ≤ i)
    (ha : Agree (s.log n) (s.llog t) j) : P.Inv (s.commit n j) :=
  { h with
    committed_log := by
      refine (Function.forall_update_iff s.committed fun v k => k = 0 ∨ ∃ t i, t ≤ s.term v ∧
        P.Committed s t i ∧ k ≤ i ∧ Agree (s.log v) (s.llog t) k).mpr
          ⟨?_, fun v _ => h.committed_log v⟩
      rcases Nat.le_total (s.committed n) j with hle | hle
      · rw [Nat.max_eq_right hle]
        exact Or.inr ⟨t, i, ht, hc, hj, ha⟩
      · rw [Nat.max_eq_left hle]
        exact h.committed_log n }

end Acknowledge

end Inv

/-! ## Steps and runs -/

/-- **Every step extends the history.** -/
theorem Step.grows (h : P.Inv s) (hs : P.Step n s s') : Grows s s' := by
  cases hs with
  | bump ht => exact h.bump_grows ht
  | forget => exact h.forget_grows
  | stand hpos hb hc hlog =>
    exact (h.nominate_grows hc).trans ((h.nominate hpos hc hlog).grant_grows (Or.inl hb))
  | grant hv hc hu => exact h.grant_grows (h.ballot_of_vote hv)
  | elect hc hl hE hb => exact h.elect_grows hl hE hb
  | append hl hes => exact h.append_grows _ hl
  | cut hl hc hk hne => exact h.setLog_grows (h.cut_committed hl hne)
  | extend hl hc hp => exact h.setLog_grows (h.extend_committed _)
  | acknowledge => exact h.acknowledge_grows
  | commit => exact h.commit_grows

/-- **Every step keeps the invariant.** -/
theorem Step.inv (h : P.Inv s) (hs : P.Step n s s') : P.Inv s' := by
  cases hs with
  | bump ht => exact h.bump ht
  | forget hb => exact h.forget hb
  | stand hpos hb hc hlog =>
    -- the log a node stands with is the one it votes with
    refine (h.nominate hpos hc hlog).grant (Or.inl hb) (record_self _ _ _ _) ?_
    exact Or.inr ⟨rfl, Nat.le_refl _⟩
  | grant hv hc hu => exact h.grant (h.ballot_of_vote hv) hc hu
  | elect hc hl hE hb => exact h.elect hc hl hE hb
  | append hl hes => exact h.append _ hl hes
  | cut hl hc hk hne => exact h.cut hl hc hne
  | extend hl hc hp => exact h.extend hl hc hp
  | acknowledge hl hj => exact h.acknowledge hj
  | commit ht hc hj ha => exact h.commit ht hc hj ha

theorem Steps.inv (h : P.Inv s) (hs : P.Steps n s s') : P.Inv s' := by
  induction hs with
  | refl => exact h
  | tail _ hstep ih => exact Step.inv ih hstep

theorem Steps.grows (h : P.Inv s) (hs : P.Steps n s s') : Grows s s' := by
  induction hs with
  | refl => exact h.grows_refl
  | tail hrun hstep ih => exact ih.trans (Step.grows (hrun.inv h) hstep)

/-! ## What a node of a later term cannot lose -/

/-- A node whose term is not below `t` keeps what a leader of term `t` has committed and it
shares with that leader: the leader that could make it cut shares it too. -/
theorem Step.keeps_committed (h : P.Inv s) (hs : P.Step n s s') (hc : P.Committed s t k)
    (ht : t ≤ s.term n) (hi : i ≤ k) (ha : Agree (s.log n) (s.llog t) i) :
    Agree (s'.log n) (s.log n) i := by
  have hsame : Agree (s.log n) (s.log n) i := Agree.refl ha.le_left
  cases hs with
  | bump => exact hsame
  | forget => exact hsame
  | stand => exact hsame
  | grant => exact hsame
  | elect => exact hsame
  | append =>
    rw [State.append_log]
    exact hsame.append_left
  | cut hl hcn hk hne =>
    rw [State.setLog_log]
    have hlead := h.committed_agree_llog hc ht (hl ▸ Option.some_ne_none _)
    exact hsame.take_left ((ha.trans (hlead.mono hi).symm).le_of_entryAt_ne hne)
  | extend =>
    rw [State.setLog_log]
    exact hsame.append_left
  | acknowledge => exact hsame
  | commit => exact hsame

theorem Steps.keeps_committed (h : P.Inv s) (hs : P.Steps n s s') (hc : P.Committed s t k)
    (ht : t ≤ s.term n) (hi : i ≤ k) (ha : Agree (s.log n) (s.llog t) i) :
    Agree (s'.log n) (s.log n) i := by
  induction hs with
  | refl => exact Agree.refl ha.le_left
  | tail hrun hstep ih =>
    have hg := hrun.grows h
    refine (Step.keeps_committed (hrun.inv h) hstep (hg.committed hc) (ht.trans (hg.term_le n)) hi
      ?_).trans ih
    exact ih.trans (hg.agree_llog ha)

end Protocol

end Replication

end Gringofts
