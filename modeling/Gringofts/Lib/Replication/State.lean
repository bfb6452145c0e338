import Gringofts.Lib.Agree
import Mathlib.Data.Finset.Basic
import Mathlib.Logic.Function.Basic

/-!
# Leader-based log replication, abstractly

What a leader-based replication protocol is, with everything removed that does not bear on its
safety: no network, no timers, no roles, and no bound on how much of its log a node keeps. A node
has a term, a register for its vote and its whole log. Beside the nodes stands the *history*: who
was elected in which term, with which log and by which ballots, how that leader's log has grown,
and which prefix of it each node has acknowledged. A node forgets, crashes and is overwritten;
the history only grows.

## The vote register

The register is not the ballot. A node that is stopped between raising its term and resetting
its register comes back with a vote it cast in an earlier term; `ballot` records only what was
granted. The two are related by an invariant, not by definition.

## Early ballots

`early t n` is the log of `n` when it voted in term `t`, provided nobody had won the term yet. A
ballot cast after the election is harmless but says nothing about the winner, so only early ones
are kept: they are the ballots an election can rest on.

## Main definitions

* `Replication.Protocol` — the term of an entry and the two kinds of quorum
* `Replication.State` — the nodes and the history
* `Replication.Protocol.Step` — what a node may do, one durable effect at a time
* `Replication.Protocol.Committed` — an index a commit quorum has acknowledged in its own term
-/

namespace Gringofts

namespace Replication

/-- The parameters of the protocol: how an entry is stamped with a term, which sets of nodes
elect a leader and which sets commit an index. -/
structure Protocol (ι ε : Type) where
  /-- The term in which an entry was made. -/
  term : ε → ℕ
  /-- The sets of nodes whose ballots elect a leader. -/
  elects : Finset ι → Prop
  /-- The sets of nodes whose acknowledgements commit an index. -/
  commits : Finset ι → Prop
  /-- Two electing sets meet. -/
  elects_elects : ∀ {E E' : Finset ι}, elects E → elects E' → ∃ n, n ∈ E ∧ n ∈ E'
  /-- An electing set meets every committing set. -/
  elects_commits : ∀ {E C : Finset ι}, elects E → commits C → ∃ n, n ∈ E ∧ n ∈ C

/-- The nodes and the history. -/
structure State (ι ε : Type) where
  /-- The current term of a node. -/
  term : ι → ℕ
  /-- The register holding a node's vote. -/
  vote : ι → Option ι
  /-- The whole log of a node. -/
  log : ι → List ε
  /-- The highest index a node has ever counted as committed. -/
  committed : ι → ℕ
  /-- Who won a term. -/
  leader : ℕ → Option ι
  /-- The log a term was won with. -/
  elog : ℕ → List ε
  /-- The log of the leader of a term, as far as it has grown. -/
  llog : ℕ → List ε
  /-- The log a node stood for election with. -/
  cand : ℕ → ι → Option (List ε)
  /-- Whom a node voted for in a term. -/
  ballot : ℕ → ι → Option ι
  /-- The log of a voter, for ballots cast before the term was won. -/
  early : ℕ → ι → Option (List ε)
  /-- How far a node has acknowledged the log of a term's leader. -/
  ack : ℕ → ι → ℕ

/-- The state everything starts from. -/
def State.init (ι ε : Type) : State ι ε where
  term _ := 0
  vote _ := none
  log _ := []
  committed _ := 0
  leader _ := none
  elog _ := []
  llog _ := []
  cand _ _ := none
  ballot _ _ := none
  early _ _ := none
  ack _ _ := 0

variable {ι ε : Type} [DecidableEq ι]

/-! ## Recording a fact of a node in a term -/

/-- Overwrite the value recorded for node `n` in term `t`. -/
def record {β : Type} (f : ℕ → ι → β) (t : ℕ) (n : ι) (v : β) : ℕ → ι → β :=
  fun t' n' => if t' = t ∧ n' = n then v else f t' n'

@[simp] theorem record_self {β : Type} (f : ℕ → ι → β) (t : ℕ) (n : ι) (v : β) :
    record f t n v t n = v := by
  simp [record]

theorem record_of_ne {β : Type} {f : ℕ → ι → β} {t t' : ℕ} {n n' : ι} {v : β}
    (h : ¬ (t' = t ∧ n' = n)) : record f t n v t' n' = f t' n' := by
  simp [record, h]

theorem record_cases {β : Type} (f : ℕ → ι → β) (t : ℕ) (n : ι) (v : β) (t' : ℕ) (n' : ι) :
    (t' = t ∧ n' = n ∧ record f t n v t' n' = v) ∨
      (¬ (t' = t ∧ n' = n) ∧ record f t n v t' n' = f t' n') := by
  by_cases h : t' = t ∧ n' = n
  · exact Or.inl ⟨h.1, h.2, by simp [record, h]⟩
  · exact Or.inr ⟨h, record_of_ne h⟩

/-! ## The effects -/

namespace State

variable (s : State ι ε) (n : ι)

/-- Raise the term of a node. The vote register is left alone. -/
def bump (t : ℕ) : State ι ε := { s with term := Function.update s.term n t }

/-- Reset the vote register. -/
def forget : State ι ε := { s with vote := Function.update s.vote n none }

/-- The early ballot of `n` after a vote in its term: the first one counts, and only while the
term is open. -/
def earlyBallot : Option (List ε) :=
  match s.early (s.term n) n with
  | some l => some l
  | none => if s.leader (s.term n) = none then some (s.log n) else none

/-- Vote for `c` in the current term. -/
def grant (c : ι) : State ι ε :=
  { s with
    vote := Function.update s.vote n (some c)
    ballot := record s.ballot (s.term n) n (some c)
    early := record s.early (s.term n) n (s.earlyBallot n) }

/-- Fix the log to stand with. -/
def nominate : State ι ε :=
  { s with cand := record s.cand (s.term n) n (some (s.log n)) }

/-- Stand for election and vote for oneself. -/
def stand : State ι ε := (s.nominate n).grant n n

/-- Win the current term. -/
def elect : State ι ε :=
  { s with
    leader := Function.update s.leader (s.term n) (some n)
    elog := Function.update s.elog (s.term n) (s.log n)
    llog := Function.update s.llog (s.term n) (s.log n)
    ack := record s.ack (s.term n) n (s.log n).length }

/-- A leader extends its own log. -/
def append (es : List ε) : State ι ε :=
  { s with
    log := Function.update s.log n (s.log n ++ es)
    llog := Function.update s.llog (s.term n) (s.llog (s.term n) ++ es)
    ack := record s.ack (s.term n) n (s.log n ++ es).length }

/-- Replace the log of a node that follows. -/
def setLog (l : List ε) : State ι ε := { s with log := Function.update s.log n l }

/-- Acknowledge the leader of the current term up to `j`. -/
def acknowledge (j : ℕ) : State ι ε :=
  { s with ack := record s.ack (s.term n) n (max (s.ack (s.term n) n) j) }

/-- Count `j` as committed. -/
def commit (j : ℕ) : State ι ε :=
  { s with committed := Function.update s.committed n (max (s.committed n) j) }

/-! ### What a node finds after its own effect -/

@[simp] theorem bump_term (t : ℕ) : (s.bump n t).term n = t := Function.update_self _ _ _

@[simp] theorem forget_vote : (s.forget n).vote n = none := Function.update_self _ _ _

@[simp] theorem grant_vote (c : ι) : (s.grant n c).vote n = some c := Function.update_self _ _ _

@[simp] theorem grant_ballot (c : ι) : (s.grant n c).ballot (s.term n) n = some c :=
  record_self _ _ _ _

@[simp] theorem stand_vote : (s.stand n).vote n = some n := Function.update_self _ _ _

@[simp] theorem stand_ballot : (s.stand n).ballot (s.term n) n = some n := record_self _ _ _ _

@[simp] theorem stand_cand : (s.stand n).cand (s.term n) n = some (s.log n) :=
  record_self _ _ _ _

@[simp] theorem elect_leader : (s.elect n).leader (s.term n) = some n := Function.update_self _ _ _

@[simp] theorem append_log (es : List ε) : (s.append n es).log n = s.log n ++ es :=
  Function.update_self _ _ _

@[simp] theorem setLog_log (l : List ε) : (s.setLog n l).log n = l := Function.update_self _ _ _

@[simp] theorem acknowledge_ack (j : ℕ) :
    (s.acknowledge n j).ack (s.term n) n = max (s.ack (s.term n) n) j := record_self _ _ _ _

@[simp] theorem commit_committed (j : ℕ) :
    (s.commit n j).committed n = max (s.committed n) j := Function.update_self _ _ _

/-! ### Early ballots -/

variable {s n}

omit [DecidableEq ι] in
theorem earlyBallot_of_some {l : List ε} (he : s.early (s.term n) n = some l) :
    s.earlyBallot n = some l := by
  simp [earlyBallot, he]

omit [DecidableEq ι] in
/-- An early ballot was there before, or it is cast now and the term is open. -/
theorem earlyBallot_cases {m : List ε} (hm : s.earlyBallot n = some m) :
    s.early (s.term n) n = some m ∨ s.leader (s.term n) = none ∧ m = s.log n := by
  rw [earlyBallot] at hm
  split at hm
  · next l he => exact Or.inl (he.trans hm)
  · split at hm
    · next hl => exact Or.inr ⟨hl, (Option.some.inj hm).symm⟩
    · cases hm

omit [DecidableEq ι] in
theorem earlyBallot_ne_none (hl : s.leader (s.term n) = none) : s.earlyBallot n ≠ none := by
  rw [earlyBallot]
  split
  · simp
  · simp [hl]

end State

/-! ## Steps -/

namespace Protocol

variable (P : Protocol ι ε)

/-- A log is at least as up to date as another: a higher last term, or the same and no
shorter. -/
def UpToDate (l m : List ε) : Prop :=
  termAt P.term m m.length < termAt P.term l l.length ∨
    termAt P.term l l.length = termAt P.term m m.length ∧ m.length ≤ l.length

/-- Index `i` is committed by the leader of term `t`: the entry there is of that term, and a
committing set has acknowledged it. -/
def Committed (s : State ι ε) (t i : ℕ) : Prop :=
  s.leader t ≠ none ∧ i ≤ (s.llog t).length ∧ termAt P.term (s.llog t) i = t ∧
    ∃ C, P.commits C ∧ ∀ n ∈ C, i ≤ s.ack t n

/-- **One effect of node `n`.** A step of a real node is a sequence of these, and a node that
stops on the way has made an initial part of the sequence. -/
inductive Step (n : ι) : State ι ε → State ι ε → Prop
  | bump {s : State ι ε} {t : ℕ} (h : s.term n < t) : Step n s (s.bump n t)
  | forget {s : State ι ε} (h : s.ballot (s.term n) n = none) : Step n s (s.forget n)
  | stand {s : State ι ε} (hpos : 0 < s.term n) (hb : s.ballot (s.term n) n = none)
      (hc : s.cand (s.term n) n = none) (hlog : ∀ e ∈ s.log n, P.term e < s.term n) :
      Step n s (s.stand n)
  | grant {s : State ι ε} {c : ι} {l : List ε} (hv : s.vote n = none ∨ s.vote n = some c)
      (hc : s.cand (s.term n) c = some l) (hu : P.UpToDate l (s.log n)) : Step n s (s.grant n c)
  | elect {s : State ι ε} {E : Finset ι} (hc : s.cand (s.term n) n = some (s.log n))
      (hl : s.leader (s.term n) ≠ some n) (hE : P.elects E)
      (hb : ∀ v ∈ E, s.ballot (s.term n) v = some n) : Step n s (s.elect n)
  | append {s : State ι ε} {es : List ε} (hl : s.leader (s.term n) = some n)
      (hes : ∀ e ∈ es, P.term e = s.term n) : Step n s (s.append n es)
  | cut {s : State ι ε} {c : ι} {k : ℕ} (hl : s.leader (s.term n) = some c) (hc : c ≠ n)
      (hk : Agree (s.log n) (s.llog (s.term n)) k)
      (hne : entryAt (s.log n) (k + 1) ≠ entryAt (s.llog (s.term n)) (k + 1)) :
      Step n s (s.setLog n ((s.log n).take k))
  | extend {s : State ι ε} {c : ι} {es : List ε} (hl : s.leader (s.term n) = some c)
      (hc : c ≠ n) (hp : s.log n ++ es <+: s.llog (s.term n)) :
      Step n s (s.setLog n (s.log n ++ es))
  | acknowledge {s : State ι ε} {j : ℕ} (hl : s.leader (s.term n) ≠ none)
      (hj : Agree (s.log n) (s.llog (s.term n)) j) : Step n s (s.acknowledge n j)
  | commit {s : State ι ε} {j t i : ℕ} (ht : t ≤ s.term n) (hc : P.Committed s t i) (hj : j ≤ i)
      (ha : Agree (s.log n) (s.llog t) j) : Step n s (s.commit n j)

/-- A sequence of effects of one node. -/
inductive Steps (n : ι) : State ι ε → State ι ε → Prop
  | refl (s : State ι ε) : Steps n s s
  | tail {s s' s'' : State ι ε} (h : Steps n s s') (h' : P.Step n s' s'') : Steps n s s''

variable {P}

theorem Step.steps {n : ι} {s s' : State ι ε} (h : P.Step n s s') : P.Steps n s s' :=
  .tail (.refl s) h

theorem Steps.trans {n : ι} {s s' s'' : State ι ε} (h : P.Steps n s s')
    (h' : P.Steps n s' s'') : P.Steps n s s'' := by
  induction h' with
  | refl => exact h
  | tail _ hs ih => exact .tail ih hs

/-! ## What a step of one node leaves alone -/

/-- The registers of the nodes other than `n` are the same in both states. -/
def SameElsewhere (n : ι) (s s' : State ι ε) : Prop :=
  ∀ v, v ≠ n → s'.term v = s.term v ∧ s'.vote v = s.vote v ∧ s'.log v = s.log v ∧
    s'.committed v = s.committed v ∧ ∀ t, s'.leader t = some v → s.leader t = some v

theorem Step.sameElsewhere {n : ι} {s s' : State ι ε} (h : P.Step n s s') :
    SameElsewhere n s s' := by
  intro v hv
  cases h with
  | bump => exact ⟨Function.update_of_ne hv _ _, rfl, rfl, rfl, fun _ => id⟩
  | forget => exact ⟨rfl, Function.update_of_ne hv _ _, rfl, rfl, fun _ => id⟩
  | stand => exact ⟨rfl, Function.update_of_ne hv _ _, rfl, rfl, fun _ => id⟩
  | grant => exact ⟨rfl, Function.update_of_ne hv _ _, rfl, rfl, fun _ => id⟩
  | elect =>
    refine ⟨rfl, rfl, rfl, rfl, fun t ht => ?_⟩
    change Function.update s.leader (s.term n) (some n) t = some v at ht
    by_cases htt : t = s.term n
    · subst htt
      rw [Function.update_self] at ht
      exact absurd (Option.some.inj ht).symm hv
    · rwa [Function.update_of_ne htt] at ht
  | append => exact ⟨rfl, rfl, Function.update_of_ne hv _ _, rfl, fun _ => id⟩
  | cut => exact ⟨rfl, rfl, Function.update_of_ne hv _ _, rfl, fun _ => id⟩
  | extend => exact ⟨rfl, rfl, Function.update_of_ne hv _ _, rfl, fun _ => id⟩
  | acknowledge => exact ⟨rfl, rfl, rfl, rfl, fun _ => id⟩
  | commit => exact ⟨rfl, rfl, rfl, Function.update_of_ne hv _ _, fun _ => id⟩

theorem Steps.sameElsewhere {n : ι} {s s' : State ι ε} (h : P.Steps n s s') :
    SameElsewhere n s s' := by
  induction h with
  | refl => exact fun _ _ => ⟨rfl, rfl, rfl, rfl, fun _ => id⟩
  | tail _ hs ih =>
    intro v hv
    obtain ⟨h1, h2, h3, h4, h5⟩ := ih v hv
    obtain ⟨g1, g2, g3, g4, g5⟩ := hs.sameElsewhere v hv
    exact ⟨g1.trans h1, g2.trans h2, g3.trans h3, g4.trans h4, fun t ht => h5 t (g5 t ht)⟩

end Protocol

end Replication

end Gringofts
