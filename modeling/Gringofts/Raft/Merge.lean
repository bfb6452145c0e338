import Gringofts.Raft.Repair.CatchUp

/-!
# Merging the entries of a request

What an AE request does to the log of the node that accepts it, for any window, any commit index and
any batch. Nothing is assumed about where the request comes from: the log matching that holds in a
cluster is not needed for the merge to be exact.

The loop over the entries walks as long as the terms agree. It stops at the end of the log or at the
first entry that is in conflict, and what it has left over is appended there. So the result is told
by one number, the number `p` of entries that were passed over.

## Main definitions

* `Log.Conflicts` — the log has another term in the place of an entry
* `Log.Fits`, `Log.Splices` — where the loop stops, and what is then appended
* `Log.Absorbs` — the log after an accepted request, without that number

## Main results

* `Node.applyEntries_splices`, `Log.Splices.absorbs` — accepting a request
* `Node.acceptOrReject_again` — accepting it a second time
* `append_entries_merge_exact` — both, and what a rejected request leaves
-/

namespace Gringofts

open Outcome

namespace Log

/-- **A conflict**: the log has an entry of another term in the place of one of the entries. -/
def Conflicts (l : Log) (es : List LogEntry) : Prop :=
  ∃ e ∈ es, ∃ f, l.getEntry e.index = some f ∧ f.term ≠ e.term

/-- The log before and after entries that follow the index `k` were accepted. -/
structure Absorbs (l : Log) (k : ℕ) (es : List LogEntry) (l' : Log) : Prop where
  first_eq : l'.firstIndex = l.firstIndex
  /-- Up to where the request starts nothing changes. -/
  below : ∀ j ≤ k, l'.getEntry j = l.getEntry j
  /-- In the place of an entry there is this entry, or the old one if it has the same term. -/
  within : ∀ e ∈ es, l.firstIndex ≤ e.index →
    ∃ f, l'.getEntry e.index = some f ∧ f.term = e.term ∧ (f = e ∨ l.getEntry e.index = some f)
  /-- What is above the request stays exactly when nothing was in conflict. -/
  above : ∀ j f, k + es.length < j → l.getEntry j = some f →
    (l'.getEntry j = some f ↔ ¬ l.Conflicts es)
  /-- Nothing else is above the request. -/
  nothing_new : ∀ j, k + es.length < j → l.getEntry j = none → l'.getEntry j = none

/-- **Where the loop stops**: after `p` entries that have the terms of the log, at the end of the
log or at a conflict. -/
structure Fits (l : Log) (k : ℕ) (es : List LogEntry) (p : ℕ) : Prop where
  index_eq : ∀ j e, es[j]? = some e → e.index = k + j + 1
  le_last : k + p ≤ l.lastIndex
  same : ∀ j e f, j < p → es[j]? = some e → l.getEntry (k + j + 1) = some f → f.term = e.term
  stop : k + p = l.lastIndex ∨
    ∃ e f, es[p]? = some e ∧ l.getEntry (k + p + 1) = some f ∧ f.term ≠ e.term

/-- The first `p` entries are passed over, and the others follow there. -/
structure Splices (l : Log) (k : ℕ) (es : List LogEntry) (p : ℕ) (l' : Log) : Prop where
  first_eq : l'.firstIndex = l.firstIndex
  kept : ∀ j ≤ k + p, l'.getEntry j = l.getEntry j
  taken : ∀ j, p ≤ j → l'.getEntry (k + j + 1) = es[j]?

variable {l l' : Log} {k p : ℕ} {es : List LogEntry}

theorem truncateSuffix_lastIndex_self : l.truncateSuffix l.lastIndex = l := by
  rw [truncateSuffix, if_neg (Nat.lt_irrefl _)]

namespace Fits

variable (h : l.Fits k es p)
include h

/-- The log, cut where the loop stops. -/
theorem lastIndex_cut : (l.truncateSuffix (k + p)).lastIndex = k + p := by
  rcases h.stop with heq | ⟨e, f, -, hf, -⟩
  · rw [heq, truncateSuffix_lastIndex_self]
  · exact lastIndex_truncateSuffix (first_le_of_getEntry hf)
      (Nat.le_of_succ_le (last_ge_of_getEntry hf))

theorem firstIndex_cut : (l.truncateSuffix (k + p)).firstIndex = l.firstIndex := by
  rcases h.stop with heq | ⟨e, f, -, hf, -⟩
  · rw [heq, truncateSuffix_lastIndex_self]
  · exact truncateSuffix_firstIndex (first_le_of_getEntry hf)

theorem getEntry_cut {j : ℕ} (hj : j ≤ k + p) :
    (l.truncateSuffix (k + p)).getEntry j = l.getEntry j := by
  rcases h.stop with heq | ⟨e, f, -, hf, -⟩
  · rw [heq, truncateSuffix_lastIndex_self]
  · exact getEntry_truncateSuffix (first_le_of_getEntry hf) hj

/-- **A conflict** is what the loop stops at before the end of the log. -/
theorem conflicts_iff : l.Conflicts es ↔ k + p < l.lastIndex ∧ p < es.length := by
  constructor
  · rintro ⟨e, he, f, hf, hne⟩
    obtain ⟨j, hj⟩ := List.mem_iff_getElem?.mp he
    have hidx := h.index_eq j e hj
    have hlen := (List.getElem?_eq_some_iff.mp hj).1
    have hlast := last_ge_of_getEntry hf
    have hpj : p ≤ j := by
      by_contra hlt
      exact hne (h.same j e f (by omega) hj (hidx ▸ hf))
    omega
  · rintro ⟨hlt, -⟩
    obtain ⟨e, f, he, hf, hne⟩ := h.stop.resolve_left (Nat.ne_of_lt hlt)
    refine ⟨e, List.mem_of_getElem? he, f, ?_, hne⟩
    rw [h.index_eq p e he]
    exact hf

end Fits

/-! ## Appending what is left over -/

/-- What the loop has left over carries the next indices, and is not refused. -/
theorem Fits.appendEntries_sat (h : l.Fits k es p) :
    ((l.truncateSuffix (k + p)).appendEntries (es.drop p)).Sat (fun _ => True)
      (fun x => x.2 = true ∧ l.Splices k es p x.1) fun _ => False := by
  have hidx : ∀ j e, (es.drop p)[j]? = some e →
      e.index = (l.truncateSuffix (k + p)).lastIndex + j + 1 := by
    intro j e he
    rw [List.getElem?_drop] at he
    rw [h.index_eq _ e he, h.lastIndex_cut]
    omega
  cases hrest : es.drop p with
  | nil =>
    have hlen : es.length ≤ p := List.drop_eq_nil_iff.mp hrest
    have hend : k + p = l.lastIndex := by
      refine h.stop.resolve_right ?_
      rintro ⟨e, f, he, -, -⟩
      have := (List.getElem?_eq_some_iff.mp he).1
      omega
    rw [hend, truncateSuffix_lastIndex_self]
    refine sat_pure.mpr ⟨rfl, rfl, fun _ _ => rfl, fun j hj => ?_⟩
    have hlast := l.lastIndex_add_one
    show l.getEntry (k + j + 1) = _
    rw [List.getElem?_eq_none (hlen.trans hj), getEntry]
    split
    · exact List.getElem?_eq_none (by omega)
    · rfl
  | cons e rest =>
    rw [hrest] at hidx
    have hfirst : e.index = (l.truncateSuffix (k + p)).lastIndex + 1 := hidx 0 e rfl
    rw [appendEntries, if_neg (not_not.mpr hfirst)]
    refine (appendAll_sat hidx).bind fun x hx => sat_pure.mpr ⟨rfl, ?_⟩
    obtain ⟨hxfirst, hxentries⟩ := hx
    refine ⟨hxfirst.trans h.firstIndex_cut, fun j hj => ?_, fun j hj => ?_⟩
    · rw [getEntry_eq_of_entries hxfirst hxentries (by rw [h.lastIndex_cut]; exact hj),
        h.getEntry_cut hj]
    · have hget := getEntry_append hxfirst hxentries (j - p)
      rw [h.lastIndex_cut, ← hrest, List.getElem?_drop] at hget
      rwa [show k + p + (j - p) + 1 = k + j + 1 by omega,
        show p + (j - p) = j by omega] at hget

/-! ## The log after the request -/

/-- **The merge is exact.** -/
theorem Splices.absorbs (hs : l.Splices k es p l') (h : l.Fits k es p) :
    l.Absorbs k es l' where
  first_eq := hs.first_eq
  below j hj := hs.kept j (by omega)
  within e he hfirst := by
    obtain ⟨j, hj⟩ := List.mem_iff_getElem?.mp he
    have hidx := h.index_eq j e hj
    have hle := h.le_last
    rcases Nat.lt_or_ge j p with hlt | hge
    · obtain ⟨f, hf⟩ := l.exists_getEntry hfirst (by omega)
      refine ⟨f, ?_, h.same j e f hlt hj (hidx ▸ hf), Or.inr hf⟩
      rw [hs.kept _ (by omega), hf]
    · exact ⟨e, by rw [hidx, hs.taken j hge, hj], rfl, Or.inl rfl⟩
  above j f hj hf := by
    have hlast := last_ge_of_getEntry hf
    rw [h.conflicts_iff]
    constructor
    · rintro hget ⟨hlt, hp⟩
      obtain ⟨i, rfl⟩ : ∃ i, j = k + i + 1 := ⟨j - k - 1, by omega⟩
      rw [hs.taken i (by omega), List.getElem?_eq_none (by omega)] at hget
      cases hget
    · intro hno
      have hkp : j ≤ k + p := by
        rcases h.stop with heq | ⟨e, g, he, hg, -⟩
        · omega
        · have hp := (List.getElem?_eq_some_iff.mp he).1
          exact absurd ⟨last_ge_of_getEntry hg, hp⟩ hno
      rw [hs.kept j hkp, hf]
  nothing_new j hj hnone := by
    rcases Nat.lt_or_ge (k + p) j with hlt | hge
    · obtain ⟨i, rfl⟩ : ∃ i, j = k + i + 1 := ⟨j - k - 1, by omega⟩
      rw [hs.taken i (by omega), List.getElem?_eq_none (by omega)]
    · rw [hs.kept j hge, hnone]

/-- Only the window of the old log matters. -/
theorem Absorbs.of_sameWindow {l₀ : Log} (h : l.Absorbs k es l') (hw : l₀.SameWindow l) :
    l₀.Absorbs k es l' := by
  have hget : l.getEntry = l₀.getEntry := funext hw.getEntry_eq
  constructor
  · rw [← hw.first_eq]
    exact h.first_eq
  · rw [← hget]
    exact h.below
  · rw [← hget, ← hw.first_eq]
    exact h.within
  · rw [Conflicts, ← hget]
    exact h.above
  · rw [← hget]
    exact h.nothing_new

/-- The consistency check passes again. -/
theorem Absorbs.accepts {t : ℕ} (h : l.Absorbs k es l') (ha : l.Accepts k t) :
    l'.Accepts k t := by
  rw [Accepts, h.first_eq]
  rcases Nat.lt_or_ge k l.firstIndex with hlt | hge
  · exact Or.inl hlt
  · obtain ⟨hlast, hterm⟩ := ha.resolve_left (Nat.not_lt.mpr hge)
    obtain ⟨e, he⟩ := l.exists_getEntry hge hlast
    have he' : l'.getEntry k = some e := (h.below k (Nat.le_refl _)).trans he
    refine Or.inr ⟨last_ge_of_getEntry he', ?_⟩
    rw [getTerm_of_getEntry he', ← getTerm_of_getEntry he, hterm]

end Log

/-! ## The loop -/

namespace Node

variable {l : Log} {c k : ℕ} {es : List LogEntry}

/-- Every entry that the loop gets past carries the next index. -/
theorem mergeEntries_index_sat :
    (mergeEntries c k es l).Sat (fun _ => True)
      (fun _ => ∀ j e, es[j]? = some e → e.index = k + j + 1) fun _ => True := by
  induction es generalizing k l with
  | nil => exact sat_pure.mpr fun j e he => by simp at he
  | cons e es ih =>
    rw [mergeEntries]
    refine sat_check_bind (fun _ => trivial) fun hidx => ?_
    have hstep : ∀ l, (mergeEntries c (k + 1) es l).Sat (fun _ => True)
        (fun _ => ∀ j e', (e :: es)[j]? = some e' → e'.index = k + j + 1) fun _ => True := by
      intro l
      refine ih.imp fun _ htail j e' he' => ?_
      cases j with
      | zero =>
        obtain rfl : e = e' := by simpa using he'
        exact hidx
      | succ j =>
        rw [htail j e' (by simpa using he')]
        omega
    split
    · exact hstep l
    · split
      · refine (reads_ofOption _ _).sat.bind fun _ _ => ?_
        split
        · exact hstep l
        · refine (reads_check _ _).sat.bind fun _ _ => ?_
          refine sat_persist_bind trivial fun _ => ?_
          exact (hstep _).bind fun _ hx => sat_pure.mpr hx
      · exact (hstep l).bind fun _ hx => sat_pure.mpr hx

/-- **The loop over the entries** passes over those that have the terms of the log, and cuts the log
where it stops. -/
theorem mergeEntries_fits (hes : ∀ j e, es[j]? = some e → e.index = k + j + 1)
    (hlast : k ≤ l.lastIndex) :
    (mergeEntries c k es l).Sat (fun _ => True)
      (fun x => ∃ p, l.Fits k es p ∧ x.1 = l.truncateSuffix (k + p) ∧ x.2 = es.drop p)
      fun _ => True := by
  induction es generalizing k with
  | nil =>
    refine sat_pure.mpr ⟨l.lastIndex - k, ⟨hes, by omega, fun j e f _ he => ?_, ?_⟩, ?_, ?_⟩
    · simp at he
    · exact Or.inl (by omega)
    · rw [show k + (l.lastIndex - k) = l.lastIndex by omega, Log.truncateSuffix_lastIndex_self]
    · simp
  | cons e es ih =>
    have hidx : e.index = k + 1 := hes 0 e rfl
    rcases Nat.lt_or_ge k l.lastIndex with hlt | hge
    swap
    · -- the entry lies above the log
      rw [mergeEntries_of_last_le hes hge]
      have hk : k = l.lastIndex := Nat.le_antisymm hlast hge
      refine sat_pure.mpr ⟨0, ⟨hes, hlast, fun j e f hj => absurd hj (Nat.not_lt_zero j),
        Or.inl hk⟩, ?_, rfl⟩
      rw [Nat.add_zero, hk, Log.truncateSuffix_lastIndex_self]
    have htail : ∀ j e', es[j]? = some e' → e'.index = k + 1 + j + 1 := fun j e' he' => by
      rw [hes (j + 1) e' (by simpa using he')]
      omega
    -- an entry that is passed over makes the number of those one larger
    have hskip : (∀ f, l.getEntry (k + 1) = some f → f.term = e.term) →
        (mergeEntries c (k + 1) es l).Sat (fun _ => True)
          (fun x => ∃ p, l.Fits k (e :: es) p ∧ x.1 = l.truncateSuffix (k + p) ∧
            x.2 = (e :: es).drop p) fun _ => True := by
      intro hsame
      refine (ih htail hlt).imp ?_
      rintro x ⟨p, hp, hx1, hx2⟩
      refine ⟨p + 1, ⟨hes, ?_, ?_, ?_⟩, ?_, ?_⟩
      · have := hp.le_last
        omega
      · intro j e' f hj he' hf
        cases j with
        | zero =>
          obtain rfl : e = e' := by simpa using he'
          exact hsame f hf
        | succ j =>
          refine hp.same j e' f (by omega) (by simpa using he') ?_
          rwa [show k + 1 + j + 1 = k + (j + 1) + 1 by omega]
      · rcases hp.stop with heq | ⟨e', f, he', hf, hne⟩
        · exact Or.inl (by omega)
        · refine Or.inr ⟨e', f, by simpa using he', ?_, hne⟩
          rwa [show k + (p + 1) + 1 = k + 1 + p + 1 by omega]
      · rw [hx1, show k + 1 + p = k + (p + 1) by omega]
      · rw [hx2, List.drop_succ_cons]
    by_cases hsame : ∀ f, l.getEntry (k + 1) = some f → f.term = e.term
    · rw [mergeEntries_skip hidx hlt hsame]
      exact hskip hsame
    · obtain ⟨f, hf, hne⟩ : ∃ f, l.getEntry (k + 1) = some f ∧ f.term ≠ e.term := by
        simpa using hsame
      rw [mergeEntries_cut hes hf hne]
      refine sat_check_bind (fun _ => trivial) fun _ => ?_
      exact sat_persist_bind trivial fun _ => sat_pure.mpr
        ⟨0, ⟨hes, hlast, fun j e f hj => absurd hj (Nat.not_lt_zero j),
          Or.inr ⟨e, f, rfl, hf, hne⟩⟩, rfl, rfl⟩

/-- Entries whose terms the log has are all passed over. -/
theorem mergeEntries_of_holds (hes : ∀ j e, es[j]? = some e → e.index = k + j + 1)
    (h : ∀ e ∈ es, l.firstIndex ≤ e.index → ∃ f, l.getEntry e.index = some f ∧ f.term = e.term) :
    mergeEntries c k es l = pure (l, []) := by
  induction es generalizing k with
  | nil => rfl
  | cons e es ih =>
    have hidx : e.index = k + 1 := hes 0 e rfl
    have htail : mergeEntries c (k + 1) es l = pure (l, []) := by
      refine ih (fun j e' he' => ?_) fun e' he' => h e' (List.mem_cons_of_mem _ he')
      rw [hes (j + 1) e' (by simpa using he')]
      omega
    have hlt : k < l.lastIndex := by
      rcases Nat.lt_or_ge (k + 1) l.firstIndex with hfirst | hfirst
      · have := l.lastIndex_add_one
        omega
      · obtain ⟨f, hf, -⟩ := h e List.mem_cons_self (hidx ▸ hfirst)
        have hle := Log.last_ge_of_getEntry hf
        omega
    rw [mergeEntries_skip hidx hlt, htail]
    intro f hf
    obtain ⟨g, hg, hterm⟩ := h e List.mem_cons_self (hidx ▸ Log.first_le_of_getEntry hf)
    rw [hidx, hf] at hg
    rw [Option.some.inj hg, hterm]

/-! ## The request -/

variable {n m : Node} {r : AppendEntriesRequest}

theorem applyEntries_splices (hlast : r.prevLogIndex ≤ n.log.lastIndex) :
    (n.applyEntries r).Sat (fun _ => True)
      (fun m => ∃ l' p, n.log.Fits r.prevLogIndex r.entries p ∧
        n.log.Splices r.prevLogIndex r.entries p l' ∧ m = { n with log := l' })
      fun _ => True := by
  rw [applyEntries]
  cases hres : (mergeEntries n.commitIndex r.prevLogIndex r.entries n.log).result with
  | error a =>
    refine Sat.bind (R := fun _ => False) ⟨fun _ _ => trivial, ?_⟩ fun _ h => h.elim
    rw [hres]
    trivial
  | ok x =>
    have hidx := mergeEntries_index_sat.of_result hres
    refine (mergeEntries_fits hidx hlast).bind ?_
    rintro ⟨l, rest⟩ ⟨p, hp, rfl, rfl⟩
    refine (hp.appendEntries_sat.mono (fun _ => id) (fun _ => id) fun _ _ => trivial).bind
      fun y hy => (reads_check _ _).sat.bind fun _ _ => ?_
    exact sat_pure.mpr ⟨y.1, p, hp, hy.2, rfl⟩

/-- The commit index follows the leader's, and never falls. -/
theorem followCommit_sat :
    (n.followCommit r).Sat (fun _ => True)
      (fun m => m = { n with commitIndex := max n.commitIndex r.commitIndex }) fun _ => True := by
  rw [followCommit]
  split
  · next hlt =>
    refine (reads_check _ _).sat.bind fun _ _ => sat_pure.mpr ?_
    rw [Nat.max_eq_right hlt.le]
  · next hge =>
    refine sat_pure.mpr ?_
    rw [Nat.max_eq_left (Nat.not_lt.mp hge)]

/-- A node after a request that it has accepted: the log has taken the entries, and the commit index
has followed. -/
structure Accepted (n : Node) (r : AppendEntriesRequest) (m : Node) : Prop where
  accepts : n.log.Accepts r.prevLogIndex r.prevLogTerm
  index_eq : ∀ j e, r.entries[j]? = some e → e.index = r.prevLogIndex + j + 1
  absorbs : n.log.Absorbs r.prevLogIndex r.entries m.log
  commit_eq : m.commitIndex = max n.commitIndex r.commitIndex
  members_eq : m.members = n.members
  role_eq : m.role = n.role
  leaderId_eq : m.leaderId = n.leaderId

/-- **A request whose term and sender are right** is rejected as it is, or accepted. -/
theorem acceptOrReject_accepted_or (clk : Clock) :
    (n.acceptOrReject clk r).Sat (fun _ => True)
      (fun x => (¬ n.log.Accepts r.prevLogIndex r.prevLogTerm ∧
          x = (n, n.rejectAppendEntries r r.term)) ∨
        (n.Accepted r x.1 ∧ x.2 = x.1.acceptAppendEntries r)) fun _ => True := by
  by_cases ha : n.log.Accepts r.prevLogIndex r.prevLogTerm
  swap
  · rw [acceptOrReject_rejected clk ha]
    exact sat_pure.mpr (Or.inl ⟨ha, rfl⟩)
  have hlast : r.prevLogIndex ≤ n.log.lastIndex := by
    have := n.log.lastIndex_add_one
    rcases ha with h | h
    · omega
    · exact h.1
  rw [acceptOrReject, logIsOk_eq, decide_eq_true ha, pure_bind]
  refine (applyEntries_splices hlast).bind ?_
  rintro _ ⟨l', p, hp, hs, rfl⟩
  refine followCommit_sat.bind ?_
  rintro _ rfl
  exact sat_pure.mpr
    (Or.inr ⟨⟨ha, hp.index_eq, hs.absorbs hp, rfl, rfl, rfl, rfl⟩, rfl⟩)

/-- **A request that has been accepted** is accepted once more, and there is nothing left to do. -/
theorem acceptOrReject_again (h : n.Accepted r m) (clk : Clock) :
    m.acceptOrReject clk r = pure (m.updateElectionTimePoint clk, m.acceptAppendEntries r) := by
  have hmerge : mergeEntries m.commitIndex r.prevLogIndex r.entries m.log = pure (m.log, []) := by
    refine mergeEntries_of_holds h.index_eq fun e he hfirst => ?_
    obtain ⟨f, hf, hterm, -⟩ := h.absorbs.within e he (h.absorbs.first_eq ▸ hfirst)
    exact ⟨f, hf, hterm⟩
  have happly : m.applyEntries r = pure m := by
    rw [applyEntries, hmerge]
    rfl
  have hcommit : m.followCommit r = pure m := by
    rw [followCommit, if_neg (Nat.not_lt.mpr _)]
    rw [h.commit_eq]
    exact Nat.le_max_right _ _
  rw [acceptOrReject, logIsOk_eq, decide_eq_true (h.absorbs.accepts h.accepts), pure_bind,
    happly]
  change (m.followCommit r >>= _) = _
  rw [hcommit]
  rfl

/-- The node has found its leader: it is in the request's term and not standing, and its window and
its commit index are as before. -/
structure Settles (n : Node) (r : AppendEntriesRequest) (m : Node) : Prop where
  window : n.log.SameWindow m.log
  commit_eq : m.commitIndex = n.commitIndex
  members_eq : m.members = n.members
  term_eq : m.log.currentTerm = r.term
  role_ne : m.role ≠ .syncer
  not_standing : m.role ≠ .candidate ∧ m.role ≠ .preCandidate

theorem stepDown_settles (clk : Clock) :
    (n.stepDown clk r.term).Sat (fun _ => True) (fun m => n.Settles r m) fun _ => True := by
  refine (stepDown_descends clk r.term).mono (fun _ => id) (fun m hm => ?_) fun _ _ => trivial
  refine ⟨hm.window, hm.commit_eq, hm.members_eq, hm.term_eq, ?_, ?_⟩
  · rw [hm.role_eq]
    exact demotedRole_ne_syncer
  · rw [hm.role_eq]
    exact demotedRole_not_standing

theorem stepDownForLeader_settles (clk : Clock) (hterm : ¬ r.term < n.log.currentTerm)
    (hrole : n.role ≠ .syncer) :
    (n.stepDownForLeader clk r).Sat (fun _ => True) (fun m => n.Settles r m)
      fun _ => True := by
  rw [stepDownForLeader]
  split
  · exact stepDown_settles clk
  · next h =>
    have heq : n.log.currentTerm = r.term := by omega
    have hstand : ¬ (n.role = .candidate ∨ n.role = .preCandidate) := fun hs =>
      h (Or.inr ⟨heq.symm, hs⟩)
    exact sat_pure.mpr ⟨.refl _, rfl, rfl, heq, hrole,
      ⟨fun hr => hstand (Or.inl hr), fun hr => hstand (Or.inr hr)⟩⟩

theorem hail_settles (h : n.Settles r m) (clk : Clock) :
    ((m.updateElectionTimePoint clk).hail r.leaderId).Sat (fun _ => True)
      (fun k => n.Settles r k ∧ k.leaderId = r.leaderId) fun _ => True := by
  rw [hail]
  split
  · exact sat_pure.mpr ⟨{ h with }, rfl⟩
  · refine sat_check_bind (fun _ => trivial) fun hid => ?_
    exact sat_pure.mpr ⟨{ h with }, hid⟩

/-- A node that has found its leader finds it again. -/
theorem handleAppendEntriesRequest_of_settled (clk : Clock)
    (hvoter : m.members.isVoter (ClusterMemberShip.roleKey r.leaderId) = pure true)
    (hterm : m.log.currentTerm = r.term) (hrole : m.role ≠ .syncer)
    (hstand : m.role ≠ .candidate ∧ m.role ≠ .preCandidate) (hid : m.leaderId = r.leaderId) :
    m.handleAppendEntriesRequest clk r =
      (m.updateElectionTimePoint clk).acceptOrReject clk r >>= fun x => pure (x.1, some x.2) := by
  have hdown : m.stepDownForLeader clk r = pure m := by
    rw [stepDownForLeader, if_neg]
    rintro (hlt | ⟨-, hs | hs⟩)
    · omega
    · exact hstand.1 hs
    · exact hstand.2 hs
  have hhail : (m.updateElectionTimePoint clk).hail r.leaderId =
      pure (m.updateElectionTimePoint clk) := by
    rw [hail]
    split
    · rw [← hid]
      rfl
    · have hid' : (m.updateElectionTimePoint clk).leaderId = r.leaderId := hid
      rw [Outcome.check, if_pos hid', pure_bind]
  rw [handleAppendEntriesRequest, hvoter, pure_bind, if_neg (by simp),
    if_neg (by omega), if_neg hrole, hdown, pure_bind, hhail, pure_bind]

/-- What a request that is answered leaves: the window and the commit index, or a node that has
accepted it and would answer it once more. -/
def Answered (n : Node) (r : AppendEntriesRequest) (m : Node) (q : AppendEntriesResponse) : Prop :=
  (q.success = false ∧ n.log.SameWindow m.log ∧ m.commitIndex = n.commitIndex) ∨
    (q.success = true ∧ n.log.Absorbs r.prevLogIndex r.entries m.log ∧
      m.commitIndex = max n.commitIndex r.commitIndex ∧
      q.matchIndex = r.prevLogIndex + r.entries.length ∧
      ∀ clk, m.handleAppendEntriesRequest clk r = pure (m.updateElectionTimePoint clk, some q))

theorem acceptOrReject_answered {k : Node} (hs : n.Settles r k) (hid : k.leaderId = r.leaderId)
    (hvoter : n.members.isVoter (ClusterMemberShip.roleKey r.leaderId) = pure true) (clk : Clock) :
    (k.acceptOrReject clk r).Sat (fun _ => True) (fun x => n.Answered r x.1 x.2)
      fun _ => True := by
  refine ((acceptOrReject_accepted_or clk).and (acceptOrReject_sat clk r)).mono
    (fun _ _ => trivial) ?_ fun _ _ => trivial
  rintro ⟨m, q⟩ ⟨hcase, hobeys⟩
  rcases hcase with ⟨-, heq⟩ | ⟨hm, hq⟩
  · obtain ⟨rfl, rfl⟩ := Prod.mk.inj heq
    exact Or.inl ⟨rfl, hs.window, hs.commit_eq⟩
  obtain rfl : q = m.acceptAppendEntries r := hq
  refine Or.inr ⟨rfl, hm.absorbs.of_sameWindow hs.window, ?_, rfl, fun clk' => ?_⟩
  · rw [← hs.commit_eq]
    exact hm.commit_eq
  · have hterm : m.log.currentTerm = r.term := hobeys.log.term_eq.trans hs.term_eq
    have hvoter' : m.members.isVoter (ClusterMemberShip.roleKey r.leaderId) = pure true := by
      rw [hm.members_eq, hs.members_eq, hvoter]
    rw [handleAppendEntriesRequest_of_settled clk' hvoter' hterm (hm.role_eq ▸ hs.role_ne)
      (hm.role_eq ▸ hs.not_standing) (hm.leaderId_eq.trans hid),
      acceptOrReject_again (n := k) (m := m.updateElectionTimePoint clk') { hm with } clk',
      pure_bind]
    rfl

/-- Every answer to an AE request. -/
theorem handleAppendEntriesRequest_answered (clk : Clock) :
    (n.handleAppendEntriesRequest clk r).Sat (fun _ => True)
      (fun x => (x.2 = none ∧ x.1 = n) ∨ ∃ q, x.2 = some q ∧ n.Answered r x.1 q)
      fun _ => True := by
  have hreads := n.members.isVoter_reads (ClusterMemberShip.roleKey r.leaderId)
  rw [handleAppendEntriesRequest]
  cases hv : (n.members.isVoter (ClusterMemberShip.roleKey r.leaderId)).result with
  | error a =>
    refine Sat.bind (R := fun _ => False) ⟨fun _ _ => trivial, ?_⟩ fun _ h => h.elim
    rw [hv]
    trivial
  | ok voter =>
    rw [hreads.eq_pure hv, pure_bind]
    cases voter with
    | false => exact sat_pure.mpr (Or.inl ⟨rfl, rfl⟩)
    | true =>
      rw [if_neg (by simp)]
      split
      · exact sat_pure.mpr (Or.inr ⟨_, rfl, Or.inl ⟨rfl, .refl _, rfl⟩⟩)
      split
      · exact sat_pure.mpr (Or.inl ⟨rfl, rfl⟩)
      next hterm hrole =>
      refine (stepDownForLeader_settles clk hterm hrole).bind fun m hm => ?_
      refine (hail_settles hm clk).bind fun k hk => ?_
      refine (acceptOrReject_answered hk.1 hk.2 (hreads.eq_pure hv) clk).bind fun x hx => ?_
      exact sat_pure.mpr (Or.inr ⟨x.2, rfl, hx⟩)

end Node

/-- **An AE request merges exactly, and only once.** Accepted, it leaves a log that has absorbed its
entries and a commit index that has followed, and a second time it is answered the same and changes
nothing but the election timer. Not accepted, it leaves the window and the commit index. -/
theorem append_entries_merge_exact {clk : Clock} {n m : Node} {r : AppendEntriesRequest}
    {answer : Option AppendEntriesResponse}
    (h : (n.handleAppendEntriesRequest clk r).result = .ok (m, answer)) :
    (∀ q, answer = some q → q.success = true →
      n.log.Absorbs r.prevLogIndex r.entries m.log ∧
      m.commitIndex = max n.commitIndex r.commitIndex ∧
      q.matchIndex = r.prevLogIndex + r.entries.length ∧
      ∀ clk', m.handleAppendEntriesRequest clk' r =
        pure (m.updateElectionTimePoint clk', some q)) ∧
    ((∀ q, answer = some q → q.success = false) →
      m.log.entries = n.log.entries ∧ m.log.firstIndex = n.log.firstIndex ∧
      m.commitIndex = n.commitIndex) := by
  rcases (Node.handleAppendEntriesRequest_answered clk).of_result h with
    ⟨rfl, rfl⟩ | ⟨q, rfl, hq⟩
  · exact ⟨fun q hq => by simp at hq, fun _ => ⟨rfl, rfl, rfl⟩⟩
  constructor
  · rintro _ ⟨⟩ hok
    rcases hq with ⟨hno, -⟩ | ⟨-, hyes⟩
    · rw [hok] at hno
      cases hno
    · exact hyes
  · intro hno
    rcases hq with ⟨-, hw, hc⟩ | ⟨hok, -⟩
    · exact ⟨hw.entries_eq, hw.first_eq, hc⟩
    · rw [hno q rfl] at hok
      cases hok

/-- The leader of term `3` sends five entries. A node that has the entries `3` to `6`, of the terms
`1`, `1`, `2` and `2`, has dropped the first of them, has the next two, and differs at the
fourth. -/
def Scenario.overlap : AppendEntriesRequest where
  term := 3
  leaderId := 2
  prevLogIndex := 1
  prevLogTerm := 1
  entries := [1, 1, 1, 3, 3].mapIdx fun j t => ⟨t, 2 + j, false, 0, [], 0, none⟩
  commitIndex := 5

theorem append_entries_merge_exact_overlap :
    let l := Scenario.window 3 (by decide) [1, 1, 2, 2] 2
    let n := Scenario.threeVoters.start 1 ⟨0, 0⟩ .follower l
    ∃ m q, (n.handleAppendEntriesRequest ⟨9, 1⟩ Scenario.overlap).result = .ok (m, some q) ∧
      q.success = true ∧ l.Absorbs 1 Scenario.overlap.entries m.log ∧ m.commitIndex = 5 := by
  intro l n
  have hres : (n.handleAppendEntriesRequest ⟨9, 1⟩ Scenario.overlap).result = .ok (_, some _) := rfl
  have hmerge := (append_entries_merge_exact hres).1 _ rfl rfl
  exact ⟨_, _, hres, rfl, hmerge.1, hmerge.2.1⟩

end Gringofts
