import Gringofts.Raft.Repair.Windows

/-!
# What becomes of a batch of client requests

A client waits on the handle of its request until it is answered. A node that does not lead
answers the whole batch at once. A leader takes the requests whose entry carries its term and the
next index, appends their entries and remembers their handles until the entries are committed; the
other requests it drops, and says so in its log file only: nobody answers their handles.

## Counting handles

A handle that stands in a batch twice is owed two answers, so what is owed and what is given are
compared by counting.

## Main definitions

* `Node.Accounts` — no request of a batch is lost
* `InTurn` — every request that waits on a handle comes with the term and the index it needs

## Main results

* `Node.accounts_iff` — a batch is accounted for exactly when a node that does not lead gets it, or
  all its waiting requests come in turn
* `request_dropped_in_silence`
-/

namespace Gringofts

open ClientRequest

/-- The output answers handle `h`. -/
def Output.answers (h : ℕ) : Output → Bool
  | .reply handle _ _ _ => handle = h
  | _ => false

/-- **No request is lost** when node `n` takes the batch `cs` and becomes `m`: every handle of the
batch has been answered or waits at the index of its own entry, and what was added to the waiting
requests is in the log. -/
def Node.Accounts (n m : Node) (cs : List ClientRequest) : Prop :=
  ∃ added, m.pendingClientRequests = n.pendingClientRequests ++ added ∧
    (∀ i h, (cs.map pending).count (i, some h) ≤
      m.outbox.countP (Output.answers h) + added.count (i, some h)) ∧
    ∀ p ∈ added, ∃ c ∈ cs, c.pending = p ∧ m.log.getEntry p.1 = some c.entry

/-- Every request of the batch that has a handle carries the term `currentTerm`, and the index
that follows what was taken before it. -/
def InTurn (currentTerm : ℕ) : ℕ → List ClientRequest → Prop
  | _, [] => True
  | lastLogIndex, c :: cs =>
    if c.entry.term = currentTerm ∧ c.entry.index = lastLogIndex + 1 then
      InTurn currentTerm (lastLogIndex + 1) cs
    else c.handle = none ∧ InTurn currentTerm lastLogIndex cs

namespace Node

variable {n : Node} {cs : List ClientRequest}

/-! ## Answers -/

/-- Each waiting handle is answered once for each time it waits. -/
theorem countP_replyPending (code : ℕ) (message : String) (h : ℕ) (ps : List (ℕ × Option ℕ)) :
    (n.replyPending code message ps).countP (Output.answers h) =
      ps.countP fun p => p.2 = some h := by
  induction ps with
  | nil => rfl
  | cons p ps ih =>
    obtain ⟨i, handle⟩ := p
    cases handle with
    | none => simp [replyPending, ih]
    | some h' => simp [replyPending, ih, List.countP_cons, Output.answers]

/-- A node that does not lead answers every handle of the batch. -/
theorem accounts_of_ne_leader (cs : List ClientRequest) (hrole : n.role ≠ .leader) :
    ∃ m, (n.handleClientRequests cs).result = .ok m ∧ n.Accounts m cs := by
  rw [handleClientRequests, if_pos hrole]
  refine ⟨_, rfl, [], (List.append_nil _).symm, fun i h => ?_, by simp⟩
  have hcount := n.countP_replyPending 301 "NotLeaderAnyMore" h (cs.map pending)
  rw [List.count_nil, Nat.add_zero, List.countP_append, hcount]
  refine Nat.le_trans (List.countP_mono_left fun p _ hp => ?_) (Nat.le_add_left _ _)
  rw [beq_iff_eq.mp hp]
  exact decide_eq_true rfl

/-! ## Taking requests -/

/-- **A leader takes a batch**: the selected entries are appended, their handles wait, and nobody
is answered. -/
theorem handleClientRequests_leader (cs : List ClientRequest) (hrole : n.role = .leader) :
    ∃ l, (n.handleClientRequests cs).result = .ok
        { n with
          log := l
          pendingClientRequests := n.pendingClientRequests ++
            (selectRequests n.log.currentTerm n.log.lastIndex cs).map pending } ∧
      l.firstIndex = n.log.firstIndex ∧ l.entries = n.log.entries ++
        (selectRequests n.log.currentTerm n.log.lastIndex cs).map entry := by
  have hidx : ∀ j e, ((selectRequests n.log.currentTerm n.log.lastIndex cs).map
      entry)[j]? = some e → e.index = n.log.lastIndex + j + 1 :=
    fun j e he => (selectRequests_spec cs _ j he).2
  rw [handleClientRequests, if_neg (not_not.mpr hrole)]
  dsimp only
  generalize selectRequests n.log.currentTerm n.log.lastIndex cs = selected at hidx ⊢
  have happ : (n.log.appendEntries (selected.map entry)).Sat (fun _ => True)
      (fun r => r.1.firstIndex = n.log.firstIndex ∧
        r.1.entries = n.log.entries ++ selected.map entry) fun _ => False := by
    rw [Log.appendEntries.eq_def]
    split
    · next heq =>
      rw [heq]
      exact Outcome.sat_pure.mpr ⟨rfl, (List.append_nil _).symm⟩
    · next e es heq =>
      rw [heq] at hidx
      rw [heq, if_neg (not_not.mpr (hidx 0 e rfl))]
      exact (appendAll_sat hidx).bind fun l hl => Outcome.sat_pure.mpr hl
  obtain ⟨r, hr, hl⟩ := happ.exists_result
  refine ⟨r.1, ?_, hl⟩
  change (Outcome.bind _ _).result = _
  rw [Outcome.bind, hr]
  rfl

/-- The entry of a selected request is found at its index. -/
theorem getEntry_of_selected {l : Log} {c : ClientRequest}
    (hfirst : l.firstIndex = n.log.firstIndex)
    (hentries : l.entries = n.log.entries ++
      (selectRequests n.log.currentTerm n.log.lastIndex cs).map entry)
    (hc : c ∈ selectRequests n.log.currentTerm n.log.lastIndex cs) :
    l.getEntry c.entry.index = some c.entry := by
  obtain ⟨j, hj⟩ := List.mem_iff_getElem?.mp (List.mem_map_of_mem (f := entry) hc)
  rw [(selectRequests_spec cs _ j hj).2, Log.getEntry_append hfirst hentries, hj]

/-- Every handle of a batch is among the selected ones, as often as it is in the batch, exactly
when all the requests with a handle come in turn. -/
theorem count_le_count_selected_iff (t last : ℕ) :
    (∀ i h, (cs.map pending).count (i, some h) ≤
      ((selectRequests t last cs).map pending).count (i, some h)) ↔
      InTurn t last cs := by
  induction cs generalizing last with
  | nil => simp [InTurn]
  | cons c cs ih =>
    rw [selectRequests, InTurn]
    by_cases hc : c.entry.term = t ∧ c.entry.index = last + 1
    · rw [if_pos hc, if_pos hc, ← ih]
      simp only [List.map_cons, List.count_cons, Nat.add_le_add_iff_right]
    · rw [if_neg hc, if_neg hc, ← ih]
      simp only [List.map_cons, List.count_cons]
      constructor
      · intro hcount
        have hnone : c.handle = none := by
          -- a dropped handle is missing from what was selected later
          cases hh : c.handle with
          | none => rfl
          | some h =>
            have hle := ((selectRequests_sublist t last cs).map pending).count_le
              (c.entry.index, some h)
            have hown := hcount c.entry.index h
            rw [pending, hh, beq_self_eq_true, if_pos rfl] at hown
            omega
        exact ⟨hnone, fun i h => (Nat.le_add_right _ _).trans (hcount i h)⟩
      · rintro ⟨hnone, hcount⟩ i h
        have hne : (c.pending == (i, some h)) = false := by
          rw [pending, hnone]
          simp
        rw [hne]
        exact hcount i h

theorem accounts_iff_of_leader (cs : List ClientRequest) (hrole : n.role = .leader)
    (hout : n.outbox = []) :
    (∃ m, (n.handleClientRequests cs).result = .ok m ∧ n.Accounts m cs) ↔
      InTurn n.log.currentTerm n.log.lastIndex cs := by
  obtain ⟨l, hres, hfirst, hentries⟩ := handleClientRequests_leader cs hrole
  rw [hres, ← count_le_count_selected_iff]
  constructor
  · rintro ⟨m, hm, added, hadded, hcount, -⟩
    cases hm
    rw [← List.append_cancel_left hadded] at hcount
    intro i h
    have hle := hcount i h
    rwa [hout, List.countP_nil, Nat.zero_add] at hle
  · intro hcount
    refine ⟨_, rfl, _, rfl, fun i h => (hcount i h).trans (Nat.le_add_left _ _), fun p hp => ?_⟩
    obtain ⟨c, hc, rfl⟩ := List.mem_map.mp hp
    exact ⟨c, (selectRequests_sublist _ _ cs).subset hc, rfl,
      getEntry_of_selected hfirst hentries hc⟩

/-- **When a batch is accounted for.** No handle of a batch is lost exactly when the node does not
lead, so that it turns the whole batch away, or every request with a handle carries the leader's
term and the next index when its turn comes. -/
theorem accounts_iff (cfg : RaftConfig) (n : Node) (cs : List ClientRequest) :
    (∃ m, (n.handle cfg (.clientRequests cs)).result = .ok (m, none) ∧ n.Accounts m cs) ↔
      n.role ≠ .leader ∨ InTurn n.log.currentTerm n.log.lastIndex cs := by
  have hhandle : ∀ m, (n.handle cfg (.clientRequests cs)).result = .ok (m, none) ↔
      (({ n with outbox := [] } : Node).handleClientRequests cs).result = .ok m := by
    intro m
    change (((({ n with outbox := [] } : Node).handleClientRequests cs).bind fun n =>
      Outcome.pure (n, none))).result = .ok (m, none) ↔ _
    rw [Outcome.bind]
    split
    · next hres => simp [hres, Outcome.pure]
    · next hres => simp [hres]
  simp only [hhandle]
  by_cases hrole : n.role = .leader
  · have hiff := accounts_iff_of_leader (n := { n with outbox := [] }) cs hrole rfl
    rw [or_iff_right (not_not.mpr hrole)]
    exact hiff
  · have hdone := accounts_of_ne_leader (n := { n with outbox := [] }) cs hrole
    exact iff_of_true hdone (Or.inl hrole)

end Node

/-- **A request is dropped in silence.** The leader of three voters, whose log ends at index `2`,
gets a request on handle `7` whose entry was made for index `2`: after the step nobody was
answered, nobody waits on `7`, and the log is what it was. -/
theorem request_dropped_in_silence :
    ∃ c m, Reachable Scenario.threeVoters c ∧ (c.nodes 2).role = .leader ∧
      ((c.nodes 2).handle Scenario.config
        (.clientRequests [⟨⟨1, 2, false, 0, [], 0, none⟩, some 7⟩])).result = .ok (m, none) ∧
      m.outbox = [] ∧ (∀ p ∈ m.pendingClientRequests, p.2 ≠ some 7) ∧
      m.log.entries = (c.nodes 2).log.entries := by
  obtain ⟨c, hc, hp⟩ := exists_reachable Scenario.threeVoters Scenario.replicated
    (p := fun c => (c.nodes 2).role = .leader ∧ ((c.nodes 2).handle Scenario.config
      (.clientRequests [⟨⟨1, 2, false, 0, [], 0, none⟩, some 7⟩])).value?.any fun r =>
        r.2 = none ∧ r.1.outbox = [] ∧ (∀ p ∈ r.1.pendingClientRequests, p.2 ≠ some 7) ∧
          r.1.log.entries = (c.nodes 2).log.entries) (by decide +kernel)
  obtain ⟨hrole, hstep⟩ := of_decide_eq_true hp
  obtain ⟨⟨m, a⟩, hm, hr⟩ := (Option.any_eq_true _ _).mp hstep
  obtain ⟨rfl, hout, hpending, hlog⟩ := of_decide_eq_true hr
  exact ⟨c, m, hc, hrole, Outcome.value?_eq_some.mp hm, hout, hpending, hlog⟩

end Gringofts
