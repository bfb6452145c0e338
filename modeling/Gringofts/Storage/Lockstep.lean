import Gringofts.Storage.InMemoryLog
import Gringofts.Storage.Operations

/-!
# The segmented log and the log in memory

The two logs go through the same operations, one after the other. The segmented log may be closed
and opened again at any point; it finds everything in its files. Both represent the same window, so
they report the same.

## Main definitions

* `LogOperation` — the operations, and when they are admissible
* `Lockstep` — the pairs of logs that the operations lead to

## Main results

* `Lockstep.represents` — both logs represent one window
* `segmentLog_eq_inMemoryLog` — they report the same, and the next operation succeeds
* `term_queries_answered_iff` — when they agree on the term of the index just below the log as well
-/

namespace Gringofts

open Outcome

/-- What is done to both logs. -/
inductive LogOperation
  | appendEntry (e : LogEntry)
  | appendEntries (es : List LogEntry)
  | truncatePrefix (firstIndexKept : ℕ)
  /-- Segments are dropped at the times of the clock. -/
  | truncateSuffix (lastIndexKept : ℕ) (clock : ℕ → ℕ)
  | setCurrentTerm (term : ℕ)
  | setVoteFor (voteFor : ℕ)
  /-- The segmented log is opened again, with other limits, and its files are listed. -/
  | reopen (limits : SegmentLimits) (names : List FileName)

/-- An operation of the segmented log. Appending reports whether the entries were accepted. -/
def SegmentLog.perform (env : StorageEnv) (s : SegmentLog) :
    LogOperation → Disk (SegmentLog × Bool)
  | .appendEntry e => s.appendEntry env e
  | .appendEntries es => s.appendEntries env es
  | .truncatePrefix k => do pure (← s.truncatePrefix k, true)
  | .truncateSuffix k clock => do pure (← s.truncateSuffix k clock, true)
  | .setCurrentTerm term => do pure (← s.setCurrentTerm term, true)
  | .setVoteFor voteFor => do pure (← s.setVoteFor voteFor, true)
  | .reopen limits names => do pure (← SegmentLog.init limits names s.dir, true)

/-- The same operation of the log in memory, which is not opened again. -/
def InMemoryLog.perform (m : InMemoryLog) : LogOperation → InMemoryLog × Bool
  | .appendEntry e => m.appendEntry e
  | .appendEntries es => InMemoryLog.appendEntries es m
  | .truncatePrefix k => (m.truncatePrefix k, true)
  | .truncateSuffix k _ => (m.truncateSuffix k, true)
  | .setCurrentTerm term => (m.setCurrentTerm term, true)
  | .setVoteFor voteFor => (m.setVoteFor voteFor, true)
  | .reopen _ _ => (m, true)

/-- Consecutive indices. -/
def Contiguous (es : List LogEntry) : Prop :=
  ∀ e ∈ es.head?, ∀ j f, es[j]? = some f → f.index = e.index + j

theorem contiguous_singleton (e : LogEntry) : Contiguous [e] := by
  intro f hf j g hg
  obtain rfl : e = f := by simpa using hf
  cases j with
  | zero =>
    obtain rfl : e = g := by simpa using hg
    rfl
  | succ j => simp at hg

/-- When an operation is admissible: a batch is contiguous and fits an empty segment, and the
versions of the keys are known; a truncation is in the range of the log; the listing is one of the
directory. -/
def SegmentLog.Admissible (env : StorageEnv) (s : SegmentLog) : LogOperation → Prop
  | .appendEntry e => env.Knows e ∧ s.limits.Fits env [e]
  | .appendEntries es => Contiguous es ∧ (∀ e ∈ es, env.Knows e) ∧ s.limits.Fits env es
  | .truncatePrefix k => s.firstIndex ≤ k ∧ k ≤ s.lastIndex
  | .truncateSuffix k _ => s.firstIndex - 1 ≤ k ∧ k ≤ s.lastIndex
  | .setCurrentTerm _ => True
  | .setVoteFor _ => True
  | .reopen _ names => s.dir.Lists names

/-- The pairs of logs that the operations lead to, from a directory without files on. -/
inductive Lockstep (env : StorageEnv) : SegmentLog → InMemoryLog → Prop
  | opened {limits : SegmentLimits} {names : List FileName} {ws : List Directory} {s : SegmentLog}
      (hnames : Directory.empty.Lists names)
      (hrun : (SegmentLog.init limits names Directory.empty).Yields ws s) : Lockstep env s {}
  | step {s s' : SegmentLog} {m : InMemoryLog} {op : LogOperation} {ws : List Directory} {b : Bool}
      (h : Lockstep env s m) (hop : s.Admissible env op)
      (hrun : (s.perform env op).Yields ws (s', b)) : Lockstep env s' (m.perform op).1

variable {env : StorageEnv} {s : SegmentLog} {m : InMemoryLog} {l : Log}

/-- An empty directory holds an empty log. -/
theorem Directory.empty_holds : Directory.empty.Holds env Log.empty :=
  ⟨⟨rfl, rfl, rfl⟩, 1, [], none, [], [], Layout.empty, rfl⟩

/-- What one operation does to both logs. -/
theorem SegmentLog.Represents.perform {op : LogOperation} (h : s.Represents env l)
    (hm : m.Represents l) (hop : s.Admissible env op) :
    ∃ ws s' l', (s.perform env op).Yields ws (s', (m.perform op).2) ∧ s'.Represents env l' ∧
      (m.perform op).1.Represents l' := by
  -- appending, also of a batch that is refused
  have happend : ∀ es : List LogEntry, Contiguous es → (∀ e ∈ es, env.Knows e) →
      s.limits.Fits env es → ∃ ws s' l',
        (s.appendEntries env es).Yields ws (s', (InMemoryLog.appendEntries es m).2) ∧
          s'.Represents env l' ∧ (InMemoryLog.appendEntries es m).1.Represents l' := by
    intro es hcont hknown hfits
    by_cases hnext : ∀ e ∈ es.head?, e.index = l.lastIndex + 1
    · have hindex : ∀ j e, es[j]? = some e → e.index = l.lastIndex + 1 + j := by
        intro j f hf
        cases es with
        | nil => simp at hf
        | cons e es => rw [hcont e rfl j f hf, hnext e rfl]
      obtain ⟨ws, s', hrun, hrep⟩ := h.exists_yields_appendEntries hindex hknown hfits
      obtain ⟨htrue, hrep'⟩ := hm.appendEntries hindex
      exact ⟨ws, s', _, by rwa [htrue], hrep, hrep'⟩
    · cases es with
      | nil => exact absurd (by simp) hnext
      | cons e es =>
        have hne : e.index ≠ l.lastIndex + 1 := by simpa using hnext
        rw [InMemoryLog.appendEntries_refused (by rwa [hm.lastIndex_eq])]
        exact ⟨[], s, l, SegmentLog.yields_appendEntries_refused (by rwa [h.lastIndex_eq]), h, hm⟩
  cases op with
  | appendEntry e =>
    have hone := happend [e] (contiguous_singleton e) (by simpa using hop.1) hop.2
    rw [InMemoryLog.appendEntries_singleton] at hone
    exact hone
  | appendEntries es => exact happend es hop.1 hop.2.1 hop.2.2
  | truncatePrefix k =>
    have hk : k ≤ l.lastIndex := h.lastIndex_eq ▸ hop.2
    obtain ⟨ws, s', hrun, hrep, -⟩ := h.exists_yields_truncatePrefix hk
    exact ⟨_, s', _, hrun.bind (yields_pure _), hrep, hm.truncatePrefix k⟩
  | truncateSuffix k clock =>
    have hk : l.firstIndex ≤ k + 1 := by
      have := hop.1
      rw [h.firstIndex_eq] at this
      omega
    rcases Nat.lt_or_ge k l.lastIndex with hlt | hge
    · obtain ⟨ws, vs, -, s', -, hrun, hrep, -⟩ := h.exists_yields_truncateSuffix clock hk hlt
      exact ⟨_, s', _, hrun.bind (yields_pure _), hrep, hm.truncateSuffix k⟩
    · obtain ⟨hrun, hsame⟩ := h.yields_truncateSuffix_of_le clock hge
      exact ⟨_, s, _, hrun.bind (yields_pure _), hsame.symm ▸ h, hm.truncateSuffix k⟩
  | setCurrentTerm term =>
    obtain ⟨ws, s', hrun, hrep⟩ := h.exists_yields_setCurrentTerm term
    exact ⟨_, s', _, hrun.bind (yields_pure _), hrep,
      ⟨hm.log_eq, hm.firstIndex_eq, hm.lastIndex_eq, rfl, hm.voteFor_eq⟩⟩
  | setVoteFor voteFor =>
    obtain ⟨ws, s', hrun, hrep⟩ := h.exists_yields_setVoteFor voteFor
    exact ⟨_, s', _, hrun.bind (yields_pure _), hrep,
      ⟨hm.log_eq, hm.firstIndex_eq, hm.lastIndex_eq, hm.term_eq, rfl⟩⟩
  | reopen limits names =>
    obtain ⟨ws, s', hrun, hrep, -⟩ := SegmentLog.exists_yields_init h.holds limits hop
    exact ⟨_, s', l, hrun.bind (yields_pure _), hrep, hm⟩

/-- **Both logs represent one window**, whatever is done to them. -/
theorem Lockstep.represents (h : Lockstep env s m) :
    ∃ l, s.Represents env l ∧ m.Represents l := by
  induction h with
  | @opened limits names ws s hnames hrun =>
    have hempty : Directory.empty.Holds env Log.empty := Directory.empty_holds
    obtain ⟨ws', s', hrun', hrep, -⟩ := SegmentLog.exists_yields_init hempty limits hnames
    obtain ⟨-, rfl⟩ := hrun.unique hrun'
    exact ⟨Log.empty, hrep, InMemoryLog.represents_empty⟩
  | step _ hop hrun ih =>
    obtain ⟨l, hs, hm⟩ := ih
    obtain ⟨ws', s'', l', hrun', hrep, hrep'⟩ := hs.perform hm hop
    obtain ⟨-, heq⟩ := hrun.unique hrun'
    obtain ⟨rfl, -⟩ := Prod.mk.inj heq
    exact ⟨l', hrep, hrep'⟩

/-- Every admissible operation can be made. -/
theorem Lockstep.exists_step {op : LogOperation} (h : Lockstep env s m)
    (hop : s.Admissible env op) : ∃ s', Lockstep env s' (m.perform op).1 := by
  obtain ⟨l, hs, hm⟩ := h.represents
  obtain ⟨ws, s', -, hrun, -⟩ := hs.perform hm hop
  exact ⟨s', h.step hop hrun⟩

/-- The range of the segmented log is that of the log in memory. -/
theorem Lockstep.range_eq (h : Lockstep env s m) :
    s.firstIndex = m.firstIndex ∧ s.lastIndex = m.lastIndex := by
  obtain ⟨l, hs, hm⟩ := h.represents
  rw [hs.firstIndex_eq, hm.firstIndex_eq, hs.lastIndex_eq, hm.lastIndex_eq]
  exact ⟨rfl, rfl⟩

/-- **The segmented log equals the log in memory.** After any operations they report the same first
and last index, term and vote, and the same entry and term at every index of the log. The next
operation succeeds, and both accept or refuse it. In particular the log can be opened again, as its
directory can be listed. -/
theorem segmentLog_eq_inMemoryLog (h : Lockstep env s m) :
    s.firstIndex = m.firstIndex ∧ s.lastIndex = m.lastIndex ∧ s.currentTerm = m.term ∧
      s.voteFor = m.voteFor ∧
      (∀ i, s.firstIndex ≤ i → i ≤ s.lastIndex →
        (m.getEntry i).isSome = true ∧ (s.getEntry env i).Yields [] (m.getEntry i) ∧
          (s.getTerm i).Yields [] (m.getTerm i)) ∧
      (∀ op, s.Admissible env op →
        ∃ ws s', (s.perform env op).Yields ws (s', (m.perform op).2)) ∧
      ∃ names, s.dir.Lists names := by
  obtain ⟨l, hs, hm⟩ := h.represents
  refine ⟨h.range_eq.1, h.range_eq.2, ?_, ?_, ?_, ?_, hs.holds.exists_lists⟩
  · rw [hs.currentTerm_eq, hm.term_eq]
  · rw [hs.voteFor_eq, hm.voteFor_eq]
  · intro i hi hi'
    have hin : l.Retains i := ⟨hs.firstIndex_eq ▸ hi, hs.lastIndex_eq ▸ hi'⟩
    rw [hm.getEntry hin, hm.getTerm hin]
    refine ⟨?_, hs.yields_getEntry hin, hs.yields_getTerm hin⟩
    have hlast := l.lastIndex_add_one
    have h1 := hin.1
    have h2 := hin.2
    rw [Log.getEntry, if_pos h1, List.getElem?_eq_getElem (by omega)]
    rfl
  · intro op hop
    obtain ⟨ws, s', -, hrun, -⟩ := hs.perform hm hop
    exact ⟨ws, s', hrun⟩

/-- Two entries. -/
def Scenario.twoEntries : List LogEntry :=
  [⟨1, 1, true, 0, [], 0, none⟩, ⟨1, 2, false, 0, [7], 0, none⟩]

/-- Two entries are appended to a new log. -/
theorem Scenario.exists_lockstep_two : ∃ s, Lockstep StorageEnv.plain s
    (({} : InMemoryLog).perform (.appendEntries twoEntries)).1 := by
  have hempty : Directory.empty.Holds StorageEnv.plain Log.empty := Directory.empty_holds
  obtain ⟨ws, s₀, hrun, -, hlimits⟩ :=
    SegmentLog.exists_yields_init hempty SegmentLimits.onePage Directory.lists_empty
  have h₀ : Lockstep StorageEnv.plain s₀ {} := .opened Directory.lists_empty hrun
  have happend : s₀.Admissible StorageEnv.plain (.appendEntries twoEntries) := by
    refine ⟨?_, by decide, by rw [hlimits]; decide⟩
    intro e he j f hf
    obtain rfl : _ = e := Option.some.inj he
    match j, hf with
    | 0, hf => rw [← Option.some.inj hf]
    | 1, hf => rw [← Option.some.inj hf]
  exact h₀.exists_step happend

/-- The first of the two is truncated. -/
theorem Scenario.exists_lockstep_truncated : ∃ s, Lockstep StorageEnv.plain s
    ((({} : InMemoryLog).perform (.appendEntries twoEntries)).1.perform (.truncatePrefix 2)).1 := by
  obtain ⟨s, h⟩ := exists_lockstep_two
  refine h.exists_step ?_
  obtain ⟨hfirst, hlast⟩ := h.range_eq
  show s.firstIndex ≤ 2 ∧ 2 ≤ s.lastIndex
  rw [hfirst, hlast]
  decide

/-- Two entries are appended, the first is truncated and the log is opened again. -/
theorem segmentLog_eq_inMemoryLog_reopened :
    ∃ s m, Lockstep StorageEnv.plain s m ∧ m.log = [⟨1, 2, false, 0, [7], 0, none⟩] ∧
      s.firstIndex = 2 ∧ s.lastIndex = 2 ∧
      (s.getEntry StorageEnv.plain 2).Yields [] (some ⟨1, 2, false, 0, [7], 0, none⟩) := by
  obtain ⟨s₂, h₂⟩ := Scenario.exists_lockstep_truncated
  obtain ⟨l, hs₂, -⟩ := h₂.represents
  obtain ⟨names, hlist⟩ := hs₂.holds.exists_lists
  have hreopen : s₂.Admissible StorageEnv.plain (.reopen SegmentLimits.onePage names) := hlist
  obtain ⟨s₃, h₃⟩ := h₂.exists_step hreopen
  obtain ⟨hfirst, hlast, -, -, hread, -⟩ := segmentLog_eq_inMemoryLog h₃
  exact ⟨s₃, _, h₃, rfl, hfirst, hlast, (hread 2 hfirst.le hlast.ge).2.1⟩

/-! ## The term just below the log -/

/-- The segmented log answers `0` for the index just below it. -/
theorem SegmentLog.yields_getTerm_below (s : SegmentLog) :
    (s.getTerm (s.firstIndex - 1)).Yields [] (some 0) := by
  rw [getTerm, if_pos rfl]
  exact yields_pure _

/-- The log in memory has no answer for it, unless it is `0`. -/
theorem InMemoryLog.getTerm_below (m : InMemoryLog) (hfirst : 1 < m.firstIndex) :
    m.getTerm (m.firstIndex - 1) = none := by
  rw [getTerm, if_neg (by omega), if_pos (Or.inl (by omega))]

/-- **Both logs answer the queries for a term alike**, for the index just below the log and for
every index of the log, exactly when the log begins at index `1`. -/
theorem term_queries_answered_iff (h : Lockstep env s m) :
    (∀ i, s.firstIndex - 1 ≤ i → i ≤ s.lastIndex →
      ∃ t, (s.getTerm i).Yields [] (some t) ∧ m.getTerm i = some t) ↔ s.firstIndex = 1 := by
  obtain ⟨l, hs, hm⟩ := h.represents
  have hpos := l.first_pos
  have hlast := l.lastIndex_add_one
  have hsfirst := hs.firstIndex_eq
  have hslast := hs.lastIndex_eq
  constructor
  · intro hall
    by_contra hne
    obtain ⟨t, -, ht⟩ := hall (s.firstIndex - 1) (Nat.le_refl _) (by omega)
    rw [h.range_eq.1, m.getTerm_below (by have := h.range_eq.1; omega)] at ht
    cases ht
  · intro hone i hi hi'
    rcases Nat.eq_zero_or_pos i with rfl | hipos
    · have hbelow := s.yields_getTerm_below
      rw [hone] at hbelow
      exact ⟨0, hbelow, rfl⟩
    · have hin : l.Retains i := ⟨by omega, by omega⟩
      obtain ⟨t, ht⟩ := l.exists_getTerm (j := i) (by omega) hin.2
      refine ⟨t, ?_, ?_⟩
      · rw [← ht]
        exact hs.yields_getTerm hin
      · rw [hm.getTerm hin, ht]

/-- **One log answers and the other does not.** Two entries have been appended and the first has
been truncated. The segmented log gives the term `0` for the index just below it, and the log in
memory fails. -/
theorem term_query_depends_on_storage :
    ∃ s m, Lockstep StorageEnv.plain s m ∧ s.firstIndex = 2 ∧ m.firstIndex = 2 ∧
      s.firstIndex - 1 ≤ 1 ∧ 1 ≤ s.lastIndex ∧
      (s.getTerm 1).Yields [] (some 0) ∧ m.getTerm 1 = none := by
  obtain ⟨s, h⟩ := Scenario.exists_lockstep_truncated
  obtain ⟨hfirst, hlast⟩ := h.range_eq
  have hbelow := s.yields_getTerm_below
  have hfirst : s.firstIndex = 2 := hfirst
  have hlast : s.lastIndex = 2 := hlast
  rw [hfirst] at hbelow
  exact ⟨s, _, h, hfirst, rfl, by omega, by omega, hbelow, by decide⟩

theorem term_queries_answered_iff_two :
    ∃ s m, Lockstep StorageEnv.plain s m ∧ m.lastIndex = 2 ∧ s.firstIndex = 1 ∧
      ∀ i, s.firstIndex - 1 ≤ i → i ≤ s.lastIndex →
        ∃ t, (s.getTerm i).Yields [] (some t) ∧ m.getTerm i = some t := by
  obtain ⟨s, h⟩ := Scenario.exists_lockstep_two
  have hfirst : s.firstIndex = 1 := h.range_eq.1
  exact ⟨s, _, h, rfl, hfirst, (term_queries_answered_iff h).mpr hfirst⟩

end Gringofts
