import Gringofts.Storage.Log

/-!
# The log in memory

`InMemoryLog` keeps the entries in a vector. It is what the segmented log is compared with in the
repository's own test. It stands for a window like the one the consensus code is verified with.

## Main definitions

* `InMemoryLog` and its operations

## Main results

* `InMemoryLog.Represents` is kept by the operations
-/

namespace Gringofts

variable {es : List LogEntry} {i : ℕ}

/-- `InMemoryLog`. -/
structure InMemoryLog where
  log : List LogEntry := []
  firstIndex : ℕ := 1
  lastIndex : ℕ := 0
  term : ℕ := 0
  voteFor : ℕ := 0
  deriving DecidableEq

namespace InMemoryLog

variable (m : InMemoryLog)

/-- `appendEntry`. -/
def appendEntry (e : LogEntry) : InMemoryLog × Bool :=
  if m.lastIndex + 1 ≠ e.index then (m, false)
  else ({ m with lastIndex := m.lastIndex + 1, log := m.log ++ [e] }, true)

/-- `appendEntries`: entry by entry, up to the first that is refused. -/
def appendEntries : List LogEntry → InMemoryLog → InMemoryLog × Bool
  | [], m => (m, true)
  | e :: es, m =>
    match m.appendEntry e with
    | (m, true) => appendEntries es m
    | (m, false) => (m, false)

/-- `getEntry`. -/
def getEntry (index : ℕ) : Option LogEntry :=
  if index = 0 then some ⟨0, 0, false, 0, [], 0, none⟩
  else if index < m.firstIndex ∨ m.lastIndex < index then none
  else m.log[index - m.firstIndex]?

/-- `getTerm`. -/
def getTerm (index : ℕ) : Option ℕ :=
  if index = 0 then some 0
  else if index < m.firstIndex ∨ m.lastIndex < index then none
  else (m.log[index - m.firstIndex]?).map LogEntry.term

/-- `truncatePrefix`. -/
def truncatePrefix (firstIndexKept : ℕ) : InMemoryLog :=
  if firstIndexKept ≤ m.firstIndex then m
  else if m.lastIndex < firstIndexKept then
    { m with firstIndex := firstIndexKept, lastIndex := firstIndexKept - 1, log := [] }
  else
    { m with firstIndex := firstIndexKept, log := m.log.drop (firstIndexKept - m.firstIndex) }

/-- `truncateSuffix`. -/
def truncateSuffix (lastIndexKept : ℕ) : InMemoryLog :=
  if m.lastIndex ≤ lastIndexKept then m
  else if lastIndexKept < m.firstIndex then
    { m with lastIndex := lastIndexKept, firstIndex := lastIndexKept + 1, log := [] }
  else
    { m with lastIndex := lastIndexKept, log := m.log.take (lastIndexKept - m.firstIndex + 1) }

/-- `setCurrentTerm`. -/
def setCurrentTerm (term : ℕ) : InMemoryLog := { m with term := term }

/-- `setVoteFor`. -/
def setVoteFor (voteFor : ℕ) : InMemoryLog := { m with voteFor := voteFor }

/-- The vector holds the window. -/
structure Represents (l : Log) : Prop where
  log_eq : m.log = l.entries
  firstIndex_eq : m.firstIndex = l.firstIndex
  lastIndex_eq : m.lastIndex = l.lastIndex
  term_eq : m.term = l.currentTerm
  voteFor_eq : m.voteFor = l.voteFor

/-! ## The operations -/

theorem represents_empty : Represents {} Log.empty := ⟨rfl, rfl, rfl, rfl, rfl⟩

variable {m} {l : Log} {k : ℕ}

/-- Entries with the next indices are all appended. -/
theorem appendEntries_eq (h : ∀ j e, es[j]? = some e → e.index = m.lastIndex + 1 + j) :
    appendEntries es m =
      ({ m with lastIndex := m.lastIndex + es.length, log := m.log ++ es }, true) := by
  induction es generalizing m with
  | nil => simp [appendEntries]
  | cons e es ih =>
    have hhead : ¬ m.lastIndex + 1 ≠ e.index := not_not.mpr (h 0 e rfl).symm
    rw [appendEntries, appendEntry, if_neg hhead]
    dsimp only
    rw [ih fun j e' he' => by rw [h (j + 1) e' he']; show _ = m.lastIndex + 1 + 1 + j; omega]
    simp only [List.append_assoc, List.singleton_append, List.length_cons]
    congr 2
    omega

theorem appendEntries_singleton (e : LogEntry) : appendEntries [e] m = m.appendEntry e := by
  rw [appendEntries]
  by_cases h : m.lastIndex + 1 ≠ e.index
  · rw [appendEntry, if_pos h]
  · rw [appendEntry, if_neg h]
    rfl

/-- A batch with another first index is refused. -/
theorem appendEntries_refused {e : LogEntry} (h : e.index ≠ m.lastIndex + 1) :
    appendEntries (e :: es) m = (m, false) := by
  rw [appendEntries, appendEntry, if_pos (Ne.symm h)]

theorem Represents.appendEntries (h : m.Represents l)
    (hindex : ∀ j e, es[j]? = some e → e.index = l.lastIndex + 1 + j) :
    (InMemoryLog.appendEntries es m).2 = true ∧
      (InMemoryLog.appendEntries es m).1.Represents (l.appendBatch es hindex) := by
  rw [appendEntries_eq (by rw [h.lastIndex_eq]; exact hindex)]
  refine ⟨rfl, ?_, h.firstIndex_eq, ?_, h.term_eq, h.voteFor_eq⟩
  · show m.log ++ es = l.entries ++ es
    rw [h.log_eq]
  · have h1 := (l.appendBatch es hindex).lastIndex_add_one
    have h2 := l.lastIndex_add_one
    simp only [Log.appendBatch, List.length_append] at *
    rw [h.lastIndex_eq]
    omega

theorem Represents.truncatePrefix (h : m.Represents l) (k : ℕ) :
    (m.truncatePrefix k).Represents (l.truncatePrefix k) := by
  have hlast := l.lastIndex_add_one
  have hpos := l.first_pos
  rw [InMemoryLog.truncatePrefix, Log.truncatePrefix, h.firstIndex_eq, h.lastIndex_eq]
  by_cases hle : k ≤ l.firstIndex
  · rw [if_pos hle, dif_neg (Nat.not_lt.mpr hle)]
    exact h
  · rw [if_neg hle, dif_pos (Nat.not_le.mp hle)]
    split
    · next hlt =>
      have hnil : l.entries.drop (k - l.firstIndex) = [] := List.drop_eq_nil_of_le (by omega)
      refine ⟨hnil.symm, rfl, ?_, h.term_eq, h.voteFor_eq⟩
      show k - 1 = k + (l.entries.drop (k - l.firstIndex)).length - 1
      rw [hnil]
      rfl
    · next hge =>
      refine ⟨by rw [h.log_eq], rfl, ?_, h.term_eq, h.voteFor_eq⟩
      show l.lastIndex = k + (l.entries.drop (k - l.firstIndex)).length - 1
      rw [List.length_drop]
      omega

theorem Represents.truncateSuffix (h : m.Represents l) (k : ℕ) :
    (m.truncateSuffix k).Represents (l.truncateSuffix k) := by
  have hlast := l.lastIndex_add_one
  rw [InMemoryLog.truncateSuffix, Log.truncateSuffix, h.firstIndex_eq, h.lastIndex_eq]
  by_cases hle : l.lastIndex ≤ k
  · rw [if_pos hle, if_neg (Nat.not_lt.mpr hle)]
    exact h
  · rw [if_neg hle, if_pos (Nat.not_le.mp hle)]
    split
    · next hlt =>
      have hzero : k + 1 - l.firstIndex = 0 := by omega
      refine ⟨?_, ?_, ?_, h.term_eq, h.voteFor_eq⟩
      · show [] = l.entries.take (k + 1 - l.firstIndex)
        rw [hzero, List.take_zero]
      · show k + 1 = min l.firstIndex (k + 1)
        omega
      · show k = min l.firstIndex (k + 1) + (l.entries.take (k + 1 - l.firstIndex)).length - 1
        rw [hzero, List.take_zero, List.length_nil]
        omega
    · next hge =>
      refine ⟨?_, ?_, ?_, h.term_eq, h.voteFor_eq⟩
      · show m.log.take (k - l.firstIndex + 1) = l.entries.take (k + 1 - l.firstIndex)
        rw [h.log_eq]
        congr 1
        omega
      · show l.firstIndex = min l.firstIndex (k + 1)
        omega
      · show k = min l.firstIndex (k + 1) + (l.entries.take (k + 1 - l.firstIndex)).length - 1
        rw [List.length_take]
        omega

theorem Represents.getEntry (h : m.Represents l) (hi : l.Retains i) :
    m.getEntry i = l.getEntry i := by
  have hpos := l.first_pos
  obtain ⟨hfirst, hlast⟩ := hi
  rw [InMemoryLog.getEntry, Log.getEntry, h.firstIndex_eq, h.lastIndex_eq, h.log_eq,
    if_neg (by omega), if_neg (by omega), if_pos hfirst]

theorem Represents.getTerm (h : m.Represents l) (hi : l.Retains i) : m.getTerm i = l.getTerm i := by
  have hpos := l.first_pos
  obtain ⟨hfirst, hlast⟩ := hi
  rw [InMemoryLog.getTerm, Log.getTerm, Log.getEntry, h.firstIndex_eq, h.lastIndex_eq, h.log_eq,
    if_neg (by omega), if_neg (by omega), if_pos hfirst, if_neg (by omega)]

end InMemoryLog

end Gringofts
