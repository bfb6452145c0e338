import Gringofts.Lib.Agree
import Gringofts.Lib.Outcome

/-!
# The segmented log

What the consensus code sees of `storage::SegmentLog`: a window `[firstIndex, lastIndex]` of
entries together with the two registers `currentTerm` and `voteFor`. Each register is a file of
its own, so each write of one of them is a durable step of its own; a batch of entries reaches
the disk entry by entry.

The window carries the proof that its entries are numbered consecutively. `Segment::appendEntries`
asserts exactly that of every entry, so a log that violates it is not a state the code can be in.

## Segments

The only trace the division into segments leaves in the interface is `getEntries`, which returns
entries of one segment only. Where a segment ends depends on sizes the consensus code does not
see, so the end is a parameter.

## Main definitions

* `LogEntry`, `Log` — an entry, and the window with its registers
* `Log.getTerm`, `Log.getEntry`, `Log.getEntries` — reading
* `Log.appendEntry`, `Log.truncatePrefix`, `Log.truncateSuffix`, `Log.setCurrentTerm`,
  `Log.setVoteFor` — writing
-/

namespace Gringofts

/-- `raft::SpecialTag`. -/
structure SpecialTag where
  identifier : ℕ
  payload : List UInt8
  deriving DecidableEq

/-- `raft::LogEntry`. -/
structure LogEntry where
  term : ℕ
  index : ℕ
  noop : Bool
  checksum : ℕ
  payload : List UInt8
  secretKeyVersion : ℕ
  specialTag : Option SpecialTag
  deriving DecidableEq

/-- The retained window of the log and the two registers, as they are on disk. -/
structure Log where
  /-- The first index that has not been truncated. -/
  firstIndex : ℕ
  /-- The entries from `firstIndex` on. -/
  entries : List LogEntry
  currentTerm : ℕ
  /-- The vote of the current term; `0` is nobody. -/
  voteFor : ℕ
  /-- Indices start at `1`. -/
  first_pos : 1 ≤ firstIndex
  /-- Entries are numbered consecutively. -/
  indexed : ∀ j e, entries[j]? = some e → e.index = firstIndex + j

namespace Log

/-- The log of a node that has never run. -/
def empty : Log where
  firstIndex := 1
  entries := []
  currentTerm := 0
  voteFor := 0
  first_pos := Nat.le_refl 1
  indexed := by simp

variable (l : Log)

/-- `getLastLogIndex`; one less than `firstIndex` for an empty window. -/
def lastIndex : ℕ := l.firstIndex + l.entries.length - 1

theorem lastIndex_add_one : l.lastIndex + 1 = l.firstIndex + l.entries.length := by
  have := l.first_pos
  rw [lastIndex]
  omega

/-- Is an index in the window? -/
def Retains (i : ℕ) : Prop := l.firstIndex ≤ i ∧ i ≤ l.lastIndex

instance (i : ℕ) : Decidable (l.Retains i) := inferInstanceAs (Decidable (_ ∧ _))

/-! ### Reading -/

/-- `getEntry`. -/
def getEntry (i : ℕ) : Option LogEntry :=
  if l.firstIndex ≤ i then l.entries[i - l.firstIndex]? else none

/-- `getTerm`: the index just below the window has term `0`. -/
def getTerm (i : ℕ) : Option ℕ :=
  if i = l.firstIndex - 1 then some 0 else (l.getEntry i).map LogEntry.term

/-- The loop of `Segment::getEntries`: entries are taken as long as their total size stays
within the limit. -/
def takeBatch (byteSize : LogEntry → ℕ) (maxLenInBytes : ℕ) : ℕ → List LogEntry → List LogEntry
  | _, [] => []
  | lenInBytes, e :: es =>
    if maxLenInBytes < lenInBytes + byteSize e then []
    else e :: takeBatch byteSize maxLenInBytes (lenInBytes + byteSize e) es

/-- How many entries from `start` on lie in the segment of `start`, which ends at
`segmentLast`. A segment ends inside the window and not before the index asked for. -/
def segmentRest (start segmentLast : ℕ) : ℕ := max start (min segmentLast l.lastIndex) - start + 1

/-- `getEntries`, for an index that is not above the log: a batch from one segment, limited in
number and in size. -/
def getEntries (byteSize : LogEntry → ℕ) (start maxLenInBytes maxBatchSize segmentLast : ℕ) :
    List LogEntry :=
  if l.firstIndex ≤ start then
    takeBatch byteSize maxLenInBytes 0
      ((l.entries.drop (start - l.firstIndex)).take
        (min maxBatchSize (l.segmentRest start segmentLast)))
  else []

/-! ### Writing -/

/-- `setCurrentTerm`. -/
def setCurrentTerm (t : ℕ) : Log := { l with currentTerm := t }

/-- `setVoteFor`. -/
def setVoteFor (v : ℕ) : Log := { l with voteFor := v }

/-- `appendEntry`, for an entry with the next index. -/
def appendEntry (e : LogEntry) (h : e.index = l.lastIndex + 1) : Log :=
  { l with
    entries := l.entries ++ [e]
    indexed := by
      intro j e' hj
      rcases Nat.lt_trichotomy j l.entries.length with hlt | rfl | hgt
      · rw [List.getElem?_append_left hlt] at hj
        exact l.indexed j e' hj
      · have hj : e = e' := by simpa using hj
        rw [← hj, h, lastIndex_add_one]
      · rw [List.getElem?_append_right hgt.le, List.getElem?_eq_none (by simp; omega)] at hj
        cases hj }

theorem lastIndex_appendEntry {e : LogEntry} (h : e.index = l.lastIndex + 1) :
    (l.appendEntry e h).lastIndex = l.lastIndex + 1 := by
  have h1 := (l.appendEntry e h).lastIndex_add_one
  have h2 := l.lastIndex_add_one
  have h3 : (l.appendEntry e h).entries.length = l.entries.length + 1 := List.length_append
  have h4 : (l.appendEntry e h).firstIndex = l.firstIndex := rfl
  omega

/-- Append several entries with the next indices. -/
def appendBatch (es : List LogEntry)
    (h : ∀ j e, es[j]? = some e → e.index = l.lastIndex + 1 + j) : Log :=
  { l with
    entries := l.entries ++ es
    indexed := by
      intro j e hj
      rcases Nat.lt_or_ge j l.entries.length with hlt | hge
      · rw [List.getElem?_append_left hlt] at hj
        exact l.indexed j e hj
      · rw [List.getElem?_append_right hge] at hj
        rw [h _ e hj, lastIndex_add_one]
        omega }

/-- `truncatePrefix`: nothing happens when the window starts at or above the index; an index
above the log leaves an empty window. -/
def truncatePrefix (k : ℕ) : Log :=
  if h : l.firstIndex < k then
    { l with
      firstIndex := k
      entries := l.entries.drop (k - l.firstIndex)
      first_pos := l.first_pos.trans h.le
      indexed := by
        intro j e hj
        rw [List.getElem?_drop] at hj
        have := l.indexed _ e hj
        omega }
  else l

/-- `truncateSuffix`: keep the entries up to an index; when none is left the window starts right
after it. -/
def truncateSuffix (k : ℕ) : Log :=
  if k < l.lastIndex then
    { l with
      firstIndex := min l.firstIndex (k + 1)
      entries := l.entries.take (k + 1 - l.firstIndex)
      first_pos := Nat.le_min.mpr ⟨l.first_pos, Nat.le_add_left 1 k⟩
      indexed := by
        intro j e hj
        rw [List.getElem?_take] at hj
        split at hj
        · have := l.indexed _ e hj
          omega
        · cases hj }
  else l

/-! ### What is read -/

theorem takeBatch_isPrefix (byteSize : LogEntry → ℕ) (maxLen len : ℕ) (es : List LogEntry) :
    takeBatch byteSize maxLen len es <+: es := by
  induction es generalizing len with
  | nil => exact List.prefix_refl _
  | cons e es ih =>
    rw [takeBatch]
    split
    · exact List.nil_prefix
    · exact (List.prefix_cons_inj e).mpr (ih _)

/-- A batch is read off the window from the index asked for. -/
theorem getEntries_isPrefix (byteSize : LogEntry → ℕ) (start maxLen maxBatch segmentLast : ℕ) :
    l.getEntries byteSize start maxLen maxBatch segmentLast <+:
      l.entries.drop (start - l.firstIndex) := by
  rw [getEntries]
  split
  · exact (takeBatch_isPrefix _ _ _ _).trans (List.take_prefix _ _)
  · exact List.nil_prefix

/-! ### What the writes leave -/

variable {l} {k : ℕ}

@[simp] theorem truncateSuffix_currentTerm : (l.truncateSuffix k).currentTerm = l.currentTerm := by
  rw [truncateSuffix]
  split <;> rfl

@[simp] theorem truncateSuffix_voteFor : (l.truncateSuffix k).voteFor = l.voteFor := by
  rw [truncateSuffix]
  split <;> rfl

theorem truncateSuffix_firstIndex (h : l.firstIndex ≤ k + 1) :
    (l.truncateSuffix k).firstIndex = l.firstIndex := by
  rw [truncateSuffix]
  split
  · exact Nat.min_eq_left h
  · rfl

theorem truncateSuffix_entries :
    (l.truncateSuffix k).entries = l.entries.take (k + 1 - l.firstIndex) := by
  have hlast := l.lastIndex_add_one
  rw [truncateSuffix]
  split
  · rfl
  · rw [List.take_of_length_le (by omega)]

@[simp] theorem truncatePrefix_currentTerm : (l.truncatePrefix k).currentTerm = l.currentTerm := by
  rw [truncatePrefix]
  split <;> rfl

@[simp] theorem truncatePrefix_voteFor : (l.truncatePrefix k).voteFor = l.voteFor := by
  rw [truncatePrefix]
  split <;> rfl

theorem truncatePrefix_firstIndex : (l.truncatePrefix k).firstIndex = max l.firstIndex k := by
  rw [truncatePrefix]
  split
  · next h => exact (Nat.max_eq_right h.le).symm
  · next h => exact (Nat.max_eq_left (Nat.not_lt.mp h)).symm

theorem truncatePrefix_entries :
    (l.truncatePrefix k).entries = l.entries.drop (k - l.firstIndex) := by
  rw [truncatePrefix]
  split
  · rfl
  · next h => rw [Nat.sub_eq_zero_of_le (Nat.not_lt.mp h), List.drop_zero]

/-- What is left of the window is as before. -/
theorem getEntry_truncatePrefix {j : ℕ} (hj : (l.truncatePrefix k).firstIndex ≤ j) :
    (l.truncatePrefix k).getEntry j = l.getEntry j := by
  rw [getEntry, if_pos hj]
  rw [truncatePrefix_firstIndex] at hj ⊢
  have h1 : l.firstIndex ≤ j := (Nat.le_max_left _ _).trans hj
  rw [truncatePrefix_entries, List.getElem?_drop, getEntry, if_pos h1]
  congr 1
  omega

/-! ### Reading a window -/

section Reading

variable {l' : Log} {j : ℕ} {e : LogEntry}

theorem first_le_of_getEntry (h : l.getEntry j = some e) : l.firstIndex ≤ j := by
  rw [getEntry] at h
  split at h
  · next hj => exact hj
  · cases h

theorem last_ge_of_getEntry (h : l.getEntry j = some e) : j ≤ l.lastIndex := by
  have hfirst := first_le_of_getEntry h
  rw [getEntry, if_pos hfirst] at h
  have hlt := (List.getElem?_eq_some_iff.mp h).1
  have := l.lastIndex_add_one
  omega

theorem exists_getEntry (hfirst : l.firstIndex ≤ j) (hlast : j ≤ l.lastIndex) :
    ∃ e, l.getEntry j = some e := by
  have := l.lastIndex_add_one
  rw [getEntry, if_pos hfirst]
  exact ⟨_, List.getElem?_eq_getElem (by omega)⟩

theorem index_of_getEntry (h : l.getEntry j = some e) : e.index = j := by
  have hfirst := first_le_of_getEntry h
  rw [getEntry, if_pos hfirst] at h
  have := l.indexed _ e h
  omega

theorem getTerm_of_getEntry (h : l.getEntry j = some e) : l.getTerm j = some e.term := by
  have hfirst := first_le_of_getEntry h
  have hpos := l.first_pos
  rw [getTerm, if_neg (by omega), h]
  rfl

theorem exists_getTerm (hfirst : l.firstIndex - 1 ≤ j) (hlast : j ≤ l.lastIndex) :
    ∃ t, l.getTerm j = some t := by
  by_cases h : j = l.firstIndex - 1
  · exact ⟨0, by rw [getTerm, if_pos h]⟩
  · obtain ⟨e, he⟩ := l.exists_getEntry (j := j) (by omega) hlast
    exact ⟨e.term, getTerm_of_getEntry he⟩

theorem getEntry_eq_of_entries {es : List LogEntry} (hfirst : l'.firstIndex = l.firstIndex)
    (hes : l'.entries = l.entries ++ es) (hj : j ≤ l.lastIndex) :
    l'.getEntry j = l.getEntry j := by
  have := l.lastIndex_add_one
  rw [getEntry, getEntry, hfirst, hes]
  split
  · exact List.getElem?_append_left (by omega)
  · rfl

theorem getEntry_append {es : List LogEntry} (hfirst : l'.firstIndex = l.firstIndex)
    (hes : l'.entries = l.entries ++ es) (i : ℕ) :
    l'.getEntry (l.lastIndex + i + 1) = es[i]? := by
  have := l.lastIndex_add_one
  rw [getEntry, if_pos (by omega), hes, List.getElem?_append_right (by omega)]
  congr 1
  omega

theorem lastIndex_truncateSuffix (hfirst : l.firstIndex ≤ k + 1) (hlast : k ≤ l.lastIndex) :
    (l.truncateSuffix k).lastIndex = k := by
  have h1 := (l.truncateSuffix k).lastIndex_add_one
  have h2 := l.lastIndex_add_one
  rw [truncateSuffix_firstIndex hfirst, truncateSuffix_entries, List.length_take] at h1
  omega

theorem getEntry_truncateSuffix (hfirst : l.firstIndex ≤ k + 1) (hj : j ≤ k) :
    (l.truncateSuffix k).getEntry j = l.getEntry j := by
  rw [getEntry, getEntry, truncateSuffix_firstIndex hfirst, truncateSuffix_entries]
  split
  · rw [List.getElem?_take, if_pos (by omega)]
  · rfl

end Reading

/-- An index of the window has an entry. -/
theorem Retains.exists_entries {l : Log} {i : ℕ} (h : l.Retains i) :
    ∃ e, l.entries[i - l.firstIndex]? = some e := by
  have hlast := l.lastIndex_add_one
  obtain ⟨hfirst, hle⟩ := h
  exact ⟨_, List.getElem?_eq_getElem (by omega)⟩

/-! ### Equal windows -/

/-- The windows are the same; the registers may differ. -/
structure SameWindow (l l' : Log) : Prop where
  first_eq : l'.firstIndex = l.firstIndex
  entries_eq : l'.entries = l.entries

namespace SameWindow

theorem refl (l : Log) : l.SameWindow l := ⟨rfl, rfl⟩

variable {l' : Log} (h : l.SameWindow l')
include h

theorem getEntry_eq (j : ℕ) : l'.getEntry j = l.getEntry j := by
  rw [getEntry, getEntry, h.first_eq, h.entries_eq]

theorem lastIndex_eq : l'.lastIndex = l.lastIndex := by
  rw [lastIndex, lastIndex, h.first_eq, h.entries_eq]

theorem trans {l'' : Log} (h' : l'.SameWindow l'') : l.SameWindow l'' :=
  ⟨h'.first_eq.trans h.first_eq, h'.entries_eq.trans h.entries_eq⟩

end SameWindow

end Log

end Gringofts
