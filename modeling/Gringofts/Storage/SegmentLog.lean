import Gringofts.Storage.Segment
import Mathlib.Data.List.Sort
import Mathlib.Data.List.DropRight

/-!
# The segmented log

A `SegmentLog` is a row of closed segments and an active one. Entries go into the active segment;
when it is full it is closed and a new one is created. A prefix is truncated by writing the new
first index into a file, and the segments below it are forgotten, though their files stay. A suffix
is truncated by clearing records in the segment that holds the new last index and renaming the files
of the segments behind it.

A log that is opened finds all this out from the names in the directory, the file with the first
index and the records.

## Main definitions

* `SegmentLog` — the object
* `SegmentLog.init` — opening a directory
* `SegmentLog.appendEntries`, `SegmentLog.truncatePrefix`, `SegmentLog.truncateSuffix`,
  `SegmentLog.setCurrentTerm`, `SegmentLog.setVoteFor` — writing
* `SegmentLog.getEntry`, `SegmentLog.getTerm` — reading
-/

namespace Gringofts

open Outcome

/-- `SegmentLog`, with the directory it lives in. -/
structure SegmentLog where
  dir : Directory
  limits : SegmentLimits
  firstIndex : ℕ
  lastIndex : ℕ
  currentTerm : ℕ
  voteFor : ℕ
  /-- The closed segments in the order of their first index. -/
  closed : List Segment
  active : Option Segment

namespace SegmentLog

/-! ## Opening -/

/-- `recoverCurrentTerm`, `recoverVoteFor` and `recoverFirstIndex`: a number that is not there gets
its initial value. -/
def recoverNumber (name : FileName) (initial : ℕ) (d : Directory) : Disk (Directory × ℕ) :=
  match d name with
  | some (.number n) => pure (d, n)
  | some _ => fail (.openFile name)
  | none => do
    let d ← d.setFileContentWithSync name initial
    pure (d, initial)

/-- Put a segment into the map, at its first index. -/
def insertSegment (s : Segment) (closed : List Segment) : List Segment :=
  (closed.filter fun t => t.firstIndex ≠ s.firstIndex).orderedInsert
    (fun s t => s.firstIndex ≤ t.firstIndex) s

/-- `listSegments`. The names come in no particular order. -/
def listSegments : List FileName → List Segment → Option Segment →
    Disk (List Segment × Option Segment)
  | [], closed, active => pure (closed, active)
  | .closedMeta first last :: names, closed, active => do
    check (∀ s ∈ closed, s.firstIndex ≠ first) .closedTwice
    listSegments names
      (insertSegment { isActive := false, firstIndex := first, lastIndex := last } closed) active
  | .activeMeta first :: names, closed, active => do
    check (active = none) .activeTwice
    listSegments names closed
      (some { isActive := true, firstIndex := first, lastIndex := first - 1 })
  | _ :: names, closed, active => listSegments names closed active

/-- The loop of `recoverSegments` over the closed segments. It ignores those that lie below the
first index, and returns the others. -/
def recoverClosed (firstIndex : ℕ) :
    List Segment → Option Segment → Directory → Disk (Directory × List Segment)
  | [], _, d => pure (d, [])
  | s :: segments, prev, d => do
    check (s.firstIndex ≤ s.lastIndex) .closedRange
    check (∀ p ∈ prev, s.firstIndex = p.lastIndex + 1) .contiguous
    check (prev.isSome = true ∨ s.firstIndex ≤ firstIndex) .firstIndex
    if prev = none ∧ s.lastIndex < firstIndex then recoverClosed firstIndex segments none d
    else
      let (d, s) ← s.recoverActiveOrClosedSegment 0 0 d
      let (d, segments) ← recoverClosed firstIndex segments (some s) d
      pure (d, s :: segments)

/-- The part of `recoverSegments` about the active segment. It is ignored as well if it lies below
the first index. -/
def recoverActive (limits : SegmentLimits) (firstIndex : ℕ) (prev : Option Segment) :
    Option Segment → Directory → Disk (Directory × Option Segment)
  | none, d => pure (d, none)
  | some s, d => do
    check (prev.isSome = true ∨ s.firstIndex ≤ firstIndex) .firstIndex
    check (∀ p ∈ prev, s.firstIndex = p.lastIndex + 1) .contiguous
    let (d, s) ← s.recoverActiveOrClosedSegment limits.dataSize limits.metaSize d
    pure (d, if s.lastIndex < firstIndex then none else some s)

/-- `init`, on a directory in which `listFiles` finds `names`. -/
def init (limits : SegmentLimits) (names : List FileName) (d : Directory) : Disk SegmentLog := do
  let (d, currentTerm) ← recoverNumber .currentTerm 0 d
  let (d, voteFor) ← recoverNumber .voteFor 0 d
  let (d, firstIndex) ← recoverNumber .firstIndex 1 d
  let (closed, active) ← listSegments names [] none
  let (d, closed) ← recoverClosed firstIndex closed none d
  let (d, active) ← recoverActive limits firstIndex closed.getLast? active d
  let lastIndex := match active, closed.getLast? with
    | some s, _ => s.lastIndex
    | none, some s => s.lastIndex
    | none, none => 0
  let lastIndex := if lastIndex = 0 then firstIndex - 1 else lastIndex
  match active with
  | some s =>
    pure ⟨d, limits, firstIndex, lastIndex, currentTerm, voteFor, closed, some s⟩
  | none =>
    let (d, s) ← Segment.createActiveSegment limits (lastIndex + 1) d
    pure ⟨d, limits, firstIndex, lastIndex, currentTerm, voteFor, closed, some s⟩

/-! ## Writing -/

variable (env : StorageEnv) (s : SegmentLog)

/-- `rollActiveSegment`. -/
def rollActiveSegment : Disk SegmentLog := do
  let a ← ofOption .noActive s.active
  let (d, a) ← a.closeActiveSegment s.dir
  let (d, b) ← Segment.createActiveSegment s.limits (s.lastIndex + 1) d
  pure { s with dir := d, closed := insertSegment a s.closed, active := some b }

/-- Append to the active segment, which has room. -/
def appendToActive (es : List LogEntry) : Disk SegmentLog := do
  let a ← ofOption .noActive s.active
  let (d, a) ← a.appendEntries env es s.dir
  pure { s with dir := d, active := some a, lastIndex := s.lastIndex + es.length }

/-- `appendEntries`. -/
def appendEntries (es : List LogEntry) : Disk (SegmentLog × Bool) :=
  match es with
  | [] => pure (s, true)
  | e :: _ =>
    if e.index ≠ s.lastIndex + 1 then pure (s, false)
    else do
      let a ← ofOption .noActive s.active
      let s ← if a.shouldRoll env es then s.rollActiveSegment else pure s
      let s ← s.appendToActive env es
      pure (s, true)

/-- `appendEntry`. -/
def appendEntry (e : LogEntry) : Disk (SegmentLog × Bool) := s.appendEntries env [e]

/-- `truncatePrefix`. -/
def truncatePrefix (firstIndexKept : ℕ) : Disk SegmentLog :=
  if firstIndexKept ≤ s.firstIndex then pure s
  else do
    let d ← s.dir.setFileContentWithSync .firstIndex firstIndexKept
    let closed := s.closed.dropWhile fun t => t.lastIndex < firstIndexKept
    let s := { s with dir := d, firstIndex := firstIndexKept, closed := closed }
    if closed ≠ [] then pure s
    else
      let a ← ofOption .noActive s.active
      if a.lastIndex < firstIndexKept then
        let (d, a) ← Segment.createActiveSegment s.limits firstIndexKept d
        pure { s with dir := d, lastIndex := firstIndexKept - 1, active := some a }
      else pure s

/-- `dropSegment` for several segments; the `j`-th is dropped at the time `clock j`. -/
def dropSegments (clock : ℕ → ℕ) : ℕ → List Segment → Directory → Disk Directory
  | _, [], d => pure d
  | j, t :: ts, d => do dropSegments clock (j + 1) ts (← t.dropSegment (clock j) d)

/-- `truncateSuffix`, up to the point where a new active segment is created if there is none. -/
def cutSuffix (lastIndexKept : ℕ) (clock : ℕ → ℕ) : Disk SegmentLog := do
  let a ← ofOption .noActive s.active
  let s := { s with lastIndex := lastIndexKept }
  if a.firstIndex ≤ lastIndexKept then
    if s.firstIndex ≤ lastIndexKept then
      let (d, a) ← a.truncateSuffix lastIndexKept s.dir
      pure { s with dir := d, active := some a }
    else
      let d ← dropSegments clock 0 [a] s.dir
      pure { s with dir := d, active := none }
  else
    let above := fun t : Segment => decide (lastIndexKept < t.firstIndex)
    let kept := s.closed.rdropWhile above
    let dropped := a :: (s.closed.rtakeWhile above).reverse
    let firstIndex := if kept = [] then lastIndexKept + 1 else s.firstIndex
    let s := { s with firstIndex := firstIndex, active := none }
    match kept.getLast? with
    | none =>
      let d ← dropSegments clock 0 dropped s.dir
      pure { s with dir := d, closed := kept }
    | some last =>
      if firstIndex ≤ lastIndexKept then
        let (d, last) ← last.truncateSuffix lastIndexKept s.dir
        let d ← dropSegments clock 0 dropped d
        pure { s with dir := d, closed := kept.dropLast ++ [last] }
      else
        let d ← dropSegments clock 0 (dropped ++ [last]) s.dir
        pure { s with dir := d, closed := kept.dropLast }

/-- Make sure there is an active segment. -/
def ensureActive : Disk SegmentLog :=
  match s.active with
  | some _ => pure s
  | none => do
    let (d, a) ← Segment.createActiveSegment s.limits (s.lastIndex + 1) s.dir
    pure { s with dir := d, active := some a }

/-- `truncateSuffix`. -/
def truncateSuffix (lastIndexKept : ℕ) (clock : ℕ → ℕ) : Disk SegmentLog :=
  if s.lastIndex ≤ lastIndexKept then pure s
  else do
    let s ← s.cutSuffix lastIndexKept clock
    s.ensureActive

/-- `setCurrentTerm`. -/
def setCurrentTerm (term : ℕ) : Disk SegmentLog := do
  let d ← s.dir.setFileContentWithSync .currentTerm term
  pure { s with dir := d, currentTerm := term }

/-- `setVoteFor`. -/
def setVoteFor (voteFor : ℕ) : Disk SegmentLog := do
  let d ← s.dir.setFileContentWithSync .voteFor voteFor
  pure { s with dir := d, voteFor := voteFor }

/-! ## Reading -/

/-- `getSegment`. -/
def getSegment (index : ℕ) : Disk (Option Segment) :=
  if s.lastIndex = s.firstIndex - 1 then pure none
  else if index < s.firstIndex ∨ s.lastIndex < index then pure none
  else
    match s.active.filter fun a => a.firstIndex ≤ index with
    | some a => pure (some a)
    | none => do
      check (s.closed ≠ []) .noClosed
      pure (s.closed.filter fun t => t.firstIndex ≤ index).getLast?

/-- `getEntry`. -/
def getEntry (index : ℕ) : Disk (Option LogEntry) := do
  match ← s.getSegment index with
  | some t => t.getEntry env index s.dir
  | none => pure none

/-- `getTerm`. -/
def getTerm (index : ℕ) : Disk (Option ℕ) := do
  if index = s.firstIndex - 1 then pure (some 0)
  else
    match ← s.getSegment index with
    | some t => t.getTerm index s.dir
    | none => pure none

end SegmentLog

end Gringofts
