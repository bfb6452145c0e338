import Gringofts.Lib.Outcome
import Gringofts.Lib.Region
import Mathlib.Logic.Function.Basic

/-!
# The directory of a log

The files of a `SegmentLog` live in one directory. Segments come in pairs of files, one with the
serialized entries and one with a record for each entry, and the name of a pair says whether the
segment is active or closed and which indices it has. Three more files hold one number each.

Every call that changes the directory is a durable step. A computation on the disk is an `Outcome`
whose writes are the directories after each such call, so that the directories a crash can leave
are read off it.

## Main definitions

* `FileName`, `File`, `Directory`
* `Directory.put`, `Directory.rename`, `Directory.setFileContentWithSync` — the calls
* `Fault` — the assertions and exceptions of the storage
-/

namespace Gringofts

open Outcome

/-- The names of the files. A file may also be the temporary version of another, or a segment file
that has been dropped at some time. -/
inductive FileName
  /-- `current_term` -/
  | currentTerm
  /-- `vote_for` -/
  | voteFor
  /-- `first_index` -/
  | firstIndex
  /-- `segment_in_progress_first.data` -/
  | activeData (first : ℕ)
  /-- `segment_in_progress_first.meta` -/
  | activeMeta (first : ℕ)
  /-- `segment_first_last.data` -/
  | closedData (first last : ℕ)
  /-- `segment_first_last.meta` -/
  | closedMeta (first last : ℕ)
  /-- `name.tmp` -/
  | tmp (name : FileName)
  /-- `name.dropped.tsInNano` -/
  | dropped (name : FileName) (tsInNano : ℕ)
  deriving DecidableEq

/-- `Segment::LogMeta`. The digest is a number of 32 bytes. -/
structure LogMeta where
  offset : ℕ := 0
  length : ℕ := 0
  term : ℕ := 0
  index : ℕ := 0
  digest : ℕ := 0
  deriving DecidableEq, Inhabited

/-- `sizeof(LogMeta)`. -/
abbrev sizeofLogMeta : ℕ := 64

/-- The content of a data file. -/
abbrev DataRegion := Region UInt8 1

/-- The content of a meta file. -/
abbrev MetaRegion := Region LogMeta sizeofLogMeta

/-- The content of a file. -/
inductive File
  /-- A number, as text. -/
  | number (n : ℕ)
  | data (r : DataRegion)
  | records (r : MetaRegion)

/-- A directory: what there is under a name. -/
abbrev Directory := FileName → Option File

/-- The assertions and exceptions of the storage. -/
inductive Fault
  /-- `open file ERROR` -/
  | openFile (name : FileName)
  /-- `rename(..) == 0` -/
  | rename (name : FileName)
  /-- `fileSize % sysconf(_SC_PAGESIZE) == 0`, and the size is not `0` -/
  | fileSize
  /-- `mIsActive` -/
  | isActive
  /-- `mIsActive || lastIndex == mLastIndex` -/
  | closedLastIndex
  /-- `mMetaOffset <= mMetaSizeLimit` -/
  | metaOffset
  /-- `mDataOffset <= mDataSizeLimit` -/
  | dataOffset
  /-- `mLastIndex + 1 + i == entry.index()` -/
  | entryIndex
  /-- `isWithInBoundary(index)` -/
  | boundary
  /-- `meta.index == index` -/
  | metaIndex
  /-- `offset <= mDataOffset` -/
  | entryOffset
  /-- `version <= mLatestVersion` -/
  | keyVersion
  /-- `realDigest == expectDigest` -/
  | digest
  /-- `mClosedSegments.find(firstIndex) == mClosedSegments.end()` -/
  | closedTwice
  /-- `!mActiveSegment` -/
  | activeTwice
  /-- `getFirstIndex() <= getLastIndex()` -/
  | closedRange
  /-- `getFirstIndex() == prevSegPtr->getLastIndex() + 1` -/
  | contiguous
  /-- `prevSegPtr || mFirstIndex >= getFirstIndex()` -/
  | firstIndex
  /-- `mActiveSegment`, or `activeSegment` -/
  | noActive
  /-- `!mClosedSegments.empty()` -/
  | noClosed
  deriving DecidableEq

/-- A computation on the disk. Its writes are the directories after each call. -/
abbrev Disk (α : Type) := Outcome Directory Fault α

/-- The last of the writes that begin at a directory is another directory. -/
def Trail (d : Directory) (ws : List Directory) (d' : Directory) : Prop :=
  (d :: ws).getLast? = some d'

theorem Trail.append {d d₁ d' : Directory} {ws vs : List Directory} (h : Trail d ws d₁)
    (h' : Trail d₁ vs d') : Trail d (ws ++ vs) d' := by
  obtain ⟨init, hinit⟩ := List.getLast?_eq_some_iff.mp h
  rw [Trail, ← List.cons_append, hinit, List.append_assoc, List.singleton_append,
    List.getLast?_append, h', Option.some_or]

/-- `sysconf(_SC_PAGESIZE)`. -/
def pageSize : ℕ := 4096

namespace Directory

/-- No files. -/
def empty : Directory := fun _ => none

variable (d : Directory)

/-- The directory after the content of a file has changed, or the file has been created. -/
def set (name : FileName) (f : File) : Directory := Function.update d name (some f)

/-- The directory after a file has been renamed. -/
def move (src dst : FileName) : Directory :=
  Function.update (Function.update d dst (d src)) src none

/-- The directory after the two files of a segment have been renamed. -/
def relocate (data records data' records' : FileName) : Directory :=
  (d.move data data').move records records'

/-- A call that changes or creates a file. -/
def put (name : FileName) (f : File) : Disk Directory := do
  Outcome.persist (d.set name f)
  pure (d.set name f)

/-- `rename`. -/
def rename (src dst : FileName) : Disk Directory := do
  Outcome.check ((d src).isSome = true) (.rename src)
  Outcome.persist (d.move src dst)
  pure (d.move src dst)

/-- `FileUtil::setFileContentWithSync`, for a number: the new content is renamed over the old. -/
def setFileContentWithSync (name : FileName) (n : ℕ) : Disk Directory := do
  let d ← d.put (.tmp name) (.number n)
  d.rename (.tmp name) name

/-- Open a data file that exists. -/
def openData (name : FileName) : Disk DataRegion :=
  match d name with
  | some (.data r) => pure r
  | _ => Outcome.fail (.openFile name)

/-- Open a meta file that exists. -/
def openMeta (name : FileName) : Disk MetaRegion :=
  match d name with
  | some (.records r) => pure r
  | _ => Outcome.fail (.openFile name)

variable {d} {name src dst : FileName} {f : File}

theorem set_self : d.set name f name = some f := Function.update_self _ _ _

theorem set_of_ne (h : dst ≠ name) : d.set name f dst = d dst := Function.update_of_ne h _ _

/-- A file that is changed twice has its last content. -/
theorem set_set {g : File} : (d.set name f).set name g = d.set name g := Function.update_idem _ _ _

theorem move_src : d.move src dst src = none := Function.update_self _ _ _

theorem move_dst (h : dst ≠ src) : d.move src dst dst = d src := by
  rw [move, Function.update_of_ne h, Function.update_self]

theorem move_of_ne (h : name ≠ src) (h' : name ≠ dst) : d.move src dst name = d name := by
  rw [move, Function.update_of_ne h, Function.update_of_ne h']

section Relocate

variable {data records data' records' : FileName}

theorem relocate_data (h : data ≠ records) (h' : data ≠ records') :
    d.relocate data records data' records' data = none := by
  rw [relocate, move_of_ne h h', move_src]

theorem relocate_records : d.relocate data records data' records' records = none := move_src

theorem relocate_data' (h : data' ≠ data) (hr : data' ≠ records) (hr' : data' ≠ records') :
    d.relocate data records data' records' data' = d data := by
  rw [relocate, move_of_ne hr hr', move_dst h]

theorem relocate_records' (h : records' ≠ records) (hd : records ≠ data) (hd' : records ≠ data') :
    d.relocate data records data' records' records' = d records := by
  rw [relocate, move_dst h, move_of_ne hd hd']

theorem relocate_of_ne (hd : name ≠ data) (hr : name ≠ records) (hd' : name ≠ data')
    (hr' : name ≠ records') : d.relocate data records data' records' name = d name := by
  rw [relocate, move_of_ne hr hr', move_of_ne hd hd']

end Relocate

theorem yields_put : (d.put name f).Yields [d.set name f] (d.set name f) :=
  (yields_persist _).bind (yields_pure _)

theorem yields_rename (h : (d src).isSome = true) :
    (d.rename src dst).Yields [d.move src dst] (d.move src dst) :=
  (yields_check h).bind_nil ((yields_persist _).bind (yields_pure _))

theorem yields_openData {r : DataRegion} (h : d name = some (.data r)) :
    (d.openData name).Yields [] r := by
  rw [openData, h]
  exact yields_pure r

theorem yields_openMeta {r : MetaRegion} (h : d name = some (.records r)) :
    (d.openMeta name).Yields [] r := by
  rw [openMeta, h]
  exact yields_pure r

theorem reads_openData (d : Directory) (name : FileName) : (d.openData name).Reads := by
  rw [openData]
  split <;> rfl

theorem reads_openMeta (d : Directory) (name : FileName) : (d.openMeta name).Reads := by
  rw [openMeta]
  split <;> rfl

end Directory

end Gringofts
