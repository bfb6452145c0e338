import Gringofts.Lib.Codec
import Gringofts.Storage.Disk
import Gringofts.Storage.Log
import Mathlib.Algebra.GroupWithZero.Nat

/-!
# Segments

A segment holds the entries of a range of indices. Its files are mapped into memory: an entry is
written into the data file, and when the data is on disk its record is written into the meta file.
How many entries a segment has is not written anywhere. Recovery finds out by reading records as
long as their indices are consecutive.

What a `Segment` object keeps in memory is where the files end and which indices there are. The
name of its files follows from that.

## Main definitions

* `StorageEnv` — how entries are serialized and authenticated
* `Segment` — the object
* `Segment.createActiveSegment`, `Segment.recoverActiveOrClosedSegment`,
  `Segment.closeActiveSegment`, `Segment.appendEntries`, `Segment.truncateSuffix`,
  `Segment.dropSegment`, `Segment.getEntry`, `Segment.getTerm`
-/

namespace Gringofts

open Outcome

/-- `CryptoUtil`, as far as segments use it. -/
structure Crypto where
  /-- `isEnabled` -/
  enabled : Bool
  /-- `getLatestSecKeyVersion` -/
  latest : ℕ
  /-- The digest of an index and a serialized entry under a version of the key. -/
  hmac : ℕ → ℕ → List UInt8 → ℕ
  /-- The oldest version is `1`. -/
  latest_pos : enabled = true → 1 ≤ latest

/-- How entries are serialized and authenticated. -/
structure StorageEnv where
  codec : Codec LogEntry (List UInt8)
  crypto : Crypto

/-- A format for entries: the fields one after the other. -/
def LogEntry.framing : Framing LogEntry :=
  (Framing.nat.pair (Framing.nat.pair (Framing.nat.pair (Framing.nat.pair
    (Framing.byte.list.pair (Framing.nat.pair (Framing.nat.pair Framing.byte.list).option)))))).map
    (fun e => (e.term, e.index, e.noop.toNat, e.checksum, e.payload, e.secretKeyVersion,
      e.specialTag.map fun t => (t.identifier, t.payload)))
    (fun (term, index, noop, checksum, payload, secretKeyVersion, specialTag) =>
      ⟨term, index, noop != 0, checksum, payload, secretKeyVersion,
        specialTag.map fun t => ⟨t.1, t.2⟩⟩)
    (fun ⟨term, index, noop, checksum, payload, secretKeyVersion, specialTag⟩ => by
      cases noop <;> cases specialTag <;> rfl)

/-- Entries in that format, without authentication. -/
def StorageEnv.plain : StorageEnv where
  codec := LogEntry.framing.toCodec
  crypto := { enabled := false, latest := 0, hmac := fun _ _ _ => 0, latest_pos := by simp }

/-- `mSegmentDataSizeLimit` and `mSegmentMetaSizeLimit`. A file that is created with another size
fails an assertion. -/
structure SegmentLimits where
  dataSize : ℕ
  metaSize : ℕ
  data_pos : 0 < dataSize
  meta_pos : 0 < metaSize
  data_aligned : dataSize % pageSize = 0
  meta_aligned : metaSize % pageSize = 0

/-- Files of one page. -/
def SegmentLimits.onePage : SegmentLimits where
  dataSize := pageSize
  metaSize := pageSize
  data_pos := by decide
  meta_pos := by decide
  data_aligned := by decide
  meta_aligned := by decide

/-- `Segment`. -/
structure Segment where
  isActive : Bool
  firstIndex : ℕ
  lastIndex : ℕ
  dataSizeLimit : ℕ := 0
  dataOffset : ℕ := 0
  metaSizeLimit : ℕ := 0
  metaOffset : ℕ := 0
  deriving DecidableEq

namespace StorageEnv

variable (env : StorageEnv)

/-- `ByteSizeLong`. -/
def byteSize (e : LogEntry) : ℕ := (env.codec.serialize e).length

/-- The version of the key that authenticates an entry. An entry without a version uses the oldest
one. -/
def keyVersion (e : LogEntry) : ℕ := if e.secretKeyVersion = 0 then 1 else e.secretKeyVersion

theorem keyVersion_pos (e : LogEntry) : 1 ≤ keyVersion e := by
  rw [keyVersion]
  split
  · exact le_rfl
  · omega

/-- The record of an entry, at an offset of the data file, with the digest of `createHMAC`. -/
def record (offset : ℕ) (e : LogEntry) : LogMeta where
  offset := offset
  length := env.byteSize e
  term := e.term
  index := e.index
  digest :=
    if env.crypto.enabled then
      env.crypto.hmac (keyVersion e) e.index (env.codec.serialize e)
    else 0

/-- The version of the key is known, where one is needed. -/
def Knows (e : LogEntry) : Prop :=
  env.crypto.enabled = true → keyVersion e ≤ env.crypto.latest

instance (e : LogEntry) : Decidable (env.Knows e) := inferInstanceAs (Decidable (_ → _))

/-- `verifyHMAC` of a record against the bytes of its entry: a digest was created with one of the
versions of the key. -/
def Authentic (m : LogMeta) (bytes : List UInt8) : Prop :=
  env.crypto.enabled = true → m.digest = 0 ∨
    ∃ i ∈ List.range env.crypto.latest, env.crypto.hmac (i + 1) m.index bytes = m.digest

instance (m : LogMeta) (bytes : List UInt8) : Decidable (env.Authentic m bytes) :=
  inferInstanceAs (Decidable (_ → _ ∨ _))

end StorageEnv

namespace Segment

/-! ## Files -/

section

variable (s : Segment)

/-- The name of the data file. -/
def dataName : FileName :=
  if s.isActive then .activeData s.firstIndex else .closedData s.firstIndex s.lastIndex

/-- The name of the meta file. -/
def metaName : FileName :=
  if s.isActive then .activeMeta s.firstIndex else .closedMeta s.firstIndex s.lastIndex

/-- `FileUtil::setFileSize`, which a file is only given to make it larger. -/
def checkFileSize (size : ℕ) : Disk Unit :=
  check (0 < size ∧ size % pageSize = 0) .fileSize

/-- `createActiveSegment`: both files are opened, which empties them, and get their size. -/
def createActiveSegment (limits : SegmentLimits) (first : ℕ) (d : Directory) :
    Disk (Directory × Segment) := do
  let data : DataRegion := Region.empty UInt8 1
  let d ← d.put (.activeData first) (.data data)
  checkFileSize limits.dataSize
  let d ← d.put (.activeData first) (.data (data.grow limits.dataSize))
  let records : MetaRegion := Region.empty LogMeta sizeofLogMeta
  let d ← d.put (.activeMeta first) (.records records)
  checkFileSize limits.metaSize
  let d ← d.put (.activeMeta first) (.records (records.grow limits.metaSize))
  pure (d,
    { isActive := true
      firstIndex := first
      lastIndex := first - 1
      dataSizeLimit := limits.dataSize
      metaSizeLimit := limits.metaSize })

/-- The loop that looks for the last index: the number of records with consecutive indices, at
most `fuel` more than `pos`. -/
def scan (r : MetaRegion) (first : ℕ) : ℕ → ℕ → ℕ
  | 0, pos => pos
  | fuel + 1, pos => if (r.cell pos).index = first + pos then scan r first fuel (pos + 1) else pos

/-- Map a file that has been opened, and make it larger if it is too small. -/
def mapRegion {α : Type} [Inhabited α] {unit : ℕ} (file : Region α unit → File) (name : FileName)
    (size : ℕ) (opened : Region α unit) (d : Directory) : Disk (Directory × Region α unit) :=
  if opened.size < size then do
    checkFileSize size
    let d ← d.put name (file (opened.grow size))
    pure (d, opened.grow size)
  else pure (d, opened)

/-- `recoverActiveOrClosedSegment`. -/
def recoverActiveOrClosedSegment (maxDataSize maxMetaSize : ℕ) (d : Directory) :
    Disk (Directory × Segment) := do
  let data ← d.openData s.dataName
  let (d, data) ← mapRegion .data s.dataName maxDataSize data d
  let records ← d.openMeta s.metaName
  let (d, records) ← mapRegion .records s.metaName maxMetaSize records d
  let pos := scan records s.firstIndex (records.size / sizeofLogMeta) 0
  let lastIndex := s.firstIndex + pos - 1
  check (s.isActive = true ∨ lastIndex = s.lastIndex) .closedLastIndex
  check (pos * sizeofLogMeta ≤ records.size) .metaOffset
  let last := records.cell (pos - 1)
  let dataOffset := if pos = 0 then 0 else last.offset + last.length
  check (dataOffset ≤ data.size) .dataOffset
  pure (d,
    { s with
      lastIndex := lastIndex
      dataSizeLimit := data.size
      dataOffset := dataOffset
      metaSizeLimit := records.size
      metaOffset := pos * sizeofLogMeta })

/-- The same segment, closed. -/
def close : Segment := { s with isActive := false }

/-- `closeActiveSegment`. -/
def closeActiveSegment (d : Directory) : Disk (Directory × Segment) := do
  check (s.isActive = true) .isActive
  let d ← d.rename s.dataName s.close.dataName
  let d ← d.rename s.metaName s.close.metaName
  pure (d, s.close)

/-- `dropSegment`, at the time `tsInNano`. -/
def dropSegment (tsInNano : ℕ) (d : Directory) : Disk Directory := do
  let d ← d.rename s.dataName (.dropped s.dataName tsInNano)
  d.rename s.metaName (.dropped s.metaName tsInNano)

end

/-! ## Entries -/

variable (env : StorageEnv) (s : Segment)

/-- The size of several entries. -/
def totalSize (es : List LogEntry) : ℕ := (es.map env.byteSize).sum

/-- `shouldRoll`. -/
def shouldRoll (es : List LogEntry) : Prop :=
  s.metaSizeLimit < s.metaOffset + es.length * sizeofLogMeta ∨
    s.dataSizeLimit < s.dataOffset + totalSize env es

instance (es : List LogEntry) : Decidable (s.shouldRoll env es) :=
  inferInstanceAs (Decidable (_ ∨ _))

/-- The loop of `appendEntries`: entries are serialized one after the other into the data file,
and their records are collected. -/
def writeEntries (next offset : ℕ) (data : DataRegion) :
    List LogEntry → Disk (DataRegion × List LogMeta)
  | [] => pure (data, [])
  | e :: es => do
    check (next = e.index) .entryIndex
    check (env.Knows e) .keyVersion
    let (data, metaArr) ← writeEntries (next + 1) (offset + env.byteSize e)
      (data.write offset (env.codec.serialize e)) es
    pure (data, env.record offset e :: metaArr)

/-- The object after entries have been appended. -/
def extend (es : List LogEntry) : Segment :=
  { s with
    dataOffset := s.dataOffset + totalSize env es
    metaOffset := s.metaOffset + es.length * sizeofLogMeta
    lastIndex := s.lastIndex + es.length }

/-- `appendEntries`: the data is on disk before the records are. -/
def appendEntries (es : List LogEntry) (d : Directory) : Disk (Directory × Segment) := do
  check (s.isActive = true) .isActive
  let data ← d.openData s.dataName
  let records ← d.openMeta s.metaName
  let (data, metaArr) ← writeEntries env (s.lastIndex + 1) s.dataOffset data es
  let d ← d.put s.dataName (.data data)
  let d ← d.put s.metaName (.records (records.write (s.metaOffset / sizeofLogMeta) metaArr))
  pure (d, s.extend env es)

/-- `isWithInBoundary`. -/
def isWithInBoundary (index : ℕ) : Prop :=
  s.lastIndex ≠ s.firstIndex - 1 ∧ s.firstIndex ≤ index ∧ index ≤ s.lastIndex

instance (index : ℕ) : Decidable (s.isWithInBoundary index) :=
  inferInstanceAs (Decidable (_ ∧ _ ∧ _))

/-- `getMeta`. -/
def getMeta (index : ℕ) (d : Directory) : Disk LogMeta := do
  check (s.isWithInBoundary index) .boundary
  let records ← d.openMeta s.metaName
  let m := records.cell (index - s.firstIndex)
  check (m.index = index) .metaIndex
  pure m

/-- `getEntry`. -/
def getEntry (index : ℕ) (d : Directory) : Disk (Option LogEntry) := do
  if s.isWithInBoundary index then
    let m ← s.getMeta index d
    let data ← d.openData s.dataName
    let bytes := data.read m.offset m.length
    check (m.offset ≤ s.dataOffset) .entryOffset
    check (env.Authentic m bytes) .digest
    pure (env.codec.parse bytes)
  else pure none

/-- `getTerm`. -/
def getTerm (index : ℕ) (d : Directory) : Disk (Option ℕ) := do
  if s.isWithInBoundary index then
    let m ← s.getMeta index d
    pure (some m.term)
  else pure none

/-- The same segment, which ends at another index. -/
def endAt (lastIndex : ℕ) : Segment :=
  { s with lastIndex := lastIndex, metaOffset := (lastIndex + 1 - s.firstIndex) * sizeofLogMeta }

/-- `truncateSuffix`: the records are cleared, and the files of a closed segment get another
name. -/
def truncateSuffix (lastIndexKept : ℕ) (d : Directory) : Disk (Directory × Segment) := do
  if s.lastIndex ≤ lastIndexKept then pure (d, s)
  else
    let t := s.endAt lastIndexKept
    let records ← d.openMeta s.metaName
    let d ← d.put s.metaName (.records
      (records.clear (t.metaOffset / sizeofLogMeta) (s.lastIndex - lastIndexKept)))
    -- the file still has its old name when its last record is read
    check (t.isWithInBoundary lastIndexKept) .boundary
    let m := (← d.openMeta s.metaName).cell (lastIndexKept - s.firstIndex)
    check (m.index = lastIndexKept) .metaIndex
    let t := { t with dataOffset := m.offset + m.length }
    if s.isActive then pure (d, t)
    else
      let d ← d.rename s.dataName t.dataName
      let d ← d.rename s.metaName t.metaName
      pure (d, t)

end Segment

end Gringofts
