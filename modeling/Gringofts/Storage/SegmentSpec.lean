import Gringofts.Storage.Content

/-!
# What the operations of a segment do

An object `Describes` its files when they hold a list of entries and the object knows their ends.
Each operation is given by the directories it writes, one after the other, and the object it leaves.

## Main definitions

* `Segment.Describes` — an object describes its files

## Main results

* `Segment.yields_createActiveSegment`, `Segment.yields_recover`,
  `Segment.yields_closeActiveSegment`, `Segment.yields_appendEntries`,
  `Segment.yields_truncateSuffix_active`, `Segment.yields_truncateSuffix_closed`,
  `Segment.yields_dropSegment` — one for each operation
* `Segment.yields_getEntry`, `Segment.yields_getTerm` — what is read
-/

namespace Gringofts

open Outcome Directory

variable {env : StorageEnv} {d : Directory} {d' : Directory} {dataSize metaSize m n k : ℕ}
  {name : FileName} {α : Type} {data : DataRegion} {records : MetaRegion} {fs : List LogEntry}
  {x : Directory × Segment}

namespace Segment

/-- The files of a segment hold the entries `es`, and the object knows where they end. -/
structure Describes (env : StorageEnv) (d : Directory) (s : Segment) (es : List LogEntry) :
    Prop where
  first_pos : 1 ≤ s.firstIndex
  last_eq : s.lastIndex + 1 = s.firstIndex + es.length
  dataOffset_eq : s.dataOffset = totalSize env es
  metaOffset_eq : s.metaOffset = es.length * sizeofLogMeta
  files : ∃ data records, d s.dataName = some (.data data) ∧
    d s.metaName = some (.records records) ∧ s.dataSizeLimit = data.size ∧
    s.metaSizeLimit = records.size ∧ Content env s.firstIndex es data records

/-- Entries can be found in the files of a segment, and the object knows where they end. -/
structure Finds (env : StorageEnv) (d : Directory) (s : Segment) (es : List LogEntry) :
    Prop where
  first_pos : 1 ≤ s.firstIndex
  last_eq : s.lastIndex + 1 = s.firstIndex + es.length
  dataOffset_eq : s.dataOffset = totalSize env es
  files : ∃ data records, d s.dataName = some (.data data) ∧
    d s.metaName = some (.records records) ∧ Found env s.firstIndex es data records

variable {s t : Segment} {es : List LogEntry}

theorem Describes.finds (h : Describes env d s es) : Finds env d s es := by
  obtain ⟨data, records, hdata, hmeta, -, -, hcontent⟩ := h.files
  exact ⟨h.first_pos, h.last_eq, h.dataOffset_eq, data, records, hdata, hmeta, hcontent.toFound⟩

/-- The records are those that are in the file. -/
theorem Describes.files_of_meta {records : Region LogMeta sizeofLogMeta}
    (h : Describes env d s es) (hmeta : d s.metaName = some (.records records)) :
    ∃ data, d s.dataName = some (.data data) ∧ s.dataSizeLimit = data.size ∧
      s.metaSizeLimit = records.size ∧ Content env s.firstIndex es data records := by
  obtain ⟨data, records', hdata, hmeta', hrest⟩ := h.files
  rw [hmeta] at hmeta'
  cases hmeta'
  exact ⟨data, hdata, hrest⟩

/-- Only the two files matter. -/
theorem Describes.congr (h : Describes env d s es) (hdata : d' s.dataName = d s.dataName)
    (hmeta : d' s.metaName = d s.metaName) : Describes env d' s es := by
  obtain ⟨hpos, hlast, hdo, hmo, data, records, hd, hm, hfiles⟩ := h
  exact ⟨hpos, hlast, hdo, hmo, data, records, hdata.trans hd, hmeta.trans hm, hfiles⟩

theorem dataName_ne_metaName (s t : Segment) : s.dataName ≠ t.metaName := by
  rw [dataName, metaName]
  split <;> split <;> simp

theorem dataName_of_active (h : s.isActive = true) : s.dataName = .activeData s.firstIndex := by
  rw [dataName, if_pos h]

theorem metaName_of_active (h : s.isActive = true) : s.metaName = .activeMeta s.firstIndex := by
  rw [metaName, if_pos h]

/-- Active segments with the same first entry have the same files. -/
theorem names_of_active (h : s.isActive = true) (h' : t.isActive = true)
    (hfirst : t.firstIndex = s.firstIndex) : t.dataName = s.dataName ∧ t.metaName = s.metaName := by
  rw [dataName_of_active h, dataName_of_active h', metaName_of_active h, metaName_of_active h',
    hfirst]
  exact ⟨rfl, rfl⟩

theorem dataName_of_closed (h : s.isActive = false) :
    s.dataName = .closedData s.firstIndex s.lastIndex := by
  rw [dataName, h, if_neg (by simp)]

theorem metaName_of_closed (h : s.isActive = false) :
    s.metaName = .closedMeta s.firstIndex s.lastIndex := by
  rw [metaName, h, if_neg (by simp)]

/-! ## Creation -/

section Create

variable (limits : SegmentLimits) (first : ℕ)

/-- A file of zeros. -/
def blankData (size : ℕ) : DataRegion := (Region.empty UInt8 1).grow size

/-- A file of blank records. -/
def blankMeta (size : ℕ) : MetaRegion := (Region.empty LogMeta sizeofLogMeta).grow size

/-- A new active segment, with files of the given sizes. -/
def fresh (dataSize metaSize first : ℕ) : Segment where
  isActive := true
  firstIndex := first
  lastIndex := first - 1
  dataSizeLimit := dataSize
  metaSizeLimit := metaSize

/-- The directory during the creation of a segment, when the meta file has been opened. -/
def created (dataSize metaSize first : ℕ) (d : Directory) : Directory :=
  (d.set (.activeData first) (.data (blankData dataSize))).set (.activeMeta first)
    (.records (blankMeta metaSize))

/-- A new segment describes files without entries. -/
theorem describes_fresh (hdata : d (.activeData first) =
      some (.data (blankData dataSize)))
    (hmeta : d (.activeMeta first) = some (.records (blankMeta metaSize))) (hfirst : 1 ≤ first) :
    Describes env d (fresh dataSize metaSize first) [] where
  first_pos := hfirst
  last_eq := Nat.sub_add_cancel hfirst
  dataOffset_eq := rfl
  metaOffset_eq := rfl
  files := ⟨_, _, hdata, hmeta, (Nat.zero_max _).symm, (Nat.zero_max _).symm,
    Content.nil fun _ => rfl⟩

theorem describes_fresh_created (hfirst : 1 ≤ first) (d : Directory) :
    Describes env (created dataSize metaSize first d) (fresh dataSize metaSize first) [] :=
  describes_fresh first (by rw [created, set_of_ne (by simp), set_self]) set_self hfirst

theorem created_of_ne (hdata : name ≠ .activeData first) (hmeta : name ≠ .activeMeta first) :
    created dataSize metaSize first d name = d name := by
  rw [created, set_of_ne hmeta, set_of_ne hdata]

/-- The directory after each call of the creation. -/
def creating (d : Directory) : List Directory :=
  [d.set (.activeData first) (.data (blankData 0)),
    d.set (.activeData first) (.data (blankData limits.dataSize)),
    created limits.dataSize 0 first d, created limits.dataSize limits.metaSize first d]

/-- What holds all the time during the creation. -/
theorem forall_creating {P : Directory → Prop} (h : P d)
    (hdata : ∀ r, P (d.set (.activeData first) (.data r)))
    (hcreated : ∀ m n, P (created m n first d)) : ∀ w ∈ d :: creating limits first d, P w := by
  simp only [creating, List.forall_mem_cons]
  exact ⟨h, hdata _, hdata _, hcreated _ _, hcreated _ _, List.forall_mem_nil _⟩

/-- **Creation** opens both files and gives them their sizes. -/
theorem yields_createActiveSegment (d : Directory) :
    (createActiveSegment limits first d).Yields (creating limits first d)
      (created limits.dataSize limits.metaSize first d,
        fresh limits.dataSize limits.metaSize first) := by
  have hdata : 0 < limits.dataSize ∧ limits.dataSize % pageSize = 0 :=
    ⟨limits.data_pos, limits.data_aligned⟩
  have hmeta : 0 < limits.metaSize ∧ limits.metaSize % pageSize = 0 :=
    ⟨limits.meta_pos, limits.meta_aligned⟩
  apply Yields.congr
  · apply Yields.bind_cons yields_put
    apply (yields_check hdata).bind_nil
    apply Yields.bind_cons yields_put
    apply Yields.bind_cons yields_put
    apply (yields_check hmeta).bind_nil
    apply Yields.bind_cons yields_put
    exact yields_pure _
  · simp only [set_set]
    rfl
  · simp only [set_set]
    rfl

end Create

/-! ## Recovery -/

section Recover

/-- The object for a segment whose files have been found. -/
def listed (s : Segment) : Segment where
  isActive := s.isActive
  firstIndex := s.firstIndex
  lastIndex := if s.isActive then s.firstIndex - 1 else s.lastIndex

/-- The object after its files have been made larger. -/
def enlarge (dataSize metaSize : ℕ) (s : Segment) : Segment :=
  { s with
    dataSizeLimit := max s.dataSizeLimit dataSize
    metaSizeLimit := max s.metaSizeLimit metaSize }

@[simp] theorem dataName_listed (s : Segment) : s.listed.dataName = s.dataName := by
  rw [dataName, dataName, listed]
  split <;> rfl

@[simp] theorem metaName_listed (s : Segment) : s.listed.metaName = s.metaName := by
  rw [metaName, metaName, listed]
  split <;> rfl

theorem yields_mapRegion [Inhabited α] {unit : ℕ} {file : Region α unit → File} {r : Region α unit}
    {size : ℕ} (h : d name = some (file r)) (hsize : size = 0 ∨ 0 < size ∧ size % pageSize = 0) :
    ∃ ws d', (mapRegion file name size r d).Yields ws (d', r.grow size) ∧
      d' name = some (file (r.grow size)) ∧ (∀ n, n ≠ name → d' n = d n) ∧
      (size = 0 → ws = [] ∧ d' = d) := by
  rw [mapRegion]
  by_cases hlt : r.size < size
  · have hvalid := hsize.resolve_left (by omega)
    rw [if_pos hlt]
    exact ⟨_, _, (yields_check hvalid).bind_nil
      (yields_put.bind (yields_pure _)), set_self,
      fun n hn => set_of_ne hn, fun hzero => by omega⟩
  · rw [if_neg hlt, Region.grow_of_le _ (Nat.not_lt.mp hlt)]
    exact ⟨_, _, yields_pure _, h, fun _ _ => rfl, fun _ => ⟨rfl, rfl⟩⟩

/-- The object that recovery makes of entries it finds. -/
def recovered (env : StorageEnv) (es : List LogEntry) (dataSize metaSize : ℕ) (s : Segment) :
    Segment :=
  { s with
    lastIndex := s.firstIndex + es.length - 1
    dataSizeLimit := dataSize
    dataOffset := totalSize env es
    metaSizeLimit := metaSize
    metaOffset := es.length * sizeofLogMeta }

/-- **Recovery** finds the entries up to the first record that does not continue them, and makes
the files larger if it has to. -/
theorem yields_recover_found (hdata : d s.dataName = some (.data data))
    (hmeta : d s.metaName = some (.records records)) (h : Found env s.firstIndex es data records)
    (hstop : (records.cell es.length).index ≠ s.firstIndex + es.length)
    (hlast : s.isActive = true ∨ s.firstIndex + es.length - 1 = s.lastIndex)
    (hm : m = 0 ∨ 0 < m ∧ m % pageSize = 0) (hn : n = 0 ∨ 0 < n ∧ n % pageSize = 0) :
    ∃ ws d', (s.listed.recoverActiveOrClosedSegment m n d).Yields ws
        (d', s.recovered env es (max data.size m) (max records.size n)) ∧
      d' s.dataName = some (.data (data.grow m)) ∧
      d' s.metaName = some (.records (records.grow n)) ∧
      (∀ name, name ≠ s.dataName → name ≠ s.metaName → d' name = d name) ∧
      (m = 0 → n = 0 → ws = [] ∧ d' = d) := by
  obtain ⟨ws₁, d₁, hrun₁, hd₁, hframe₁, hzero₁⟩ := yields_mapRegion hdata hm
  have hmeta₁ : d₁ s.metaName = some (.records records) := by
    rw [hframe₁ _ (dataName_ne_metaName s s).symm, hmeta]
  obtain ⟨ws₂, d₂, hrun₂, hd₂, hframe₂, hzero₂⟩ := yields_mapRegion hmeta₁ hn
  have hgrown := h.grow m n
  have hscan := hgrown.scan_eq hstop
  have hoffset : (if es.length = 0 then 0
      else (records.cell (es.length - 1)).offset + (records.cell (es.length - 1)).length) =
      totalSize env es := by
    split
    · next hnil => rw [List.length_eq_zero_iff.mp hnil, totalSize_nil]
    · next hne => exact h.last_record fun hnil => hne (by rw [hnil]; rfl)
  refine ⟨ws₁ ++ ws₂, d₂, ?_, ?_, hd₂, ?_, ?_⟩
  · rw [recoverActiveOrClosedSegment, dataName_listed, metaName_listed]
    refine (yields_openData hdata).bind_nil (hrun₁.bind ?_)
    rw [← List.append_nil ws₂]
    refine (yields_openMeta hmeta₁).bind_nil (hrun₂.bind ?_)
    have hpos : scan (records.grow n) s.listed.firstIndex
        ((records.grow n).size / sizeofLogMeta) 0 = es.length := hscan
    simp only [hpos, Region.grow_cell, hoffset]
    refine (yields_check ?_).bind_nil ((yields_check hgrown.meta_fits).bind_nil
      ((yields_check hgrown.data_fits).bind_nil (yields_pure _)))
    by_cases hactive : s.isActive = true
    · exact Or.inl hactive
    · refine Or.inr ((hlast.resolve_left hactive).trans ?_)
      rw [listed]
      exact (if_neg hactive).symm
  · exact (hframe₂ _ (dataName_ne_metaName s s)).trans hd₁
  · intro name hdn hmn
    rw [hframe₂ name hmn, hframe₁ name hdn]
  · intro hm0 hn0
    obtain ⟨rfl, rfl⟩ := hzero₁ hm0
    obtain ⟨rfl, rfl⟩ := hzero₂ hn0
    exact ⟨rfl, rfl⟩

/-- A segment whose files hold nothing else is recovered as it was, with files that may be
larger. -/
theorem yields_recover (h : Describes env d s es) (hm : m = 0 ∨ 0 < m ∧ m % pageSize = 0)
    (hn : n = 0 ∨ 0 < n ∧ n % pageSize = 0) :
    ∃ ws d', (s.listed.recoverActiveOrClosedSegment m n d).Yields ws (d', s.enlarge m n) ∧
      Describes env d' (s.enlarge m n) es ∧
      (∀ name, name ≠ s.dataName → name ≠ s.metaName → d' name = d name) ∧
      (m = 0 → n = 0 → ws = [] ∧ d' = d) := by
  obtain ⟨data, records, hdata, hmeta, hdsize, hmsize, hcontent⟩ := h.files
  have hpos := h.first_pos
  have hlast : s.firstIndex + es.length - 1 = s.lastIndex := by
    have := h.last_eq
    omega
  have hstop : (records.cell es.length).index ≠ s.firstIndex + es.length := by
    rw [hcontent.clean _ le_rfl]
    omega
  obtain ⟨ws, d', hrun, hd, hr, hframe, hzero⟩ :=
    yields_recover_found hdata hmeta hcontent.toFound hstop (Or.inr hlast) hm hn
  have hsame : s.recovered env es (max data.size m) (max records.size n) = s.enlarge m n := by
    rw [recovered, enlarge, hlast, ← h.dataOffset_eq, ← h.metaOffset_eq, hdsize, hmsize]
  rw [hsame] at hrun
  exact ⟨ws, d', hrun, ⟨h.first_pos, h.last_eq, h.dataOffset_eq, h.metaOffset_eq, data.grow m,
    records.grow n, hd, hr, congrArg (max · m) hdsize, congrArg (max · n) hmsize,
    hcontent.grow m n⟩, hframe, hzero⟩

/-- A closed segment is recovered as it is. -/
theorem yields_recover_closed (h : Describes env d s es) :
    (s.listed.recoverActiveOrClosedSegment 0 0 d).Yields [] (d, s) := by
  obtain ⟨ws, d', hrun, -, -, hzero⟩ := yields_recover h (Or.inl rfl) (Or.inl rfl)
  obtain ⟨rfl, rfl⟩ := hzero rfl rfl
  rwa [show s.enlarge 0 0 = s by simp [enlarge]] at hrun

end Recover

/-! ## Renaming -/

/-- Renaming the files one after the other. -/
theorem yields_relocate {data records data' records' : FileName} {f : Directory → α}
    (hd : (d data).isSome = true) (hr : (d records).isSome = true) (hne : records ≠ data)
    (hne' : records ≠ data') :
    ((do
      let d ← d.rename data data'
      let d ← d.rename records records'
      pure (f d)) : Disk α).Yields
      [d.move data data', d.relocate data records data' records']
      (f (d.relocate data records data' records')) := by
  refine (yields_rename hd).bind_cons ((yields_rename ?_).bind_cons
    (yields_pure _))
  rwa [move_of_ne hne hne']

/-- Files that have been renamed are described under their new name. -/
theorem Describes.relocate (h : Describes env d s es) (hfirst : t.firstIndex = s.firstIndex)
    (hlast : t.lastIndex = s.lastIndex) (hdataOffset : t.dataOffset = s.dataOffset)
    (hmetaOffset : t.metaOffset = s.metaOffset) (hdataSize : t.dataSizeLimit = s.dataSizeLimit)
    (hmetaSize : t.metaSizeLimit = s.metaSizeLimit) (hd : t.dataName ≠ s.dataName)
    (hm : t.metaName ≠ s.metaName) :
    Describes env (d.relocate s.dataName s.metaName t.dataName t.metaName) t es := by
  obtain ⟨hpos, hend, hdo, hmo, data, records, hdata, hmeta, hds, hms, hcontent⟩ := h
  refine ⟨hfirst ▸ hpos, ?_, hdataOffset.trans hdo, hmetaOffset.trans hmo, data, records, ?_, ?_,
    hdataSize.trans hds, hmetaSize.trans hms, hfirst ▸ hcontent⟩
  · rw [hfirst, hlast, hend]
  · rw [relocate_data' hd (dataName_ne_metaName _ _) (dataName_ne_metaName _ _), hdata]
  · rw [relocate_records' hm (dataName_ne_metaName _ _).symm
      (dataName_ne_metaName _ _).symm, hmeta]

theorem Describes.isSome_data (h : Describes env d s es) : (d s.dataName).isSome = true := by
  obtain ⟨_, _, hdata, -⟩ := h.files
  rw [hdata]
  rfl

theorem Describes.isSome_meta (h : Describes env d s es) : (d s.metaName).isSome = true := by
  obtain ⟨_, _, -, hmeta, -⟩ := h.files
  rw [hmeta]
  rfl

/-- **Closing** renames both files. -/
theorem yields_closeActiveSegment (h : Describes env d s es) (hactive : s.isActive = true) :
    (s.closeActiveSegment d).Yields
      [d.move s.dataName s.close.dataName,
        d.relocate s.dataName s.metaName s.close.dataName s.close.metaName]
      (d.relocate s.dataName s.metaName s.close.dataName s.close.metaName, s.close) :=
  (yields_check hactive).bind_nil
    (yields_relocate (f := fun d => (d, s.close)) h.isSome_data h.isSome_meta
      (dataName_ne_metaName _ _).symm (dataName_ne_metaName _ _).symm)

theorem close_dataName_ne (hactive : s.isActive = true) : s.close.dataName ≠ s.dataName := by
  rw [dataName_of_active hactive, dataName_of_closed rfl]
  simp

theorem close_metaName_ne (hactive : s.isActive = true) : s.close.metaName ≠ s.metaName := by
  rw [metaName_of_active hactive, metaName_of_closed rfl]
  simp

/-- A closed segment has the entries it had when it was active. -/
theorem Describes.close (h : Describes env d s es) (hactive : s.isActive = true) :
    Describes env (d.relocate s.dataName s.metaName s.close.dataName s.close.metaName) s.close es :=
  h.relocate rfl rfl rfl rfl rfl rfl (close_dataName_ne hactive) (close_metaName_ne hactive)

/-- **Dropping** renames both files. -/
theorem yields_dropSegment (h : Describes env d s es) (ts : ℕ) :
    (s.dropSegment ts d).Yields
      [d.move s.dataName (.dropped s.dataName ts),
        d.relocate s.dataName s.metaName (.dropped s.dataName ts) (.dropped s.metaName ts)]
      (d.relocate s.dataName s.metaName (.dropped s.dataName ts) (.dropped s.metaName ts)) := by
  refine (yields_rename h.isSome_data).bind_cons ?_
  refine yields_rename ?_
  rw [move_of_ne (dataName_ne_metaName _ _).symm]
  · exact h.isSome_meta
  · rw [metaName]
    split <;> simp

/-! ## Writing -/

/-- The files are written whether or not there is room. -/
theorem yields_appendEntries_any (hactive : s.isActive = true)
    (hindex : ∀ j e, fs[j]? = some e → e.index = s.lastIndex + 1 + j)
    (hknown : ∀ e ∈ fs, env.Knows e) (hdata : d s.dataName = some (.data data))
    (hmeta : d s.metaName = some (.records records)) :
    (s.appendEntries env fs d).Yields
      [d.set s.dataName (.data (env.writeFrom s.dataOffset fs data)),
        (d.set s.dataName (.data (env.writeFrom s.dataOffset fs data))).set s.metaName (.records
          (records.write (s.metaOffset / sizeofLogMeta) (env.recordsFrom s.dataOffset fs)))]
      ((d.set s.dataName (.data (env.writeFrom s.dataOffset fs data))).set s.metaName (.records
          (records.write (s.metaOffset / sizeofLogMeta) (env.recordsFrom s.dataOffset fs))),
        s.extend env fs) :=
  (yields_check hactive).bind_nil ((yields_openData hdata).bind_nil
    ((yields_openMeta hmeta).bind_nil ((yields_writeEntries _ _ hindex hknown).bind_nil
      (yields_put.bind_cons (yields_put.bind_cons
        (yields_pure _))))))

/-- **Appending** writes the data, then the records. -/
theorem yields_appendEntries_files (h : Describes env d s es) (hactive : s.isActive = true)
    (hindex : ∀ j e, fs[j]? = some e → e.index = s.lastIndex + 1 + j)
    (hknown : ∀ e ∈ fs, env.Knows e) (hroom : ¬ s.shouldRoll env fs)
    (hdata : d s.dataName = some (.data data)) (hmeta : d s.metaName = some (.records records))
    (hds : s.dataSizeLimit = data.size) (hms : s.metaSizeLimit = records.size)
    (hcontent : Content env s.firstIndex es data records) :
    ∃ data' records', (s.appendEntries env fs d).Yields
        [d.set s.dataName (.data data'),
          (d.set s.dataName (.data data')).set s.metaName (.records records')]
        ((d.set s.dataName (.data data')).set s.metaName (.records records'), s.extend env fs) ∧
      data'.size = data.size ∧ records'.size = records.size ∧
      Content env s.firstIndex (es ++ fs) data' records' := by
  have hlast := h.last_eq
  have hpos : s.metaOffset / sizeofLogMeta = es.length := by
    rw [h.metaOffset_eq]
    exact Nat.mul_div_cancel _ (by decide)
  have hdatafit : totalSize env es + totalSize env fs ≤ data.size := by
    rw [← h.dataOffset_eq, ← hds]
    exact Nat.not_lt.mp fun hlt => hroom (Or.inr hlt)
  have hmetafit : (es.length + fs.length) * sizeofLogMeta ≤ records.size := by
    rw [Nat.add_mul, ← h.metaOffset_eq, ← hms]
    exact Nat.not_lt.mp fun hlt => hroom (Or.inl hlt)
  have happended := hcontent.append (fun j e hj => by rw [hindex j e hj, hlast]) hknown hdatafit
    hmetafit
  rw [← h.dataOffset_eq, ← hpos] at happended
  exact ⟨_, _, yields_appendEntries_any hactive hindex hknown hdata hmeta,
    StorageEnv.writeFrom_size _ _ _, Region.write_size _ _ _, happended⟩

/-- What appending leaves. -/
theorem yields_appendEntries (h : Describes env d s es) (hactive : s.isActive = true)
    (hindex : ∀ j e, fs[j]? = some e → e.index = s.lastIndex + 1 + j)
    (hknown : ∀ e ∈ fs, env.Knows e) (hroom : ¬ s.shouldRoll env fs) :
    ∃ ws d', (s.appendEntries env fs d).Yields ws (d', s.extend env fs) ∧
      Describes env d' (s.extend env fs) (es ++ fs) ∧
      ∀ name, name ≠ s.dataName → name ≠ s.metaName → d' name = d name := by
  obtain ⟨data, records, hdata, hmeta, hds, hms, hcontent⟩ := h.files
  have hlast := h.last_eq
  obtain ⟨data', records', hrun, hds', hms', happended⟩ :=
    yields_appendEntries_files h hactive hindex hknown hroom hdata hmeta hds hms hcontent
  obtain ⟨hdname, hmname⟩ := names_of_active (t := s.extend env fs) hactive hactive rfl
  refine ⟨_, _, hrun, ⟨h.first_pos, ?_, ?_, ?_, data', records', ?_, ?_, ?_, ?_, happended⟩, ?_⟩
  · show s.lastIndex + fs.length + 1 = s.firstIndex + (es ++ fs).length
    rw [List.length_append]
    omega
  · show s.dataOffset + totalSize env fs = _
    rw [totalSize_append, h.dataOffset_eq]
  · show s.metaOffset + fs.length * sizeofLogMeta = _
    rw [List.length_append, Nat.add_mul, h.metaOffset_eq]
  · rw [hdname, set_of_ne (dataName_ne_metaName s s), set_self]
  · rw [hmname, set_self]
  · rw [hds']
    exact hds
  · rw [hms']
    exact hms
  · intro name hdn hmn
    rw [set_of_ne hmn, set_of_ne hdn]

/-- Whatever is written passed the checks of the loop. -/
theorem writeEntries_sat (next offset : ℕ) (data : DataRegion) (fs : List LogEntry) :
    (writeEntries env next offset data fs).Sat (fun _ => True)
      (fun _ => (∀ j e, fs[j]? = some e → e.index = next + j) ∧ ∀ e ∈ fs, env.Knows e)
      fun _ => True := by
  induction fs generalizing next offset data with
  | nil => exact sat_pure.mpr ⟨by simp, by simp⟩
  | cons e fs ih =>
    rw [writeEntries]
    refine sat_check_bind (fun _ => trivial) fun hidx =>
      sat_check_bind (fun _ => trivial) fun hknown => ?_
    refine (ih _ _ _).bind fun x hx => sat_pure.mpr ⟨fun j f hf => ?_, fun f hf => ?_⟩
    · cases j with
      | zero =>
        obtain rfl : e = f := by simpa using hf
        exact hidx.symm
      | succ j =>
        rw [hx.1 j f (by simpa using hf)]
        omega
    · rcases List.mem_cons.mp hf with rfl | hf
      · exact hknown
      · exact hx.2 f hf

/-- **What is appended**: entries with the next indices and known keys, to an active segment. -/
theorem appendEntries_accepts (h : (s.appendEntries env fs d).result = .ok x) :
    s.isActive = true ∧ (∀ j e, fs[j]? = some e → e.index = s.lastIndex + 1 + j) ∧
      ∀ e ∈ fs, env.Knows e := by
  have hsat : (s.appendEntries env fs d).Sat (fun _ => True) (fun _ => s.isActive = true ∧
      (∀ j e, fs[j]? = some e → e.index = s.lastIndex + 1 + j) ∧ ∀ e ∈ fs, env.Knows e)
      fun _ => True := by
    rw [appendEntries]
    refine sat_check_bind (fun _ => trivial) fun hactive => ?_
    refine (d.openData s.dataName).sat_trivial.bind fun data _ => ?_
    refine (d.openMeta s.metaName).sat_trivial.bind fun records _ => ?_
    refine (writeEntries_sat _ _ data fs).bind fun x hx => ?_
    exact (sat_trivial _).imp fun _ _ => ⟨hactive, hx⟩
  exact hsat.of_result h

/-! ## Truncation -/

section Truncate

variable {k : ℕ} {data : DataRegion} {records : MetaRegion}

/-- The object after its suffix has been truncated. -/
def truncated (env : StorageEnv) (k : ℕ) (es : List LogEntry) (s : Segment) : Segment :=
  { s.endAt k with dataOffset := totalSize env (es.take (k + 1 - s.firstIndex)) }

/-- The meta file after the records above an index have been cleared. -/
def cleared (k : ℕ) (s : Segment) (records : MetaRegion) : MetaRegion :=
  records.clear (k + 1 - s.firstIndex) (s.lastIndex - k)

variable (h : Describes env d s es) (hmeta : d s.metaName = some (.records records))
  (hk : s.firstIndex ≤ k) (hk' : k < s.lastIndex)
include h hmeta hk hk'

/-- What both cases of a truncation begin with. -/
theorem yields_truncateSuffix_of {ws : List Directory} (hrest : (if s.isActive then
        pure (d.set s.metaName (.records (cleared k s records)), s.truncated env k es)
      else do
        let d ← (d.set s.metaName (.records (cleared k s records))).rename s.dataName
          (s.truncated env k es).dataName
        let d ← d.rename s.metaName (s.truncated env k es).metaName
        pure (d, s.truncated env k es) : Disk (Directory × Segment)).Yields ws x) :
    (s.truncateSuffix k d).Yields (d.set s.metaName (.records (cleared k s records)) :: ws) x := by
  obtain ⟨data, hdata, -, -, hcontent⟩ := h.files_of_meta hmeta
  have hlast := h.last_eq
  obtain ⟨hindex, hoffset⟩ := hcontent.record_take (n := k + 1 - s.firstIndex) (by omega) (by omega)
  have hcell : (cleared k s records).cell (k - s.firstIndex) =
      records.cell (k + 1 - s.firstIndex - 1) := by
    rw [cleared, Region.cell_clear_of_lt (by omega)]
    congr 1
    omega
  have hpos : (s.endAt k).metaOffset / sizeofLogMeta = k + 1 - s.firstIndex :=
    Nat.mul_div_cancel _ (by decide)
  rw [truncateSuffix, if_neg (by omega)]
  refine (yields_openMeta hmeta).bind_nil ?_
  rw [hpos]
  refine yields_put.bind_cons ((yields_check ?_).bind_nil
    ((yields_openMeta set_self).bind_nil
      ((yields_check ?_).bind_nil ?_)))
  · refine ⟨?_, hk, le_rfl⟩
    show k ≠ s.firstIndex - 1
    have := h.first_pos
    omega
  · show ((cleared k s records).cell (k - s.firstIndex)).index = k
    rw [hcell, hindex]
    omega
  · show Outcome.Yields (if s.isActive = true then _ else _) _ _
    rw [show (records.clear (k + 1 - s.firstIndex) (s.lastIndex - k)) = cleared k s records from
      rfl, hcell, hoffset]
    exact hrest

/-- What is left in the files of a truncated segment. -/
theorem content_cleared (hdata : d s.dataName = some (.data data)) :
    Content env s.firstIndex (es.take (k + 1 - s.firstIndex)) data (cleared k s records) := by
  obtain ⟨data', hdata', -, -, hcontent⟩ := h.files_of_meta hmeta
  rw [hdata] at hdata'
  cases hdata'
  have hlast := h.last_eq
  have hcut := hcontent.truncate (n := k + 1 - s.firstIndex) (by omega)
  rwa [show es.length - (k + 1 - s.firstIndex) = s.lastIndex - k by omega] at hcut

/-- The files of a truncated segment, wherever they are. -/
theorem describes_truncated (hd : d' (s.truncated env k es).dataName = d s.dataName)
    (hm : d' (s.truncated env k es).metaName = some (.records (cleared k s records))) :
    Describes env d' (s.truncated env k es) (es.take (k + 1 - s.firstIndex)) := by
  obtain ⟨data, hdata, hds, hms, -⟩ := h.files_of_meta hmeta
  have hlast := h.last_eq
  have hlen : (es.take (k + 1 - s.firstIndex)).length = k + 1 - s.firstIndex := by
    rw [List.length_take]
    omega
  refine ⟨h.first_pos, ?_, rfl, ?_, data, cleared k s records, hd.trans hdata, hm, hds, hms,
    content_cleared h hmeta hk hk' hdata⟩
  · show k + 1 = s.firstIndex + _
    omega
  · show (k + 1 - s.firstIndex) * sizeofLogMeta = _
    rw [hlen]

/-- **Truncation of an active segment** clears the records. -/
theorem yields_truncateSuffix_active (hactive : s.isActive = true) :
    (s.truncateSuffix k d).Yields [d.set s.metaName (.records (cleared k s records))]
      (d.set s.metaName (.records (cleared k s records)), s.truncated env k es) ∧
    Describes env (d.set s.metaName (.records (cleared k s records))) (s.truncated env k es)
      (es.take (k + 1 - s.firstIndex)) := by
  obtain ⟨hd, hm⟩ := names_of_active (t := s.truncated env k es) hactive hactive rfl
  constructor
  · refine yields_truncateSuffix_of h hmeta hk hk' ?_
    rw [if_pos hactive]
    exact yields_pure _
  · refine describes_truncated h hmeta hk hk' ?_ ?_
    · rw [hd, set_of_ne (dataName_ne_metaName s s)]
    · rw [hm, set_self]

/-- **Truncation of a closed segment** clears the records, and the files get a new name. -/
theorem yields_truncateSuffix_closed (hclosed : s.isActive = false) :
    ∃ d', (s.truncateSuffix k d).Yields [d.set s.metaName (.records (cleared k s records)),
        (d.set s.metaName (.records (cleared k s records))).move s.dataName
          (s.truncated env k es).dataName, d'] (d', s.truncated env k es) ∧
      Describes env d' (s.truncated env k es) (es.take (k + 1 - s.firstIndex)) ∧
      d' s.dataName = none ∧ d' s.metaName = none ∧
      ∀ name, name ≠ s.dataName → name ≠ s.metaName → name ≠ (s.truncated env k es).dataName →
        name ≠ (s.truncated env k es).metaName → d' name = d name := by
  have hclosed' : (s.truncated env k es).isActive = false := hclosed
  have hdn : (s.truncated env k es).dataName ≠ s.dataName := by
    rw [dataName_of_closed hclosed, dataName_of_closed hclosed']
    intro heq
    injection heq with _ hlast
    exact absurd hlast (Nat.ne_of_lt hk')
  have hmn : (s.truncated env k es).metaName ≠ s.metaName := by
    rw [metaName_of_closed hclosed, metaName_of_closed hclosed']
    intro heq
    injection heq with _ hlast
    exact absurd hlast (Nat.ne_of_lt hk')
  have hdm := fun u v : Segment => dataName_ne_metaName u v
  let t := s.truncated env k es
  let d₁ := d.set s.metaName (.records (cleared k s records))
  refine ⟨d₁.relocate s.dataName s.metaName t.dataName t.metaName,
    yields_truncateSuffix_of h hmeta hk hk' ?_, describes_truncated h hmeta hk hk' ?_ ?_, ?_, ?_,
    ?_⟩
  · rw [if_neg (by rw [hclosed]; simp)]
    refine yields_relocate (f := fun d => (d, s.truncated env k es)) ?_ ?_ (hdm _ _).symm
      (hdm _ _).symm
    · rw [set_of_ne (hdm _ _)]
      exact h.isSome_data
    · rw [set_self]
      rfl
  · rw [relocate_data' hdn (hdm _ _) (hdm _ _)]
    exact set_of_ne (hdm _ _)
  · rw [relocate_records' hmn (hdm _ _).symm (hdm _ _).symm]
    exact set_self
  · exact relocate_data (hdm _ _) (hdm _ _)
  · exact relocate_records
  · intro name h1 h2 h3 h4
    rw [relocate_of_ne h1 h2 h3 h4]
    exact set_of_ne h2

end Truncate

/-- Truncation of a closed segment at one of its indices, which may be the last. -/
theorem exists_yields_truncateSuffix (h : Describes env d s es) (hclosed : s.isActive = false)
    (hk : s.firstIndex ≤ k) (hk' : k ≤ s.lastIndex) :
    ∃ ws d' t, (s.truncateSuffix k d).Yields ws (d', t) ∧ Trail d ws d' ∧ t.isActive = false ∧
      t.firstIndex = s.firstIndex ∧ t.lastIndex = k ∧
      Describes env d' t (es.take (k + 1 - s.firstIndex)) ∧
      (t.metaName ≠ s.metaName → d' s.metaName = none) ∧
      ∀ name, name ≠ s.dataName → name ≠ s.metaName → name ≠ t.dataName → name ≠ t.metaName →
        d' name = d name := by
  have hlast := h.last_eq
  rcases Nat.lt_or_eq_of_le hk' with hlt | rfl
  · obtain ⟨-, records, -, hmeta, -⟩ := h.files
    obtain ⟨d', hrun, hfiles, -, hgone, hframe⟩ :=
      yields_truncateSuffix_closed h hmeta hk hlt hclosed
    exact ⟨_, d', _, hrun, rfl, hclosed, rfl, rfl, hfiles, fun _ => hgone, hframe⟩
  · refine ⟨[], d, s, ?_, rfl, hclosed, rfl, rfl, ?_, fun hne => absurd rfl hne,
      fun _ _ _ _ _ => rfl⟩
    · rw [truncateSuffix, if_pos le_rfl]
      exact yields_pure _
    · rwa [List.take_of_length_le (by omega)]

/-- Truncation of a segment at one of its indices. -/
theorem exists_yields_truncateSuffix_any (h : Describes env d s es) (hk : s.firstIndex ≤ k)
    (hk' : k ≤ s.lastIndex) :
    ∃ ws d' t, (s.truncateSuffix k d).Yields ws (d', t) ∧ t.firstIndex = s.firstIndex ∧
      Describes env d' t (es.take (k + 1 - s.firstIndex)) := by
  have hlast := h.last_eq
  rcases Nat.lt_or_eq_of_le hk' with hlt | rfl
  · cases hactive : s.isActive with
    | true =>
      obtain ⟨-, records, -, hmeta, -⟩ := h.files
      obtain ⟨hrun, hdesc⟩ := yields_truncateSuffix_active h hmeta hk hlt hactive
      exact ⟨_, _, _, hrun, rfl, hdesc⟩
    | false =>
      obtain ⟨ws, d', t, hrun, -, -, hfirst, -, hdesc, -⟩ :=
        exists_yields_truncateSuffix h hactive hk hk'
      exact ⟨ws, d', t, hrun, hfirst, hdesc⟩
  · refine ⟨[], d, s, ?_, rfl, ?_⟩
    · rw [truncateSuffix, if_pos le_rfl]
      exact yields_pure _
    · rwa [List.take_of_length_le (by omega)]

/-! ## Reading -/

section Get

variable {i : ℕ} {e : LogEntry}

theorem yields_getMeta (h : Finds env d s es) (hi : s.firstIndex ≤ i)
    (he : es[i - s.firstIndex]? = some e) :
    s.isWithInBoundary i ∧
      (s.getMeta i d).Yields [] (env.record (totalSize env (es.take (i - s.firstIndex))) e) := by
  obtain ⟨data, records, hdata, hmeta, hcontent⟩ := h.files
  have hlt : i - s.firstIndex < es.length := (List.getElem?_eq_some_iff.mp he).1
  have hlast := h.last_eq
  have hpos := h.first_pos
  have hbound : s.isWithInBoundary i := ⟨by omega, hi, by omega⟩
  have hrecord := hcontent.record_eq _ _ he
  refine ⟨hbound, (yields_check hbound).bind_nil
    ((yields_openMeta hmeta).bind_nil ?_)⟩
  rw [hrecord]
  refine (yields_check ?_).bind_nil (yields_pure _)
  show e.index = i
  rw [hcontent.indexed _ _ he]
  omega

/-- The digest of a record is the one of its entry. -/
theorem authentic_record (env : StorageEnv) (offset : ℕ) (hknown : env.Knows e) :
    env.Authentic (env.record offset e) (env.codec.serialize e) := by
  intro henabled
  refine Or.inr ⟨StorageEnv.keyVersion e - 1, ?_, ?_⟩
  · have := hknown henabled
    have := StorageEnv.keyVersion_pos e
    rw [List.mem_range]
    omega
  · rw [Nat.sub_add_cancel (StorageEnv.keyVersion_pos e)]
    simp only [StorageEnv.record, henabled, if_true]

/-- **An entry is read back.** -/
theorem yields_getEntry (h : Finds env d s es) (hi : s.firstIndex ≤ i)
    (he : es[i - s.firstIndex]? = some e) : (s.getEntry env i d).Yields [] (some e) := by
  obtain ⟨data, records, hdata, hmeta, hcontent⟩ := h.files
  obtain ⟨hbound, hget⟩ := yields_getMeta h hi he
  have hread : data.read (env.record (totalSize env (es.take (i - s.firstIndex))) e).offset
      (env.record (totalSize env (es.take (i - s.firstIndex))) e).length =
      env.codec.serialize e := hcontent.read_eq _ _ he
  rw [getEntry, if_pos hbound]
  refine hget.bind_nil ((yields_openData hdata).bind_nil ?_)
  rw [hread]
  refine (yields_check ?_).bind_nil ((yields_check ?_).bind_nil ?_)
  · rw [h.dataOffset_eq]
    exact totalSize_take_le es _
  · exact authentic_record env _ (hcontent.known e (List.mem_of_getElem? he))
  · rw [env.codec.parse_serialize]
    exact yields_pure _

theorem yields_getTerm (h : Finds env d s es) (hi : s.firstIndex ≤ i)
    (he : es[i - s.firstIndex]? = some e) : (s.getTerm i d).Yields [] (some e.term) := by
  obtain ⟨hbound, hget⟩ := yields_getMeta h hi he
  rw [getTerm, if_pos hbound]
  exact hget.bind_nil (yields_pure _)

end Get

end Segment

end Gringofts
