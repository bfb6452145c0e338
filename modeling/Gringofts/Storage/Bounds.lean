import Gringofts.Storage.Tidy

/-!
# Segments and the size of their files

A segment keeps the position behind its last entry in both files, and the files are mapped with the
sizes they have. Before a batch is appended the active segment is asked whether it has room. If not
it is closed and the batch goes into a new one, which is not asked again.

So a batch that is too large for a new segment is written past the end of its files. If the active
segment was empty it has been closed without an entry as well, and such a directory cannot be opened
any more. Everything else is within bounds, whatever has been done to the log before.

## Main definitions

* `SegmentLog.InBounds` — the entries are in their files, and no closed segment is empty
* `LogOperation.Appends` — the operations that append a batch

## Main results

* `appends_in_bounds_iff` — when appending stays in bounds
-/

namespace Gringofts

open Outcome Scenario Segment

/-- Both positions of each segment are in its files, and closed segments have entries. -/
def SegmentLog.InBounds (s : SegmentLog) : Prop :=
  (∀ t ∈ s.closed ++ s.active.toList,
    t.dataOffset ≤ t.dataSizeLimit ∧ t.metaOffset ≤ t.metaSizeLimit) ∧
    ∀ t ∈ s.closed, t.firstIndex ≤ t.lastIndex

/-- The operations that append a batch. -/
def LogOperation.Appends (es : List LogEntry) : LogOperation → Prop
  | .appendEntry e => es = [e]
  | .appendEntries es' => es = es'
  | _ => False

variable {env : StorageEnv} {d : Directory} {s : SegmentLog} {a : Segment} {es : List LogEntry}

/-- A segment does not reach past its files. -/
theorem Segment.Describes.offset_le (h : a.Describes env d es) :
    a.dataOffset ≤ a.dataSizeLimit ∧ a.metaOffset ≤ a.metaSizeLimit := by
  obtain ⟨data, records, -, -, hdata, hmeta, hcontent⟩ := h.files
  rw [h.dataOffset_eq, h.metaOffset_eq, hdata, hmeta]
  exact ⟨hcontent.data_fits, hcontent.meta_fits⟩

theorem SegmentLog.Tidy.inBounds (h : s.Tidy env) : s.InBounds := by
  obtain ⟨a, es, ha, -, -, hfiles, hrow, -⟩ := h.active
  refine ⟨fun t ht => ?_, fun t ht => (hrow.files t ht).2.1⟩
  rw [ha] at ht
  rcases List.mem_append.mp ht with ht | ht
  · obtain ⟨-, -, fs, hfs⟩ := hrow.files t ht
    exact hfs.offset_le
  · obtain rfl : t = a := by simpa using ht
    exact hfiles.offset_le

/-- **A batch for which the active segment has no room** goes into a new one, as large as it may
be. -/
theorem SegmentLog.Tidy.exists_yields_full (h : s.Tidy env) (ha : s.active = some a)
    (hindex : ∀ j e, es[j]? = some e → e.index = s.lastIndex + 1 + j)
    (hknown : ∀ e ∈ es, env.Knows e) (hne : es ≠ []) (hfull : a.shouldRoll env es) :
    ∃ ws s', (s.appendEntries env es).Yields ws (s', true) ∧ s'.closed = s.closed ++ [a.close] ∧
      s'.active = some ((fresh s.limits.dataSize s.limits.metaSize
        (s.lastIndex + 1)).extend env es) := by
  obtain ⟨ws₁, hroll⟩ := h.exists_yields_roll ha
  have hfresh : Segment.Describes env (s.rolled a).dir
      (fresh s.limits.dataSize s.limits.metaSize (s.lastIndex + 1)) [] :=
    describes_fresh_created _ (Nat.le_add_left 1 s.lastIndex) _
  obtain ⟨data, records, hdata, hmeta, -⟩ := hfresh.files
  have hrun := yields_appendEntries_any rfl hindex hknown hdata hmeta
  cases es with
  | nil => exact absurd rfl hne
  | cons e es =>
    obtain ⟨ws₂, s', happend, hs'⟩ : ∃ ws s', ((s.rolled a).appendToActive env (e :: es)).Yields
        ws s' ∧ s'.closed = s.closed ++ [a.close] ∧ s'.active = some ((fresh
          s.limits.dataSize s.limits.metaSize (s.lastIndex + 1)).extend env (e :: es)) :=
      ⟨_, _, (yields_ofOption rfl).bind_nil (hrun.bind (yields_pure _)), rfl, rfl⟩
    rw [SegmentLog.appendEntries, if_neg (not_not.mpr (hindex 0 e rfl))]
    refine ⟨ws₁ ++ (ws₂ ++ []), s', (yields_ofOption ha).bind_nil ?_, hs'⟩
    rw [if_pos hfull]
    exact hroll.bind (happend.bind (yields_pure _))

/-- What is too large for a new segment is past the end of its files. -/
theorem Segment.not_fits_iff (limits : SegmentLimits) (first : ℕ) :
    ¬ limits.Fits env es ↔
      let b := (fresh limits.dataSize limits.metaSize first).extend env es
      ¬ (b.dataOffset ≤ b.dataSizeLimit ∧ b.metaOffset ≤ b.metaSizeLimit) := by
  simp only [SegmentLimits.Fits, extend, fresh, Nat.zero_add]
  tauto

/-- **Appending stays in the files exactly if there is room.** After any operations in which there
was room for what was appended, a batch that continues the log is accepted exactly if the versions
of its keys are known. Then all segments are within their files and no closed one is empty exactly
if the active segment has room for the batch, or a new one has. -/
theorem appends_in_bounds_iff {op : LogOperation} (h : s.Reached env) (hop : op.Appends es)
    (hcont : Contiguous es) (hnext : ∀ e ∈ es.head?, e.index = s.lastIndex + 1) :
    ((∃ ws s', (s.perform env op).Yields ws (s', true)) ↔ ∀ e ∈ es, env.Knows e) ∧
      ∀ ws s' b, (s.perform env op).Yields ws (s', b) → (s'.InBounds ↔ s.Room env es) := by
  have htidy := h.tidy
  have hperform : s.perform env op = s.appendEntries env es := by
    cases op with
    | appendEntry e =>
      obtain rfl : es = [e] := hop
      rfl
    | appendEntries es' =>
      obtain rfl : es = es' := hop
      rfl
    | _ => exact hop.elim
  have hindex : ∀ j e, es[j]? = some e → e.index = s.lastIndex + 1 + j := by
    intro j f hf
    cases es with
    | nil => simp at hf
    | cons e es => rw [hcont e rfl j f hf, hnext e rfl]
  obtain ⟨a, fs, ha, -, hlast, -⟩ := htidy.active
  -- without room the batch is in a new segment, and past its end
  have hover : (∀ e ∈ es, env.Knows e) → ¬ s.Room env es →
      ∃ ws s', (s.appendEntries env es).Yields ws (s', true) ∧ ¬ s'.InBounds := by
    intro hknown hroom
    obtain ⟨hall, hfits⟩ := not_or.mp hroom
    have hfull : a.shouldRoll env es := by
      by_contra hnot
      refine hall fun b hb => ?_
      obtain rfl : a = b := Option.some.inj (ha.symm.trans hb)
      exact hnot
    have hne : es ≠ [] := by
      rintro rfl
      exact hfits (by simp [SegmentLimits.Fits])
    obtain ⟨ws, s', hrun, -, hactive⟩ := htidy.exists_yields_full ha hindex hknown hne hfull
    refine ⟨ws, s', hrun, fun hin => ?_⟩
    refine (not_fits_iff s.limits (s.lastIndex + 1)).mp hfits (hin.1 _ ?_)
    rw [hactive]
    simp
  rw [hperform]
  refine ⟨⟨?_, fun hknown => ?_⟩, fun ws s' b hrun => ?_⟩
  · rintro ⟨ws, s', hrun⟩
    exact (SegmentLog.appendEntries_accepts ha hlast hnext hrun.result).2
  · by_cases hroom : s.Room env es
    · obtain ⟨ws, s', hrun, -⟩ := htidy.exists_yields_appendEntries hindex hknown hroom
      exact ⟨ws, s', hrun⟩
    · obtain ⟨ws, s', hrun, -⟩ := hover hknown hroom
      exact ⟨ws, s', hrun⟩
  · constructor
    · intro hin
      by_contra hroom
      obtain ⟨ws', s'', hrun', hout⟩ :=
        hover (SegmentLog.appendEntries_accepts ha hlast hnext hrun.result).2 hroom
      obtain ⟨-, heq⟩ := hrun.unique hrun'
      obtain ⟨rfl, -⟩ := Prod.mk.inj heq
      exact hout hin
    · intro hroom
      exact (htidy.appendEntries hroom hrun).inBounds

/-- A log that has been opened in an empty directory, with files of one page. -/
theorem Scenario.exists_opened : ∃ s : SegmentLog, s.Reached StorageEnv.plain ∧
    s.limits = SegmentLimits.onePage ∧ s.lastIndex = 0 ∧
      s.active = some (Segment.fresh pageSize pageSize 1) := by
  obtain ⟨ws, s, hopen, hs⟩ : ∃ ws s,
      (SegmentLog.init SegmentLimits.onePage [] Directory.empty).Yields ws s ∧
      s.limits = SegmentLimits.onePage ∧ s.lastIndex = 0 ∧
      s.active = some (Segment.fresh pageSize pageSize 1) := ⟨_, _, rfl, rfl, rfl, rfl⟩
  exact ⟨s, .opened Directory.lists_empty hopen, hs⟩

/-- A number of entries, from an index on. -/
def Scenario.entriesFrom (first n : ℕ) : List LogEntry :=
  (List.range n).map fun i => ⟨1, first + i, true, 0, [], 0, none⟩

theorem Scenario.entriesFrom_index (first n : ℕ) :
    ∀ j e, (entriesFrom first n)[j]? = some e → e.index = first + j := by
  intro j e he
  rw [entriesFrom, List.getElem?_map, Option.map_eq_some_iff] at he
  obtain ⟨i, hi, rfl⟩ := he
  obtain ⟨hlt, rfl⟩ := List.getElem?_eq_some_iff.mp hi
  show first + (List.range n)[j] = first + j
  rw [List.getElem_range]

theorem Scenario.contiguous_entriesFrom (first n : ℕ) : Contiguous (entriesFrom first n) := by
  intro e he j f hf
  rw [List.head?_eq_getElem?] at he
  rw [entriesFrom_index first n j f hf, entriesFrom_index first n 0 e he]
  rfl

theorem Scenario.entriesFrom_next (first n : ℕ) :
    ∀ e ∈ (entriesFrom first n).head?, e.index = first := by
  intro e he
  rw [List.head?_eq_getElem?] at he
  exact entriesFrom_index first n 0 e he

/-- Two entries are appended to the log. -/
theorem appends_in_bounds_iff_two : ∃ s : SegmentLog, s.Reached StorageEnv.plain ∧
    s.lastIndex = 0 ∧ s.Room StorageEnv.plain (entriesFrom 1 2) ∧
    ∃ ws s', (s.perform StorageEnv.plain (.appendEntries (entriesFrom 1 2))).Yields ws
      (s', true) ∧ s'.InBounds := by
  obtain ⟨s, h, hlimits, hlast, -⟩ := exists_opened
  have hroom : s.Room StorageEnv.plain (entriesFrom 1 2) :=
    Or.inr (by rw [hlimits]; decide)
  have hop : (LogOperation.appendEntries (entriesFrom 1 2)).Appends
      (entriesFrom 1 2) := rfl
  obtain ⟨hreturns, hbounds⟩ := appends_in_bounds_iff h hop (contiguous_entriesFrom 1 2)
    (by rw [hlast]; exact entriesFrom_next 1 2)
  obtain ⟨ws, s', hrun⟩ := hreturns.mpr (by decide)
  exact ⟨s, h, hlast, hroom, ws, s', hrun, (hbounds ws s' true hrun).mpr hroom⟩

/-- **A batch past the end of the file.** The first batch of a new log has `65` entries, and the
meta file has room for `64`. The batch is accepted. The empty segment has been closed, and the
records of the new one reach past its file. -/
theorem batch_past_the_file : ∃ (s s' : SegmentLog) (ws : List Directory) (a : Segment),
    s.Reached StorageEnv.plain ∧ Contiguous (entriesFrom 1 65) ∧
    (∀ e ∈ (entriesFrom 1 65).head?, e.index = s.lastIndex + 1) ∧
    (s.perform StorageEnv.plain (.appendEntries (entriesFrom 1 65))).Yields ws (s', true) ∧
    s'.active = some a ∧ a.metaSizeLimit < a.metaOffset ∧
    (∃ t ∈ s'.closed, t.lastIndex < t.firstIndex) ∧ ¬ s'.InBounds := by
  obtain ⟨s, h, hlimits, hlast, ha⟩ := exists_opened
  have hlength : (entriesFrom 1 65).length = 65 := by simp [entriesFrom]
  have hindex : ∀ j e, (entriesFrom 1 65)[j]? = some e →
      e.index = s.lastIndex + 1 + j := by
    intro j e he
    rw [hlast, entriesFrom_index 1 65 j e he]
  have hknown : ∀ e ∈ entriesFrom 1 65, StorageEnv.plain.Knows e := by
    intro e _ henabled
    cases henabled
  have hne : entriesFrom 1 65 ≠ [] := by
    intro hnil
    rw [hnil] at hlength
    cases hlength
  have hfull : (Segment.fresh pageSize pageSize 1).shouldRoll StorageEnv.plain
      (entriesFrom 1 65) := by
    refine Or.inl ?_
    rw [hlength]
    decide
  obtain ⟨ws, s', hrun, hclosed, hactive⟩ :=
    h.tidy.exists_yields_full ha hindex hknown hne hfull
  have hover : pageSize < 0 + (entriesFrom 1 65).length * sizeofLogMeta := by
    rw [hlength]
    decide
  rw [hlimits] at hactive
  refine ⟨s, s', ws, _, h, contiguous_entriesFrom 1 65, ?_, hrun, hactive, hover, ?_, ?_⟩
  · rw [hlast]
    exact entriesFrom_next 1 65
  · refine ⟨(Segment.fresh pageSize pageSize 1).close, ?_, by decide⟩
    rw [hclosed]
    simp
  · intro hin
    have hmem : (Segment.fresh pageSize pageSize (s.lastIndex + 1)).extend StorageEnv.plain
        (entriesFrom 1 65) ∈ s'.closed ++ s'.active.toList := by
      rw [hactive]
      exact List.mem_append_right _ (List.mem_singleton_self _)
    exact absurd (hin.1 _ hmem).2 (Nat.not_le.mpr hover)

end Gringofts
