import Mathlib.Data.Nat.Find
import Gringofts.Storage.SegmentSpec

/-!
# A crash inside an append or a truncation

When the process or the machine stops while records are copied or cleared, some of the records that
were to change have reached the disk and others have not. Recovery reads records as long as they are
consecutive, so it finds the old entries and the first of the new ones, or the old ones up to the
first record that was cleared.

The records behind that point stay where they are. If there is a hole before them they are found
again as soon as later entries have filled it, as the lost ones do when they are appended once more:
entries that recovery did not report come back. If the records reached the disk in their order there
is no hole, and everything goes on as if the recovered entries had been all there ever was.

## Main definitions

* `Directory.torn` — the directory when some of the records have reached the disk
* `SegmentOperation`, `SegmentRun` — what may happen to the segment afterwards
* `Segment.Orderly` — the records reached the disk in their order

## Main results

* `torn_write_recovers` — what is found, and that it stays so exactly if the records were written
  in order
* `ghost_entry_reappears` — an entry that comes back
-/

namespace Gringofts

open Directory Segment StorageEnv Region

variable {first m n lo : ℕ} {fs gs : List LogEntry} {data : DataRegion}
  {records full r : MetaRegion} {ws vs : List Directory} {d' before after : Directory}
  {s' : Segment}

/-- The directory after a write of which only some records have reached the disk. -/
def Directory.torn (before after : Directory) (name : FileName) (p : ℕ → Bool) : Directory :=
  match before name, after name with
  | some (.records r), some (.records r') => after.set name (.records (r.mix r' p))
  | _, _ => after

/-- What may happen to an active segment. -/
inductive SegmentOperation
  | appendEntries (es : List LogEntry)
  | truncateSuffix (lastIndexKept : ℕ)
  /-- The segment is opened again, with files of the given sizes at least. -/
  | recover (maxDataSize maxMetaSize : ℕ)

namespace SegmentOperation

/-- The operation of the code. -/
def run (env : StorageEnv) (s : Segment) (d : Directory) :
    SegmentOperation → Disk (Directory × Segment)
  | .appendEntries es => s.appendEntries env es d
  | .truncateSuffix k => s.truncateSuffix k d
  | .recover m n => s.listed.recoverActiveOrClosedSegment m n d

/-- What it means for the entries. -/
def apply (first : ℕ) (es : List LogEntry) : SegmentOperation → List LogEntry
  | .appendEntries fs => es ++ fs
  | .truncateSuffix k => es.take (k + 1 - first)
  | .recover _ _ => es

/-- What it means when it is interrupted: some of the new entries are there, or some of the old
ones are gone. -/
def Partial (first : ℕ) (es : List LogEntry) : SegmentOperation → List LogEntry → Prop
  | .appendEntries fs, es' => ∃ k ≤ fs.length, es' = es ++ fs.take k
  | .truncateSuffix k, es' => ∃ n, k + 1 - first ≤ n ∧ n ≤ es.length ∧ es' = es.take n
  | .recover _ _, es' => es' = es

end SegmentOperation

namespace Segment

/-- When an operation is made: a batch has the next indices and known keys and there is room for it,
a truncation keeps an entry, and files are made of whole pages. -/
def Admits (env : StorageEnv) (s : Segment) : SegmentOperation → Prop
  | .appendEntries fs => (∀ j e, fs[j]? = some e → e.index = s.lastIndex + 1 + j) ∧
      (∀ e ∈ fs, env.Knows e) ∧ ¬ s.shouldRoll env fs
  | .truncateSuffix k => s.firstIndex ≤ k
  | .recover m n => (m = 0 ∨ 0 < m ∧ m % pageSize = 0) ∧ (n = 0 ∨ 0 < n ∧ n % pageSize = 0)

/-- The records reached the disk in their order: the first ones of a batch, or the last ones of a
truncation. -/
def Orderly (s : Segment) (p : ℕ → Bool) : SegmentOperation → Prop
  | .appendEntries fs => ∀ i j, s.lastIndex + 1 - s.firstIndex ≤ i → i ≤ j →
      j < s.lastIndex + 1 - s.firstIndex + fs.length → p j = true → p i = true
  | .truncateSuffix k => ∀ i j, k + 1 - s.firstIndex ≤ i → i ≤ j →
      j < s.lastIndex + 1 - s.firstIndex → p i = true → p j = true
  | .recover _ _ => True

/-- A segment reports exactly these entries. -/
def Exact (env : StorageEnv) (d : Directory) (s : Segment) (es : List LogEntry) : Prop :=
  s.lastIndex + 1 = s.firstIndex + es.length ∧
    ∀ i e, s.firstIndex ≤ i → es[i - s.firstIndex]? = some e →
      (s.getEntry env i d).Yields [] (some e)

end Segment

/-- Operations that follow each other, and the entries they should leave. -/
inductive SegmentRun (env : StorageEnv) (d₀ : Directory) (s₀ : Segment) (es₀ : List LogEntry) :
    Directory → Segment → List LogEntry → Prop
  | refl : SegmentRun env d₀ s₀ es₀ d₀ s₀ es₀
  | step {d d' : Directory} {s s' : Segment} {es : List LogEntry} {op : SegmentOperation}
      {ws : List Directory} (h : SegmentRun env d₀ s₀ es₀ d s es) (hop : s.Admits env op)
      (hrun : (op.run env s d).Yields ws (d', s')) :
      SegmentRun env d₀ s₀ es₀ d' s' (op.apply s.firstIndex es)

variable {env : StorageEnv} {d : Directory} {s : Segment} {es : List LogEntry}

theorem Segment.Finds.exact (h : s.Finds env d es) : s.Exact env d es :=
  ⟨h.last_eq, fun _ _ hi he => yields_getEntry h hi he⟩

/-- One operation. -/
theorem Segment.Describes.operate {op : SegmentOperation} (h : s.Describes env d es)
    (hactive : s.isActive = true) (hop : s.Admits env op) :
    ∃ ws d' s', (op.run env s d).Yields ws (d', s') ∧
      s'.Describes env d' (op.apply s.firstIndex es) ∧ s'.isActive = true := by
  cases op with
  | appendEntries fs =>
    obtain ⟨hindex, hknown, hroom⟩ := hop
    obtain ⟨ws, d', hrun, hfiles, -⟩ :=
      yields_appendEntries h hactive hindex hknown hroom
    exact ⟨ws, d', _, hrun, hfiles, hactive⟩
  | truncateSuffix k =>
    have hk : s.firstIndex ≤ k := hop
    have hlast := h.last_eq
    rcases Nat.lt_or_ge k s.lastIndex with hlt | hge
    · obtain ⟨-, records, -, hmeta, -⟩ := h.files
      obtain ⟨hrun, hfiles⟩ := yields_truncateSuffix_active h hmeta hk hlt hactive
      exact ⟨_, _, _, hrun, hfiles, hactive⟩
    · refine ⟨[], d, s, ?_, ?_, hactive⟩
      · rw [SegmentOperation.run, truncateSuffix, if_pos hge]
        exact Outcome.yields_pure _
      · rwa [SegmentOperation.apply, List.take_of_length_le (by omega)]
  | recover m n =>
    obtain ⟨ws, d', hrun, hfiles, -⟩ := yields_recover h hop.1 hop.2
    exact ⟨ws, d', _, hrun, hfiles, hactive⟩

/-- **Operations on files that hold nothing else** do what they should. -/
theorem SegmentRun.describes {d₀ : Directory} {s₀ : Segment} {es₀ : List LogEntry}
    (h : SegmentRun env d₀ s₀ es₀ d s es) (h₀ : s₀.Describes env d₀ es₀)
    (hactive : s₀.isActive = true) : s.Describes env d es ∧ s.isActive = true := by
  induction h with
  | refl => exact ⟨h₀, hactive⟩
  | step _ hop hrun ih =>
    obtain ⟨ws', d'', s'', hrun', hfiles, hactive'⟩ := ih.1.operate ih.2 hop
    obtain ⟨-, heq⟩ := hrun.unique hrun'
    obtain ⟨rfl, rfl⟩ := Prod.mk.inj heq
    exact ⟨hfiles, hactive'⟩

/-! ## What is on the disk -/

/-- The first number at which a property fails, up to a bound. -/
theorem exists_first_neg (q : ℕ → Prop) (N : ℕ) :
    ∃ k ≤ N, (∀ i < k, q i) ∧ (k = N ∨ ¬ q k) := by
  classical
  have hex : ∃ k, k = N ∨ ¬ q k := ⟨N, Or.inl rfl⟩
  refine ⟨Nat.find hex, Nat.find_min' hex (Or.inl rfl), fun i hi => ?_, Nat.find_spec hex⟩
  exact not_not.mp (not_or.mp (Nat.find_min hex hi)).2

/-- A meta file of which some records are missing. -/
structure Torn (full r : MetaRegion) : Prop where
  size_le : full.size ≤ r.size
  cell : ∀ j, r.cell j = full.cell j ∨ (r.cell j).index = 0

theorem Torn.grow (h : Torn full r) (n : ℕ) : Torn (full.grow n) (r.grow n) :=
  ⟨Nat.max_le.mpr ⟨h.size_le.trans (Nat.le_max_left _ _), Nat.le_max_right _ _⟩, h.cell⟩

/-- Where a record is there, all records before it are. -/
def Unbroken (full r : MetaRegion) (n : ℕ) : Prop :=
  ∀ i j, i ≤ j → j < n → r.cell j = full.cell j → r.cell i = full.cell i

/-- Whether there is a hole depends on the records that may be missing. -/
theorem unbroken_iff {q : ℕ → Prop} (hlow : ∀ j < lo, r.cell j = full.cell j)
    (hq : ∀ j, lo ≤ j → j < n → (r.cell j = full.cell j ↔ q j)) :
    Unbroken full r n ↔ ∀ i j, lo ≤ i → i ≤ j → j < n → q j → q i := by
  constructor
  · intro h i j hi hij hj hqj
    exact (hq i hi (hij.trans_lt hj)).mp (h i j hij hj ((hq j (hi.trans hij) hj).mpr hqj))
  · intro h i j hij hj heq
    rcases Nat.lt_or_ge i lo with hlt | hge
    · exact hlow i hlt
    · exact (hq i hge (hij.trans_lt hj)).mpr
        (h i j hge hij hj ((hq j (hge.trans hij) hj).mp heq))

/-- In a torn meta file the entries before the first missing record can be found. -/
theorem Content.exists_found (h : Content env first es data records) (ht : Torn records r)
    (hlo : lo ≤ es.length) (hlow : ∀ j < lo, r.cell j = records.cell j) :
    ∃ k, lo ≤ k ∧ k ≤ es.length ∧ (∀ j < k, r.cell j = records.cell j) ∧
      Found env first (es.take k) data r ∧ (r.cell (es.take k).length).index = 0 ∧
      (Unbroken records r es.length → Content env first (es.take k) data r) := by
  obtain ⟨k, hk, hall, hend⟩ := exists_first_neg (fun j => r.cell j = records.cell j) es.length
  have hfound : Found env first (es.take k) data r :=
    h.toFound.take ht.size_le fun j hj => hall j (hj.trans_le (Nat.min_le_left _ _))
  have hbehind : ∀ j, es.length ≤ j → (r.cell j).index = 0 := by
    intro j hj
    rcases ht.cell j with heq | hzero
    · rw [heq, h.clean j hj]
    · exact hzero
  have hlen : (es.take k).length = k := by rw [List.length_take, Nat.min_eq_left hk]
  refine ⟨k, ?_, hk, hall, hfound, ?_, fun hwhole => ⟨hfound, fun j hj => ?_⟩⟩
  · rcases hend with rfl | hneg
    · exact hlo
    · exact Nat.le_of_not_lt fun hlt => hneg (hlow k hlt)
  · rw [hlen]
    rcases hend with rfl | hneg
    · exact hbehind _ le_rfl
    · exact (ht.cell k).resolve_left hneg
  · rw [hlen] at hj
    rcases Nat.lt_or_ge j es.length with hlt | hge
    · rcases hend with rfl | hneg
      · omega
      · exact (ht.cell j).resolve_left fun heq => hneg (hwhole k j hj hlt heq)
    · exact hbehind j hge

/-- Some of the new records are there. -/
theorem Content.torn_append {data' : DataRegion} {records' : MetaRegion} (hpos : 1 ≤ first)
    (h : Content env first es data records) (h' : Content env first (es ++ fs) data' records')
    (hsize : records'.size = records.size) (p : ℕ → Bool) :
    Torn records' (records.mix records' p) ∧
      (∀ j < es.length, (records.mix records' p).cell j = records'.cell j) ∧
      ∀ j, es.length ≤ j → j < es.length + fs.length →
        ((records.mix records' p).cell j = records'.cell j ↔ p j = true) := by
  -- old records have not changed
  have hold : ∀ j < es.length, records'.cell j = records.cell j := by
    intro j hj
    have hget : es[j]? = some es[j] := List.getElem?_eq_getElem hj
    rw [h.record_eq j _ hget, h'.record_eq j es[j] (by rw [List.getElem?_append_left hj, hget]),
      List.take_append_of_le_length hj.le]
  have hlow : ∀ j < es.length, (records.mix records' p).cell j = records'.cell j := by
    intro j hj
    rw [cell_mix_of_eq p (hold j hj), hold j hj]
  refine ⟨⟨hsize.le.trans (Nat.le_max_left _ _), fun j => ?_⟩, hlow, fun j hj hj' =>
    ⟨fun heq => ?_, cell_mix_of_pos⟩⟩
  · rcases Nat.lt_or_ge j es.length with hlt | hge
    · exact Or.inl (hlow j hlt)
    · by_cases hp : p j = true
      · exact Or.inl (cell_mix_of_pos hp)
      · rw [cell_mix_of_neg hp]
        exact Or.inr (h.clean j hge)
  · by_contra hp
    rw [cell_mix_of_neg hp] at heq
    have hzero := h.clean j hj
    rw [heq, h'.index_eq (by rwa [List.length_append])] at hzero
    omega

/-- Some of the old records are gone. -/
theorem Content.torn_truncate (hpos : 1 ≤ first) (h : Content env first es data records)
    (p : ℕ → Bool) :
    Torn records (records.mix (records.clear n (es.length - n)) p) ∧
      (∀ j < n, (records.mix (records.clear n (es.length - n)) p).cell j = records.cell j) ∧
      ∀ j, n ≤ j → j < es.length →
        ((records.mix (records.clear n (es.length - n)) p).cell j = records.cell j ↔
          ¬ p j = true) := by
  have hlow : ∀ j < n,
      (records.mix (records.clear n (es.length - n)) p).cell j = records.cell j :=
    fun j hj => cell_mix_of_eq p (cell_clear_of_lt hj)
  have hcleared : ∀ j, n ≤ j → p j = true →
      ((records.mix (records.clear n (es.length - n)) p).cell j).index = 0 := by
    intro j hj hp
    rw [cell_mix_of_pos hp]
    rcases Nat.lt_or_ge j es.length with hlt | hge
    · rw [cell_clear hj (by omega)]
      rfl
    · rw [cell_clear_of_le (by omega)]
      exact h.clean j hge
  refine ⟨⟨Nat.le_max_left _ _, fun j => ?_⟩, hlow, fun j hj hj' =>
    ⟨fun heq hp => ?_, cell_mix_of_neg⟩⟩
  · rcases Nat.lt_or_ge j n with hlt | hge
    · exact Or.inl (hlow j hlt)
    · by_cases hp : p j = true
      · exact Or.inr (hcleared j hge hp)
      · exact Or.inl (cell_mix_of_neg hp)
  · have hzero := hcleared j hj hp
    rw [heq, h.index_eq hj'] at hzero
    omega

/-- Recovery from files in which entries can be found. -/
theorem Segment.exists_yields_recover_found (hactive : s.isActive = true)
    (hpos : 1 ≤ s.firstIndex) (hdata : d s.dataName = some (.data data))
    (hmeta : d s.metaName = some (.records records))
    (hfound : Found env s.firstIndex es data records) (hzero : (records.cell es.length).index = 0)
    (hop : s.Admits env (.recover m n)) :
    ∃ ws d₁ s₁, ((SegmentOperation.recover m n).run env s d).Yields ws (d₁, s₁) ∧
      s₁ = s.recovered env es (max data.size m) (max records.size n) ∧
      s₁.lastIndex + 1 = s.firstIndex + es.length ∧
      d₁ s₁.dataName = some (.data (data.grow m)) ∧
      d₁ s₁.metaName = some (.records (records.grow n)) := by
  have hstop : (records.cell es.length).index ≠ s.firstIndex + es.length := by
    rw [hzero]
    omega
  obtain ⟨ws, d₁, hrun, hd, hr, -, -⟩ :=
    yields_recover_found hdata hmeta hfound hstop (Or.inl hactive) hop.1 hop.2
  obtain ⟨hdname, hmname⟩ := names_of_active
    (t := s.recovered env es (max data.size m) (max records.size n)) hactive hactive rfl
  refine ⟨ws, d₁, _, hrun, rfl, ?_, hdname.symm ▸ hd, hmname.symm ▸ hr⟩
  show s.firstIndex + es.length - 1 + 1 = _
  omega

/-- An entry in the middle, and what is before it. -/
theorem getElem?_middle {i : ℕ} {e : LogEntry} (es gs : List LogEntry) (h : fs[i]? = some e) :
    (es ++ fs ++ gs)[es.length + i]? = some e ∧
      (es ++ fs ++ gs).take (es.length + i) = es ++ fs.take i := by
  have hlt : i < fs.length := (List.getElem?_eq_some_iff.mp h).1
  rw [List.append_assoc, List.getElem?_append_right (Nat.le_add_right _ _),
    Nat.add_sub_cancel_left, List.getElem?_append_left hlt, List.take_length_add_append,
    List.take_append_of_le_length hlt.le]
  exact ⟨h, rfl⟩

/-- The entries that were lost are written once more: the hole is filled, and nothing else
changes. -/
theorem Content.refill (h : Content env first (es ++ fs ++ gs) data full) (ht : Torn full r)
    (hall : ∀ i < es.length, r.cell i = full.cell i) :
    env.writeFrom (totalSize env es) fs data = data ∧
      ∃ r', r' = r.write es.length (env.recordsFrom (totalSize env es) fs) ∧ Torn full r' ∧
        (∀ i < es.length + fs.length, r'.cell i = full.cell i) ∧
        ∀ i, es.length + fs.length ≤ i → r'.cell i = r.cell i := by
  have hcell : ∀ i < es.length + fs.length,
      (r.write es.length (env.recordsFrom (totalSize env es) fs)).cell i = full.cell i := by
    intro i hi
    rcases Nat.lt_or_ge i es.length with hlt | hge
    · rw [cell_write_of_lt hlt, hall i hlt]
    · obtain ⟨i, rfl⟩ := Nat.exists_eq_add_of_le hge
      have hnew : fs[i]? = some fs[i] := List.getElem?_eq_getElem (by omega)
      obtain ⟨hold, htake⟩ := getElem?_middle es gs hnew
      rw [h.record_eq _ _ hold, htake, totalSize_append]
      refine cell_write (getElem?_recordsFrom hnew)
        (le_trans ?_ (h.meta_fits.trans ht.size_le))
      rw [Nat.mul_comm, List.length_append, List.length_append]
      exact Nat.mul_le_mul_right _ (hi.trans_le (Nat.le_add_right _ _))
  have hrest : ∀ i, es.length + fs.length ≤ i →
      (r.write es.length (env.recordsFrom (totalSize env es) fs)).cell i = r.cell i :=
    fun i hi => cell_write_of_le (by rwa [length_recordsFrom])
  refine ⟨writeFrom_eq_self fun i e hi => ?_, _, rfl, ⟨ht.size_le, fun i => ?_⟩, hcell,
    hrest⟩
  · obtain ⟨hi, htake⟩ := getElem?_middle es gs hi
    rw [← totalSize_append, ← htake, h.read_eq _ e hi]
  · rcases Nat.lt_or_ge i (es.length + fs.length) with hlt | hge
    · exact Or.inl (hcell i hlt)
    · rw [hrest i hge]
      exact ht.cell i

/-- **What is behind a hole comes back.** The entries that were lost are appended once more, up to
a record that is still there. The next recovery finds that one too. -/
theorem Segment.Finds.exists_ghost (hfinds : s.Finds env d es) (hactive : s.isActive = true)
    (hplace : s.metaOffset = es.length * sizeofLogMeta) (hds : s.dataSizeLimit = data.size)
    (hms : s.metaSizeLimit = r.size) (hdata : d s.dataName = some (.data data))
    (hmeta : d s.metaName = some (.records r))
    (h : Content env s.firstIndex (es ++ fs ++ gs) data full) (ht : Torn full r)
    (hall : ∀ i < es.length, r.cell i = full.cell i) (hgs : 0 < gs.length)
    (heq : r.cell (es.length + fs.length) = full.cell (es.length + fs.length)) :
    ∃ d₂ s₂ es₂, SegmentRun env d s es d₂ s₂ es₂ ∧ ¬ s₂.Exact env d₂ es₂ := by
  have hlen : (es ++ fs ++ gs).length = es.length + fs.length + gs.length := by
    rw [List.length_append, List.length_append]
  have hlast := hfinds.last_eq
  have hop : s.Admits env (.appendEntries fs) := by
    refine ⟨fun i e hi => ?_, fun e he => h.known e (by simp [he]), ?_⟩
    · rw [h.indexed _ e (getElem?_middle es gs hi).1]
      omega
    · have hdfit := h.data_fits
      have hmfit : (es.length + fs.length) * sizeofLogMeta ≤ r.size :=
        (Nat.mul_le_mul_right _ (by omega)).trans (h.meta_fits.trans ht.size_le)
      rw [totalSize_append, totalSize_append, ← hfinds.dataOffset_eq] at hdfit
      rw [shouldRoll, hplace, hms, hds, ← Nat.add_mul]
      omega
  obtain ⟨hsame, r', hr', ht', hcell, hrest⟩ := h.refill ht hall
  -- the record behind is reached
  have hlow : ∀ i < es.length + fs.length + 1, r'.cell i = full.cell i := by
    intro i hi
    rcases Nat.lt_or_eq_of_le (Nat.le_of_lt_succ hi) with hlt | rfl
    · exact hcell i hlt
    · rw [hrest _ le_rfl, heq]
  obtain ⟨k, hk, hk', -, hfound, hzero, -⟩ := h.exists_found ht' (by omega) hlow
  have hrun := yields_appendEntries_any hactive hop.1 hop.2.1 hdata hmeta
  rw [hplace, Nat.mul_div_cancel _ (by decide), hfinds.dataOffset_eq, hsame, ← hr'] at hrun
  obtain ⟨hdname, hmname⟩ := names_of_active (t := s.extend env fs) hactive hactive rfl
  have hdata' : ((d.set s.dataName (.data data)).set s.metaName (.records r'))
      (s.extend env fs).dataName = some (.data data) := by
    rw [hdname, set_of_ne (dataName_ne_metaName s s), set_self]
  have hopen : (s.extend env fs).Admits env (.recover 0 0) := ⟨Or.inl rfl, Or.inl rfl⟩
  obtain ⟨ws, d₃, s₃, hrecover, rfl, hlast₃, -, -⟩ := exists_yields_recover_found
    (s := s.extend env fs) hactive hfinds.first_pos hdata' (by rw [hmname, set_self]) hfound hzero
    hopen
  refine ⟨d₃, _, _, (SegmentRun.refl.step hop hrun).step hopen hrecover, fun hexact => ?_⟩
  have hcount : s.firstIndex + ((es ++ fs ++ gs).take k).length =
      s.firstIndex + (es ++ fs).length := hlast₃.symm.trans hexact.1
  rw [List.length_take, Nat.min_eq_left hk', List.length_append] at hcount
  omega

/-- A torn write of records mixes the old and the new ones. -/
theorem Directory.torn_set {name : FileName} {r' : MetaRegion}
    (h : d name = some (.records r)) (p : ℕ → Bool) :
    d.torn (d.set name (.records r')) name p = d.set name (.records (r.mix r' p)) := by
  rw [torn, h, set_self]
  exact set_set

/-- What is on the disk after the crash: a torn meta file. What can be found is what the operation
may leave, and there is a hole unless the order was kept. -/
def Segment.Leaves (env : StorageEnv) (s : Segment) (es : List LogEntry) (p : ℕ → Bool)
    (op : SegmentOperation) (d : Directory) : Prop :=
  ∃ gs data full r lo, d s.dataName = some (.data data) ∧ d s.metaName = some (.records r) ∧
    Content env s.firstIndex gs data full ∧ Torn full r ∧ lo ≤ gs.length ∧
    (∀ j < lo, r.cell j = full.cell j) ∧
    (∀ k, lo ≤ k → k ≤ gs.length → op.Partial s.firstIndex es (gs.take k)) ∧
    (s.Orderly p op ↔ Unbroken full r gs.length)

/-- A crash while records are appended. -/
theorem Segment.leaves_appendEntries (h : s.Describes env d es) (hactive : s.isActive = true)
    (hop : s.Admits env (.appendEntries fs)) (hrun : (s.appendEntries env fs d).Yields ws (d', s'))
    (hlast : d :: ws = vs ++ [before, after]) (p : ℕ → Bool) :
    s.Leaves env es p (.appendEntries fs) (before.torn after s.metaName p) := by
  obtain ⟨data, records, hdata, hmeta, hds, hms, hcontent⟩ := h.files
  have hend := h.last_eq
  have hdm := dataName_ne_metaName s s
  obtain ⟨hindex, hknown, hroom⟩ := hop
  obtain ⟨data', records', hrun', -, hsize, hcontent'⟩ :=
    yields_appendEntries_files h hactive hindex hknown hroom hdata hmeta hds hms hcontent
  obtain ⟨rfl, -⟩ := hrun.unique hrun'
  have hlast : [d] ++ _ = vs ++ [before, after] := hlast
  obtain ⟨-, htail⟩ := List.append_inj' hlast rfl
  obtain ⟨rfl, hafter⟩ := List.cons.inj htail
  obtain rfl := (List.cons.inj hafter).1
  obtain ⟨htorn, hlow, hnew⟩ := hcontent.torn_append h.first_pos hcontent' hsize p
  have hmeta' : (d.set s.dataName (.data data')) s.metaName = some (.records records) := by
    rw [set_of_ne hdm.symm, hmeta]
  rw [torn_set hmeta']
  rw [← List.length_append] at hnew
  refine ⟨es ++ fs, data', records', _, es.length, ?_, set_self, hcontent', htorn, ?_, hlow,
    fun k hk hk' => ⟨k - es.length, ?_, ?_⟩, ?_⟩
  · rw [set_of_ne hdm, set_self]
  · rw [List.length_append]
    exact Nat.le_add_right _ _
  · rw [List.length_append] at hk'
    omega
  · rw [List.take_append, List.take_of_length_le hk]
  · rw [unbroken_iff hlow hnew, List.length_append, Orderly,
      show s.lastIndex + 1 - s.firstIndex = es.length by omega]

/-- A crash while records are cleared. -/
theorem Segment.leaves_truncateSuffix {k : ℕ} (h : s.Describes env d es)
    (hactive : s.isActive = true) (hk : s.firstIndex ≤ k)
    (hrun : (s.truncateSuffix k d).Yields ws (d', s')) (hlast : d :: ws = vs ++ [before, after])
    (p : ℕ → Bool) : s.Leaves env es p (.truncateSuffix k) (before.torn after s.metaName p) := by
  obtain ⟨data, records, hdata, hmeta, -, -, hcontent⟩ := h.files
  have hend := h.last_eq
  rcases Nat.lt_or_ge k s.lastIndex with hlt | hge
  · obtain ⟨hrun', -⟩ := yields_truncateSuffix_active h hmeta hk hlt hactive
    obtain ⟨rfl, -⟩ := hrun.unique hrun'
    have hlast : [] ++ _ = vs ++ [before, after] := hlast
    obtain ⟨-, htail⟩ := List.append_inj' hlast rfl
    obtain ⟨rfl, hafter⟩ := List.cons.inj htail
    obtain rfl := (List.cons.inj hafter).1
    obtain ⟨htorn, hlow, hgone⟩ :=
      hcontent.torn_truncate (n := k + 1 - s.firstIndex) h.first_pos p
    have hcleared : cleared k s records =
        records.clear (k + 1 - s.firstIndex) (es.length - (k + 1 - s.firstIndex)) := by
      rw [cleared]
      congr 1
      omega
    rw [torn_set hmeta, hcleared]
    refine ⟨es, data, records, _, k + 1 - s.firstIndex, ?_, set_self, hcontent, htorn, by omega,
      hlow, fun j hj hj' => ⟨j, hj, hj', rfl⟩, ?_⟩
    · rw [set_of_ne (dataName_ne_metaName s s), hdata]
    · simp only [unbroken_iff hlow hgone, not_imp_not, Orderly,
        show s.lastIndex + 1 - s.firstIndex = es.length by omega]
  · -- nothing is written
    have hnone : (s.truncateSuffix k d).Yields [] (d, s) := by
      rw [truncateSuffix, if_pos hge]
      exact Outcome.yields_pure _
    obtain ⟨rfl, -⟩ := hrun.unique hnone
    have hlength := congrArg List.length hlast
    simp at hlength

/-- **A crash inside an append or a truncation.** Whatever records have reached the disk, recovery
finds the old entries with some of the new ones, or without some that were to go. What happens
afterwards is what should happen to these entries, if and only if the records reached the disk in
their order. -/
theorem torn_write_recovers {op : SegmentOperation} {ws vs : List Directory}
    {d' before after : Directory} {s' : Segment} {m n : ℕ} (h : s.Describes env d es)
    (hactive : s.isActive = true) (hop : s.Admits env op) (hwrite : ∀ m n, op ≠ .recover m n)
    (hrun : (op.run env s d).Yields ws (d', s')) (hlast : d :: ws = vs ++ [before, after])
    (p : ℕ → Bool) (hrecover : s.Admits env (.recover m n)) :
    ∃ es' ws' d₁ s₁, op.Partial s.firstIndex es es' ∧
      ((SegmentOperation.recover m n).run env s (before.torn after s.metaName p)).Yields ws'
        (d₁, s₁) ∧
      s₁.Exact env d₁ es' ∧
      (s.Orderly p op ↔ ∀ d₂ s₂ es₂, SegmentRun env d₁ s₁ es' d₂ s₂ es₂ →
        s₂.Exact env d₂ es₂ ∧ ∀ op', s₂.Admits env op' →
          ∃ ws d₃ s₃, (op'.run env s₂ d₂).Yields ws (d₃, s₃)) := by
  have hleaves : s.Leaves env es p op (before.torn after s.metaName p) := by
    cases op with
    | appendEntries fs => exact leaves_appendEntries h hactive hop hrun hlast p
    | truncateSuffix k => exact leaves_truncateSuffix h hactive hop hrun hlast p
    | recover m' n' => exact absurd rfl (hwrite m' n')
  obtain ⟨gs, data, full, r, lo, hdata, hr, hcontent, htorn, hlo, hlow, hpartial, horder⟩ := hleaves
  obtain ⟨k, hk, hk', hall, hfound, hzero, hwhole⟩ := hcontent.exists_found htorn hlo hlow
  obtain ⟨ws', d₁, s₁, hrun₁, rfl, hlast₁, hdata₁, hr₁⟩ :=
    exists_yields_recover_found hactive h.first_pos hdata hr hfound hzero hrecover
  have hfinds : (s.recovered env (gs.take k) (max data.size m) (max r.size n)).Finds env d₁
      (gs.take k) := ⟨h.first_pos, hlast₁, rfl, _, _, hdata₁, hr₁, hfound.grow m n⟩
  refine ⟨_, ws', d₁, _, hpartial k hk hk', hrun₁, hfinds.exact, horder.trans ⟨?_, ?_⟩⟩
  · intro hunbroken d₂ s₂ es₂ hrun₂
    obtain ⟨hfiles, hactive₂⟩ := hrun₂.describes ⟨h.first_pos, hlast₁, rfl, rfl, _, _, hdata₁, hr₁,
      rfl, rfl, (hwhole hunbroken).grow m n⟩ hactive
    refine ⟨hfiles.finds.exact, fun op' hop' => ?_⟩
    obtain ⟨ws, d₃, s₃, hrun₃, -⟩ := hfiles.operate hactive₂ hop'
    exact ⟨ws, d₃, s₃, hrun₃⟩
  · intro hlater i j hij hj heq
    by_contra hhole
    -- recovery stopped at the hole or before, and `j` is behind it
    have hkj : k ≤ j := (Nat.le_of_not_lt fun hlt => hhole (hall i hlt)).trans hij
    obtain ⟨fs, hfs⟩ : gs.take k <+: gs.take j := List.take_prefix_take_left hkj
    have hsplit : Content env s.firstIndex (gs.take k ++ fs ++ gs.drop j) (data.grow m)
        (full.grow n) := by
      rw [hfs, List.take_append_drop]
      exact hcontent.grow m n
    have hplace : (gs.take k).length + fs.length = j := by
      rw [← List.length_append, hfs, List.length_take, Nat.min_eq_left hj.le]
    obtain ⟨d₂, s₂, es₂, hrun₂, hnot⟩ := hfinds.exists_ghost hactive rfl rfl rfl hdata₁ hr₁ hsplit
      (htorn.grow n) (fun i hi => hall i (hi.trans_le (List.length_take_le _ _)))
      (by rw [List.length_drop]; omega) (by rw [hplace]; exact heq)
    exact hnot (hlater d₂ s₂ es₂ hrun₂).1

/-- Three entries are appended to a new segment, and the records of the first two reach the disk. -/
theorem torn_write_recovers_two :
    ∃ (d d₁ d₂ d₃ : Directory) (s s' s₃ : Segment) (ws : List Directory),
    (createActiveSegment SegmentLimits.onePage 1 Directory.empty).value? = some (d, s) ∧
    (s.appendEntries plain [⟨1, 1, true, 0, [], 0, none⟩, ⟨1, 2, true, 0, [], 0, none⟩,
      ⟨1, 3, true, 0, [], 0, none⟩] d).Yields [d₁, d₂] (d₂, s') ∧
    ((SegmentOperation.recover 0 0).run plain s
      (d₁.torn d₂ s.metaName fun j => decide (j < 2))).Yields ws (d₃, s₃) ∧
    ∃ es, s₃.Exact plain d₃ es ∧
      ∀ d₄ s₄ es', SegmentRun plain d₃ s₃ es d₄ s₄ es' →
        s₄.Exact plain d₄ es' := by
  let op : SegmentOperation := .appendEntries [⟨1, 1, true, 0, [], 0, none⟩,
    ⟨1, 2, true, 0, [], 0, none⟩, ⟨1, 3, true, 0, [], 0, none⟩]
  let d := created pageSize pageSize 1 Directory.empty
  let s := fresh pageSize pageSize 1
  have hfiles : s.Describes plain d [] := describes_fresh_created 1 le_rfl _
  obtain ⟨d₁, d₂, s', hrun⟩ : ∃ d₁ d₂ s',
      (op.run plain s d).Yields [d₁, d₂] (d₂, s') := ⟨_, _, _, rfl⟩
  have hop : s.Admits plain op := by
    refine ⟨fun j e he => ?_, by decide, by decide⟩
    match j, he with
    | 0, he => rw [← Option.some.inj he]; rfl
    | 1, he => rw [← Option.some.inj he]; rfl
    | 2, he => rw [← Option.some.inj he]; rfl
  have horder : s.Orderly (fun j => decide (j < 2)) op := by
    intro i j _ hij _ hj
    exact decide_eq_true (hij.trans_lt (of_decide_eq_true hj))
  obtain ⟨es, ws, d₃, s₃, -, hrecover, hexact, hlater⟩ := torn_write_recovers (m := 0) (n := 0)
    hfiles rfl hop (by simp [op]) hrun (show d :: [d₁, d₂] = [d] ++ [d₁, d₂] from rfl)
    (fun j => decide (j < 2)) ⟨Or.inl rfl, Or.inl rfl⟩
  have hcreate :=
    (yields_createActiveSegment SegmentLimits.onePage 1 Directory.empty).result
  exact ⟨d, d₁, d₂, d₃, s, s', s₃, ws, Outcome.value?_eq_some.mpr hcreate, hrun, hrecover, es,
    hexact, fun d₄ s₄ es' hrun' => (hlater.mp horder d₄ s₄ es' hrun').1⟩

/-- **An entry comes back.** Three entries are appended to a new segment, and the records of the
first and the third reach the disk. Recovery finds the first entry. Another second entry is
appended. The next recovery finds the third entry again. -/
theorem ghost_entry_reappears :
    ∃ (d d₁ d₂ d₃ d₄ d₅ : Directory) (s s₂ s₃ s₄ s₅ : Segment) (ws₃ ws₄ ws₅ : List Directory),
      (createActiveSegment SegmentLimits.onePage 1 Directory.empty).value? = some (d, s) ∧
      (s.appendEntries plain [⟨1, 1, true, 0, [], 0, none⟩,
        ⟨1, 2, true, 0, [1], 0, none⟩, ⟨1, 3, true, 0, [], 0, none⟩] d).Yields [d₁, d₂] (d₂, s₂) ∧
      ((SegmentOperation.recover 0 0).run plain s
        (d₁.torn d₂ s.metaName fun j => decide (j ≠ 1))).Yields ws₃ (d₃, s₃) ∧
      s₃.lastIndex = 1 ∧
      (s₃.appendEntries plain [⟨1, 2, true, 0, [2], 0, none⟩] d₃).Yields ws₄ (d₄, s₄) ∧
      s₄.lastIndex = 2 ∧
      ((SegmentOperation.recover 0 0).run plain s₄ d₄).Yields ws₅ (d₅, s₅) ∧
      s₅.lastIndex = 3 ∧
      (s₅.getEntry plain 3 d₅).Yields [] (some ⟨1, 3, true, 0, [], 0, none⟩) :=
  ⟨_, _, _, _, _, _, _, _, _, _, _, _, _, _, rfl, rfl, rfl, rfl, rfl, rfl, rfl, rfl, rfl⟩

end Gringofts
