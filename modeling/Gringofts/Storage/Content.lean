import Gringofts.Storage.Segment

/-!
# The content of a segment

The two files of a segment hold a list of entries: each entry has its record at its position, the
record points at the bytes of the entry, and behind the last record there is none. The last part is
what recovery rests on, since it stops at the first record that does not continue the indices.

## Main definitions

* `Content` — two files hold a list of entries

## Main results

* `Content.append`, `Content.truncate`, `Content.grow` — what the operations leave
* `Content.scan_eq` — what recovery finds
-/

namespace Gringofts

open Outcome Region

variable {env : StorageEnv} {n offset j : ℕ} {es : List LogEntry} {e : LogEntry}

namespace Segment

@[simp] theorem totalSize_nil : totalSize env [] = 0 := rfl

@[simp] theorem totalSize_cons (e : LogEntry) (es : List LogEntry) :
    totalSize env (e :: es) = env.byteSize e + totalSize env es := rfl

@[simp] theorem totalSize_append (es fs : List LogEntry) :
    totalSize env (es ++ fs) = totalSize env es + totalSize env fs := by
  simp [totalSize]

theorem totalSize_take_le (es : List LogEntry) (n : ℕ) :
    totalSize env (es.take n) ≤ totalSize env es := by
  conv_rhs => rw [← List.take_append_drop n es, totalSize_append]
  exact Nat.le_add_right _ _

end Segment

open Segment

/-- Entries can be found in a data file and a meta file. The first of them has the index `first`.
There may be more records behind. -/
structure Found (env : StorageEnv) (first : ℕ) (es : List LogEntry) (data : DataRegion)
    (records : MetaRegion) : Prop where
  /-- Entries are numbered consecutively. -/
  indexed : ∀ j e, es[j]? = some e → e.index = first + j
  /-- Entries are authenticated with a known key. -/
  known : ∀ e ∈ es, env.Knows e
  /-- Each entry has its record. -/
  record_eq : ∀ j e, es[j]? = some e → records.cell j = env.record (totalSize env (es.take j)) e
  /-- A record points at the bytes of its entry. -/
  read_eq : ∀ j e, es[j]? = some e →
    data.read (totalSize env (es.take j)) (env.byteSize e) = env.codec.serialize e
  data_fits : totalSize env es ≤ data.size
  meta_fits : es.length * sizeofLogMeta ≤ records.size

/-- A data file and a meta file hold the entries `es` and nothing else. -/
structure Content (env : StorageEnv) (first : ℕ) (es : List LogEntry) (data : DataRegion)
    (records : MetaRegion) : Prop extends Found env first es data records where
  /-- Behind the last record there is none. -/
  clean : ∀ j, es.length ≤ j → (records.cell j).index = 0

namespace Found

variable {first : ℕ} {es : List LogEntry} {data : DataRegion} {records : MetaRegion}
  (h : Found env first es data records)
include h

/-- Files that grow keep their content. -/
theorem grow (m n : ℕ) : Found env first es (data.grow m) (records.grow n) where
  indexed := h.indexed
  known := h.known
  record_eq := h.record_eq
  read_eq := h.read_eq
  data_fits := h.data_fits.trans (Nat.le_max_left _ _)
  meta_fits := h.meta_fits.trans (Nat.le_max_left _ _)

/-- The first of the entries, in a meta file that has their records. -/
theorem take {records' : MetaRegion} (hsize : records.size ≤ records'.size)
    (hcell : ∀ j < min n es.length, records'.cell j = records.cell j) :
    Found env first (es.take n) data records' := by
  have hlookup : ∀ {j : ℕ} {e : LogEntry}, (es.take n)[j]? = some e →
      j < n ∧ es[j]? = some e ∧ records'.cell j = records.cell j := by
    intro j e hj
    rw [List.getElem?_take] at hj
    split at hj
    · next hlt =>
      have hlen := (List.getElem?_eq_some_iff.mp hj).1
      exact ⟨hlt, hj, hcell j (Nat.lt_min.mpr ⟨hlt, hlen⟩)⟩
    · cases hj
  refine ⟨?_, ?_, ?_, ?_, ?_, ?_⟩
  · intro j e hj
    exact h.indexed j e (hlookup hj).2.1
  · intro e he
    exact h.known e (List.mem_of_mem_take he)
  · intro j e hj
    obtain ⟨hlt, hj, hc⟩ := hlookup hj
    rw [hc, List.take_take, Nat.min_eq_left hlt.le]
    exact h.record_eq j e hj
  · intro j e hj
    obtain ⟨hlt, hj, -⟩ := hlookup hj
    rw [List.take_take, Nat.min_eq_left hlt.le]
    exact h.read_eq j e hj
  · exact (totalSize_take_le es n).trans h.data_fits
  · refine le_trans (Nat.mul_le_mul_right _ ?_) (h.meta_fits.trans hsize)
    rw [List.length_take]
    exact Nat.min_le_right _ _

theorem index_eq (hj : j < es.length) : (records.cell j).index = first + j := by
  have hget : es[j]? = some es[j] := List.getElem?_eq_getElem hj
  rw [h.record_eq j _ hget]
  exact h.indexed j _ hget

/-- **Recovery** finds the entries, if the next record is not one that continues them. -/
theorem scan_eq (hstop : (records.cell es.length).index ≠ first + es.length) :
    scan records first (records.size / sizeofLogMeta) 0 = es.length := by
  -- the loop runs to the last record, and there is room for so many
  have hloop : ∀ fuel pos, pos ≤ es.length → es.length ≤ pos + fuel →
      scan records first fuel pos = es.length := by
    intro fuel
    induction fuel with
    | zero =>
      intro pos hpos hfuel
      exact Nat.le_antisymm hpos hfuel
    | succ fuel ih =>
      intro pos hpos hfuel
      rw [scan]
      rcases Nat.lt_or_eq_of_le hpos with hlt | rfl
      · rw [if_pos (h.index_eq hlt)]
        exact ih (pos + 1) hlt (by omega)
      · rw [if_neg hstop]
  refine hloop _ 0 (Nat.zero_le _) ?_
  rw [Nat.zero_add]
  exact (Nat.le_div_iff_mul_le (by decide)).mpr h.meta_fits

/-- The offset that recovery takes from the last record is the end of the data. -/
theorem last_record (hne : es ≠ []) :
    (records.cell (es.length - 1)).offset + (records.cell (es.length - 1)).length =
      totalSize env es := by
  obtain ⟨init, e, rfl⟩ := List.eq_nil_or_concat es |>.resolve_left hne
  have hlast : (init.concat e)[init.length]? = some e := by simp
  have hrecord := h.record_eq _ _ hlast
  simp only [List.concat_eq_append, List.length_append, List.length_singleton,
    Nat.add_sub_cancel] at hrecord ⊢
  rw [hrecord]
  simp [StorageEnv.record]

end Found

namespace Content

variable {first : ℕ} {es : List LogEntry} {data : DataRegion} {records : MetaRegion}

/-- A new segment has no entries. -/
theorem nil (h : ∀ j, (records.cell j).index = 0) : Content env first [] data records where
  indexed := by simp
  known := by simp
  record_eq := by simp
  read_eq := by simp
  data_fits := by simp
  meta_fits := by simp
  clean := fun j _ => h j

variable (h : Content env first es data records)
include h

/-- Files that grow hold nothing else either. -/
theorem grow (m n : ℕ) : Content env first es (data.grow m) (records.grow n) :=
  ⟨h.toFound.grow m n, h.clean⟩

/-- **Truncation** leaves the first entries. -/
theorem truncate (hn : n ≤ es.length) :
    Content env first (es.take n) data (records.clear n (es.length - n)) := by
  refine ⟨h.toFound.take le_rfl fun j hj => ?_, ?_⟩
  · exact cell_clear_of_lt (hj.trans_le (Nat.min_le_left _ _))
  · intro j hj
    rw [List.length_take, Nat.min_eq_left hn] at hj
    by_cases hlt : j < es.length
    · rw [cell_clear hj (by omega)]
      rfl
    · rw [cell_clear_of_le (by omega)]
      exact h.clean j (Nat.not_lt.mp hlt)

/-- The record before the end of a truncation. -/
theorem record_take (hpos : 0 < n) (hn : n ≤ es.length) :
    (records.cell (n - 1)).index = first + (n - 1) ∧
      (records.cell (n - 1)).offset + (records.cell (n - 1)).length =
        totalSize env (es.take n) := by
  have htake := (h.truncate hn).toFound.last_record (List.ne_nil_of_length_pos (by
    rw [List.length_take]
    omega))
  rw [List.length_take, Nat.min_eq_left hn, cell_clear_of_lt (by omega)] at htake
  exact ⟨h.index_eq (by omega), htake⟩

end Content

/-! ## Appending -/

/-- The records of entries that are written one after the other. -/
def StorageEnv.recordsFrom (env : StorageEnv) : ℕ → List LogEntry → List LogMeta
  | _, [] => []
  | offset, e :: es => env.record offset e :: env.recordsFrom (offset + env.byteSize e) es

/-- A data file after entries have been written one after the other. -/
def StorageEnv.writeFrom (env : StorageEnv) : ℕ → List LogEntry → DataRegion → DataRegion
  | _, [], data => data
  | offset, e :: es, data =>
    env.writeFrom (offset + env.byteSize e) es (data.write offset (env.codec.serialize e))

namespace StorageEnv

@[simp] theorem length_recordsFrom (offset : ℕ) (es : List LogEntry) :
    (env.recordsFrom offset es).length = es.length := by
  induction es generalizing offset with
  | nil => rfl
  | cons e es ih => simp [recordsFrom, ih]

theorem getElem?_recordsFrom (h : es[j]? = some e) :
    (env.recordsFrom offset es)[j]? = some (env.record (offset + totalSize env (es.take j)) e) := by
  induction es generalizing offset j with
  | nil => simp at h
  | cons f es ih =>
    cases j with
    | zero =>
      obtain rfl : f = e := by simpa using h
      simp [recordsFrom]
    | succ j =>
      have h : es[j]? = some e := by simpa using h
      simp only [recordsFrom, List.getElem?_cons_succ, List.take_succ_cons, totalSize_cons]
      rw [ih h, Nat.add_assoc]

@[simp] theorem writeFrom_size (offset : ℕ) (es : List LogEntry) (data : DataRegion) :
    (env.writeFrom offset es data).size = data.size := by
  induction es generalizing offset data with
  | nil => rfl
  | cons e es ih => rw [writeFrom, ih, write_size]

/-- Nothing changes if the entries are there already. -/
theorem writeFrom_eq_self {data : DataRegion} (h : ∀ j e, es[j]? = some e →
    data.read (offset + totalSize env (es.take j)) (env.byteSize e) = env.codec.serialize e) :
    env.writeFrom offset es data = data := by
  induction es generalizing offset with
  | nil => rfl
  | cons e es ih =>
    rw [writeFrom, ← h 0 e rfl, List.take_zero, totalSize_nil, Nat.add_zero, write_read]
    refine ih fun j f hj => ?_
    rw [Nat.add_assoc, ← totalSize_cons, ← List.take_succ_cons]
    exact h (j + 1) f hj

/-- What lies below the offset is not touched. -/
theorem read_writeFrom_of_le {off len : ℕ} (es : List LogEntry) (data : DataRegion)
    (h : off + len ≤ offset) : (env.writeFrom offset es data).read off len = data.read off len := by
  induction es generalizing offset data with
  | nil => rfl
  | cons e es ih =>
    rw [writeFrom, ih _ (h.trans (Nat.le_add_right _ _)), read_write_of_le h]

/-- Each entry is found where its record says. -/
theorem read_writeFrom (data : DataRegion) (hj : es[j]? = some e)
    (hfit : offset + totalSize env es ≤ data.size) :
    (env.writeFrom offset es data).read (offset + totalSize env (es.take j)) (env.byteSize e) =
      env.codec.serialize e := by
  induction es generalizing offset j data with
  | nil => simp at hj
  | cons f es ih =>
    rw [totalSize_cons] at hfit
    cases j with
    | zero =>
      obtain rfl : f = e := by simpa using hj
      rw [writeFrom, List.take_zero, totalSize_nil, Nat.add_zero, read_writeFrom_of_le _ _ le_rfl]
      refine read_write ?_
      rw [Nat.one_mul]
      exact (Nat.add_le_add_left (Nat.le_add_right _ _) _).trans hfit
    | succ j =>
      have hj : es[j]? = some e := by simpa using hj
      rw [writeFrom, List.take_succ_cons, totalSize_cons, ← Nat.add_assoc]
      exact ih _ hj (by rw [write_size]; omega)

end StorageEnv

namespace Segment

/-- The loop of `appendEntries`, for entries with the right indices and known keys. -/
theorem yields_writeEntries {next : ℕ} (offset : ℕ) (data : DataRegion)
    (hindex : ∀ j e, es[j]? = some e → e.index = next + j) (hknown : ∀ e ∈ es, env.Knows e) :
    (writeEntries env next offset data es).Yields []
      (env.writeFrom offset es data, env.recordsFrom offset es) := by
  induction es generalizing next offset data with
  | nil => exact yields_pure _
  | cons e es ih =>
    refine (yields_check ?_).bind_nil ((yields_check ?_).bind_nil
      ((ih _ _ ?_ ?_).bind_nil (yields_pure _)))
    · exact (hindex 0 e rfl).symm
    · exact hknown e List.mem_cons_self
    · intro j f hj
      rw [hindex (j + 1) f (by simpa using hj)]
      omega
    · exact fun f hf => hknown f (List.mem_cons_of_mem _ hf)

end Segment

/-- **Appending** adds the entries. -/
theorem Content.append {first : ℕ} {fs : List LogEntry} {data : DataRegion} {records : MetaRegion}
    (h : Content env first es data records)
    (hindex : ∀ j e, fs[j]? = some e → e.index = first + es.length + j)
    (hknown : ∀ e ∈ fs, env.Knows e) (hdata : totalSize env es + totalSize env fs ≤ data.size)
    (hmeta : (es.length + fs.length) * sizeofLogMeta ≤ records.size) :
    Content env first (es ++ fs) (env.writeFrom (totalSize env es) fs data)
      (records.write es.length (env.recordsFrom (totalSize env es) fs)) := by
  -- an entry is an old one or a new one
  have hcases : ∀ {j : ℕ} {e : LogEntry}, (es ++ fs)[j]? = some e →
      (j < es.length ∧ es[j]? = some e) ∨ ∃ i, j = es.length + i ∧ fs[i]? = some e := by
    intro j e hj
    by_cases hlt : j < es.length
    · rw [List.getElem?_append_left hlt] at hj
      exact Or.inl ⟨hlt, hj⟩
    · rw [List.getElem?_append_right (Nat.not_lt.mp hlt)] at hj
      exact Or.inr ⟨_, (Nat.add_sub_cancel' (Nat.not_lt.mp hlt)).symm, hj⟩
  refine ⟨⟨?_, ?_, ?_, ?_, ?_, ?_⟩, ?_⟩
  · intro j e hj
    rcases hcases hj with ⟨-, hj⟩ | ⟨i, rfl, hi⟩
    · exact h.indexed j e hj
    · rw [hindex i e hi, Nat.add_assoc]
  · intro e he
    rcases List.mem_append.mp he with he | he
    · exact h.known e he
    · exact hknown e he
  · intro j e hj
    rcases hcases hj with ⟨hlt, hj⟩ | ⟨i, rfl, hi⟩
    · rw [cell_write_of_lt hlt, List.take_append_of_le_length hlt.le]
      exact h.record_eq j e hj
    · have hlt : i < fs.length := (List.getElem?_eq_some_iff.mp hi).1
      rw [cell_write (StorageEnv.getElem?_recordsFrom hi), List.take_append,
        List.take_of_length_le (Nat.le_add_right _ _), Nat.add_sub_cancel_left, totalSize_append]
      exact le_trans (by rw [Nat.mul_comm]; exact Nat.mul_le_mul_right _ (by omega)) hmeta
  · intro j e hj
    rcases hcases hj with ⟨hlt, hj⟩ | ⟨i, rfl, hi⟩
    · rw [List.take_append_of_le_length hlt.le, StorageEnv.read_writeFrom_of_le]
      · exact h.read_eq j e hj
      · have hsucc : es.take (j + 1) = es.take j ++ [e] := by
          rw [List.take_add_one, hj]
          rfl
        have hle : totalSize env (es.take (j + 1)) ≤ totalSize env es := totalSize_take_le es _
        rw [hsucc, totalSize_append, totalSize_cons, totalSize_nil, Nat.add_zero] at hle
        exact hle
    · rw [List.take_append, List.take_of_length_le (Nat.le_add_right _ _),
        Nat.add_sub_cancel_left, totalSize_append]
      exact StorageEnv.read_writeFrom data hi hdata
  · rwa [totalSize_append, StorageEnv.writeFrom_size]
  · rwa [List.length_append, write_size]
  · intro j hj
    rw [List.length_append] at hj
    rw [cell_write_of_le (by rw [StorageEnv.length_recordsFrom]; exact hj)]
    exact h.clean j (by omega)

end Gringofts
