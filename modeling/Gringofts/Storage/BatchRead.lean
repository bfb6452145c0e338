import Gringofts.Storage.Segment
import Mathlib.Algebra.BigOperators.Group.Finset.Basic
import Mathlib.Algebra.Order.BigOperators.Group.Finset

/-!
# Reading a batch of entries

`getEntries` reads the entries from an index on, up to a number of entries and of bytes. It has two
outputs, the number of entries and the entries, and both callers use the two together: the number
says how far they have come, and the entries are sent or handed on.

When the bytes of an entry cannot be parsed, the number returned is `0`, but the entries read before
it stay in the output.

## Main definitions

* `Segment.getEntries`
* `Segment.InLimits` — a run of stored entries that a batch may have
* `Segment.Reports` — the two outputs agree with each other and with what is stored

## Main results

* `Segment.reports_iff` — they do exactly when no entry fails to parse behind one that was read
* `entries_left_behind`
-/

namespace Gringofts

open Outcome

namespace Segment

variable (env : StorageEnv) (s : Segment)

/-- The loop of `getEntries`, with room for `fuel` more entries in the batch. -/
def getEntriesLoop (startIndex maxLenInBytes : ℕ) (d : Directory) :
    ℕ → ℕ → ℕ → List LogEntry → Disk (ℕ × List LogEntry)
  | 0, batchSize, _, entries => pure (batchSize, entries)
  | fuel + 1, batchSize, lenInBytes, entries => do
    let m ← s.getMeta (startIndex + batchSize) d
    if maxLenInBytes < lenInBytes + m.length then pure (batchSize, entries)
    else
      let data ← d.openData s.dataName
      let bytes := data.read m.offset m.length
      Outcome.check (m.offset ≤ s.dataOffset) .entryOffset
      Outcome.check (env.Authentic m bytes) .digest
      match env.codec.parse bytes with
      -- the entries that have been read stay where they are
      | none => pure (0, entries)
      | some e =>
        getEntriesLoop startIndex maxLenInBytes d fuel (batchSize + 1) (lenInBytes + m.length)
          (entries ++ [e])

/-- `getEntries`: the number it returns, and the entries in the output. -/
def getEntries (startIndex maxLenInBytes maxBatchSize : ℕ) (d : Directory) :
    Disk (ℕ × List LogEntry) := do
  Outcome.check (s.isWithInBoundary startIndex) .boundary
  s.getEntriesLoop env startIndex maxLenInBytes d
    (min maxBatchSize (s.lastIndex - startIndex + 1)) 0 0 []

/-! ## What is stored -/

/-- The record of an index. -/
def storedMeta (d : Directory) (i : ℕ) : LogMeta :=
  ((d.openMeta s.metaName).value?.getD (Region.empty LogMeta sizeofLogMeta)).cell
    (i - s.firstIndex)

/-- The bytes of an index. -/
def storedBytes (d : Directory) (i : ℕ) : List UInt8 :=
  ((d.openData s.dataName).value?.getD (Region.empty UInt8 1)).read
    (s.storedMeta d i).offset (s.storedMeta d i).length

/-- The entry of an index, if its bytes can be parsed. -/
def storedEntry (d : Directory) (i : ℕ) : Option LogEntry := env.codec.parse (s.storedBytes d i)

/-- The files are there, and the records from an index on pass the checks that are made of them.
Whether the bytes can be parsed is left open. -/
def Readable (startIndex : ℕ) (d : Directory) : Prop :=
  (d.openMeta s.metaName).value?.isSome ∧ (d.openData s.dataName).value?.isSome ∧
    ∀ i, startIndex ≤ i → i ≤ s.lastIndex → (s.storedMeta d i).index = i ∧
      (s.storedMeta d i).offset ≤ s.dataOffset ∧
      env.Authentic (s.storedMeta d i) (s.storedBytes d i)

/-- The stored length of `n` entries from an index on. -/
def batchLength (startIndex : ℕ) (d : Directory) (n : ℕ) : ℕ :=
  ∑ k ∈ Finset.range n, (s.storedMeta d (startIndex + k)).length

/-- A batch may have `n` entries. -/
def InLimits (startIndex maxLenInBytes maxBatchSize : ℕ) (d : Directory) (n : ℕ) : Prop :=
  n ≤ maxBatchSize ∧ startIndex + n ≤ s.lastIndex + 1 ∧
    s.batchLength startIndex d n ≤ maxLenInBytes

/-- **A batch read reports what it returns**: the number is that of the entries in the output,
these are stored one after the other from the start, they are within the limits, and if everything
can be parsed there are no longer batches. -/
def Reports (startIndex maxLenInBytes maxBatchSize : ℕ) (d : Directory) (n : ℕ)
    (entries : List LogEntry) : Prop :=
  n = entries.length ∧
    (∀ k e, entries[k]? = some e → s.storedEntry env d (startIndex + k) = some e) ∧
    s.InLimits startIndex maxLenInBytes maxBatchSize d entries.length ∧
    ((∀ i, startIndex ≤ i → i ≤ s.lastIndex → (s.storedEntry env d i).isSome) →
      ∀ n', s.InLimits startIndex maxLenInBytes maxBatchSize d n' → n' ≤ entries.length)

/-- Within the limits, no entry fails to parse behind entries that can all be parsed. -/
def NoLateFailure (startIndex maxLenInBytes maxBatchSize : ℕ) (d : Directory) : Prop :=
  ∀ k, 0 < k → s.InLimits startIndex maxLenInBytes maxBatchSize d (k + 1) →
    (∀ j < k, (s.storedEntry env d (startIndex + j)).isSome) →
    (s.storedEntry env d (startIndex + k)).isSome

/-! ## The loop -/

variable {env s} {startIndex maxLenInBytes maxBatchSize : ℕ} {d : Directory}

theorem batchLength_succ (n : ℕ) : s.batchLength startIndex d (n + 1) =
    s.batchLength startIndex d n + (s.storedMeta d (startIndex + n)).length :=
  Finset.sum_range_succ _ n

theorem batchLength_mono {n n' : ℕ} (h : n ≤ n') :
    s.batchLength startIndex d n ≤ s.batchLength startIndex d n' :=
  Finset.sum_le_sum_of_subset (Finset.range_mono h)

theorem InLimits.mono {n n' : ℕ} (h : s.InLimits startIndex maxLenInBytes maxBatchSize d n')
    (hn : n ≤ n') : s.InLimits startIndex maxLenInBytes maxBatchSize d n := by
  obtain ⟨h1, h2, h3⟩ := h
  exact ⟨hn.trans h1, by omega, (batchLength_mono hn).trans h3⟩

/-- The record that is read, in range and with room in the file. -/
theorem getMeta_sat {i : ℕ} (hi : startIndex ≤ i) (hin : s.isWithInBoundary i) :
    (s.getMeta i d).Sat (fun _ => False) (fun m => m = s.storedMeta d i)
      fun _ => ¬ s.Readable env startIndex d := by
  rw [getMeta]
  refine sat_check_bind (absurd hin) fun _ => ?_
  refine ((d.reads_openMeta s.metaName).sat_value.mono (fun _ => id) (fun _ => id) ?_).bind ?_
  · rintro _ hnone ⟨hsome, -⟩
    rw [hnone] at hsome
    cases hsome
  · intro records hrecords
    have hcell : records.cell (i - s.firstIndex) = s.storedMeta d i := by
      rw [storedMeta, hrecords]
      rfl
    rw [hcell]
    refine sat_check_bind ?_ fun _ => sat_pure.mpr rfl
    rintro hne ⟨-, -, hread⟩
    exact hne (hread i hi hin.2.2).1

/-- How the loop ends: it has read some entries from the start on, within the limits, and has
stopped at a limit, or because the next entry cannot be parsed. -/
def Ends (env : StorageEnv) (s : Segment) (startIndex maxLenInBytes bound : ℕ) (d : Directory)
    (r : ℕ × List LogEntry) : Prop :=
  (∀ k < r.2.length, s.storedEntry env d (startIndex + k) = r.2[k]?) ∧
    r.2.length ≤ bound ∧ s.batchLength startIndex d r.2.length ≤ maxLenInBytes ∧
    ((r.1 = r.2.length ∧ (r.2.length = bound ∨
        maxLenInBytes < s.batchLength startIndex d (r.2.length + 1))) ∨
      (r.1 = 0 ∧ r.2.length < bound ∧
        s.batchLength startIndex d (r.2.length + 1) ≤ maxLenInBytes ∧
        s.storedEntry env d (startIndex + r.2.length) = none))

/-- **The loop.** It stops on an assertion only if a record does not pass its checks. -/
theorem getEntriesLoop_sat (fuel : ℕ) (entries : List LogEntry)
    (hstart : s.isWithInBoundary startIndex)
    (hrange : startIndex + (entries.length + fuel) ≤ s.lastIndex + 1)
    (hstored : ∀ k < entries.length, s.storedEntry env d (startIndex + k) = entries[k]?)
    (hlen : s.batchLength startIndex d entries.length ≤ maxLenInBytes) :
    (s.getEntriesLoop env startIndex maxLenInBytes d fuel entries.length
      (s.batchLength startIndex d entries.length) entries).Sat (fun _ => False)
        (s.Ends env startIndex maxLenInBytes (entries.length + fuel) d)
        fun _ => ¬ s.Readable env startIndex d := by
  obtain ⟨hne, hfirst, -⟩ := hstart
  induction fuel generalizing entries with
  | zero =>
    rw [getEntriesLoop]
    exact sat_pure.mpr ⟨hstored, le_rfl, hlen, Or.inl ⟨rfl, Or.inl rfl⟩⟩
  | succ fuel ih =>
    have hbound : entries.length < entries.length + (fuel + 1) := by omega
    have hin : s.isWithInBoundary (startIndex + entries.length) := ⟨hne, by omega, by omega⟩
    rw [getEntriesLoop]
    refine (getMeta_sat (Nat.le_add_right _ _) hin).bind ?_
    rintro m rfl
    rw [← batchLength_succ]
    by_cases hover : maxLenInBytes < s.batchLength startIndex d (entries.length + 1)
    · rw [if_pos hover]
      exact sat_pure.mpr ⟨hstored, hbound.le, hlen, Or.inl ⟨rfl, Or.inr hover⟩⟩
    · rw [if_neg hover]
      refine ((d.reads_openData s.dataName).sat_value.mono (fun _ => id) (fun _ => id) ?_).bind ?_
      · rintro _ hnone ⟨-, hsome, -⟩
        rw [hnone] at hsome
        cases hsome
      · intro data hdata
        have hbytes : data.read (s.storedMeta d (startIndex + entries.length)).offset
            (s.storedMeta d (startIndex + entries.length)).length =
              s.storedBytes d (startIndex + entries.length) := by
          rw [storedBytes, hdata]
          rfl
        rw [hbytes]
        refine sat_check_bind ?_ fun _ => sat_check_bind ?_ fun _ => ?_
        · rintro hno ⟨-, -, hread⟩
          exact hno (hread _ (Nat.le_add_right _ _) hin.2.2).2.1
        · rintro hno ⟨-, -, hread⟩
          exact hno (hread _ (Nat.le_add_right _ _) hin.2.2).2.2
        · cases hparse : env.codec.parse (s.storedBytes d (startIndex + entries.length)) with
          | none =>
            exact sat_pure.mpr ⟨hstored, hbound.le, hlen, Or.inr
              ⟨rfl, hbound, Nat.le_of_not_lt hover, hparse⟩⟩
          | some e =>
            have hone : (entries ++ [e]).length = entries.length + 1 := by simp
            have hnext := ih (entries ++ [e]) (by omega) ?_ (hone ▸ Nat.le_of_not_lt hover)
            · rw [hone, Nat.add_assoc, Nat.add_comm 1 fuel] at hnext
              exact hnext
            · intro k hk
              rcases Nat.lt_succ_iff_lt_or_eq.mp (hone ▸ hk) with hlt | rfl
              · rw [hstored k hlt, List.getElem?_append_left hlt]
              · rw [List.getElem?_concat_length]
                exact hparse

theorem getEntries_sat (hstart : s.isWithInBoundary startIndex) :
    (s.getEntries env startIndex maxLenInBytes maxBatchSize d).Sat (fun _ => False)
      (s.Ends env startIndex maxLenInBytes (min maxBatchSize (s.lastIndex - startIndex + 1)) d)
      fun _ => ¬ s.Readable env startIndex d := by
  have hlast := hstart.2.2
  rw [getEntries]
  refine sat_check_bind (absurd hstart) fun _ => ?_
  have hrange : startIndex + (([] : List LogEntry).length +
      min maxBatchSize (s.lastIndex - startIndex + 1)) ≤ s.lastIndex + 1 := by
    rw [List.length_nil]
    omega
  refine (getEntriesLoop_sat _ [] hstart hrange nofun (Nat.zero_le _)).imp fun r hr => ?_
  rwa [List.length_nil, Nat.zero_add] at hr

/-! ## What it reports -/

section Reports

variable {n : ℕ} {entries : List LogEntry}

theorem Ends.inLimits (hstart : s.isWithInBoundary startIndex)
    (h : s.Ends env startIndex maxLenInBytes (min maxBatchSize (s.lastIndex - startIndex + 1)) d
      (n, entries)) :
    s.InLimits startIndex maxLenInBytes maxBatchSize d entries.length := by
  obtain ⟨-, hbound, hlen, -⟩ := h
  have hlast := hstart.2.2
  have hbound : entries.length ≤ min maxBatchSize (s.lastIndex - startIndex + 1) := hbound
  exact ⟨by omega, by omega, hlen⟩

/-- Where a limit is reached, there is no longer batch. -/
theorem InLimits.le_of_limit {K n' : ℕ} (hstart : s.isWithInBoundary startIndex)
    (hstop : K = min maxBatchSize (s.lastIndex - startIndex + 1) ∨
      maxLenInBytes < s.batchLength startIndex d (K + 1))
    (h : s.InLimits startIndex maxLenInBytes maxBatchSize d n') : n' ≤ K := by
  by_contra hlt
  obtain ⟨hbatch, hlast, hlen⟩ := h.mono (Nat.lt_of_not_le hlt)
  have hrange := hstart.2.2
  rcases hstop with rfl | hover
  · omega
  · exact absurd hlen (Nat.not_le.mpr hover)

theorem reports_iff_of_ends (hstart : s.isWithInBoundary startIndex)
    (h : s.Ends env startIndex maxLenInBytes (min maxBatchSize (s.lastIndex - startIndex + 1)) d
      (n, entries)) :
    s.Reports env startIndex maxLenInBytes maxBatchSize d n entries ↔
      s.NoLateFailure env startIndex maxLenInBytes maxBatchSize d := by
  have hlimits := h.inLimits hstart
  obtain ⟨hstored, -, -, ⟨hn, hstop⟩ | ⟨hn, hbound, hlen, hnone⟩⟩ := h
  · -- a limit was reached
    refine iff_of_true ⟨hn, fun k e he => ?_, hlimits, fun _ n' hn' => hn'.le_of_limit hstart hstop⟩
      fun k _ hk _ => ?_
    · exact (hstored k (List.getElem?_eq_some_iff.mp he).1).trans he
    · have hlt : k < entries.length := hk.le_of_limit hstart hstop
      rw [hstored k hlt]
      exact Option.isSome_iff_exists.mpr ⟨_, List.getElem?_eq_getElem hlt⟩
  · -- the entry after those that were read cannot be parsed
    have hnext : s.storedEntry env d (startIndex + entries.length) = none := hnone
    have hn : n = 0 := hn
    have hlast := hstart.2.2
    have hbound : entries.length < min maxBatchSize (s.lastIndex - startIndex + 1) := hbound
    by_cases hzero : entries.length = 0
    · obtain rfl := List.length_eq_zero_iff.mp hzero
      refine iff_of_true ⟨hn, nofun, hlimits, fun hall => ?_⟩ fun k hk _ hbefore => ?_
      · have hsome := hall startIndex le_rfl hlast
        rw [show startIndex = startIndex + ([] : List LogEntry).length from rfl, hnext] at hsome
        cases hsome
      · have hsome := hbefore 0 hk
        rw [show startIndex + 0 = startIndex + ([] : List LogEntry).length from rfl, hnext] at hsome
        cases hsome
    · refine iff_of_false (fun hreports => hzero (hreports.1.symm.trans hn)) fun hlate => ?_
      have hsome := hlate entries.length (Nat.pos_of_ne_zero hzero)
        ⟨by omega, by omega, hlen⟩ fun j hj => by
          rw [hstored j hj]
          exact Option.isSome_iff_exists.mpr ⟨_, List.getElem?_eq_getElem hj⟩
      rw [hnext] at hsome
      cases hsome

end Reports

/-- **When a batch read reports what it returns.** A read that starts in range returns whenever the
records pass their checks, and what it returns is right exactly when no entry within the limits
fails to parse behind others that were read. -/
theorem reports_iff (env : StorageEnv) (s : Segment) (d : Directory) {startIndex : ℕ}
    (hstart : s.isWithInBoundary startIndex) (maxLenInBytes maxBatchSize : ℕ) :
    (s.Readable env startIndex d → ∃ r,
      (s.getEntries env startIndex maxLenInBytes maxBatchSize d).result = .ok r) ∧
    ∀ n entries,
      (s.getEntries env startIndex maxLenInBytes maxBatchSize d).result = .ok (n, entries) →
      (s.Reports env startIndex maxLenInBytes maxBatchSize d n entries ↔
        s.NoLateFailure env startIndex maxLenInBytes maxBatchSize d) := by
  have hsat : (s.getEntries env startIndex maxLenInBytes maxBatchSize d).Sat _ _ _ :=
    getEntries_sat hstart
  refine ⟨fun hread => ?_, fun n entries hres => reports_iff_of_ends hstart (hsat.of_result hres)⟩
  cases hres : (s.getEntries env startIndex maxLenInBytes maxBatchSize d).result with
  | ok r => exact ⟨r, rfl⟩
  | error e => exact (hsat.of_error hres hread).elim

end Segment

/-! ## A damaged segment -/

namespace Scenario

/-- The first entry of a segment. -/
def intact : LogEntry := ⟨1, 1, false, 0, [], 0, none⟩

/-- A directory with a segment of two entries. Of the second one a single byte is left. -/
def damaged : Directory :=
  let env := StorageEnv.plain
  (Directory.empty.set (.activeData 1)
      (.data (((Region.empty UInt8 1).grow pageSize).write 0
        (env.codec.serialize intact ++ [1])))).set
    (.activeMeta 1)
      (.records (((Region.empty LogMeta sizeofLogMeta).grow pageSize).write 0
        [env.record 0 intact, ⟨env.byteSize intact, 1, 1, 2, 0⟩]))

/-- The segment of the two entries. -/
def damagedSegment : Segment where
  isActive := true
  firstIndex := 1
  lastIndex := 2
  dataSizeLimit := pageSize
  dataOffset := StorageEnv.plain.byteSize intact + 1
  metaSizeLimit := pageSize
  metaOffset := 2 * sizeofLogMeta

end Scenario

open Scenario in
theorem reports_iff_damaged :
    (damagedSegment.getEntries .plain 1 1000 1 damaged).result = .ok (1, [intact]) ∧
      damagedSegment.Reports .plain 1 1000 1 damaged 1 [intact] := by
  have hres : (damagedSegment.getEntries .plain 1 1000 1 damaged).result = .ok (1, [intact]) :=
    Outcome.value?_eq_some.mp (by decide +kernel)
  refine ⟨hres, ((Segment.reports_iff .plain damagedSegment damaged (by decide) 1000 1).2 1 [intact]
    hres).mpr ?_⟩
  intro k hk hlimits
  have hbatch := hlimits.1
  omega

open Scenario in
/-- **Entries are left behind.** The second of two entries cannot be parsed: the number returned is
`0`, and the first entry is in the output. -/
theorem entries_left_behind :
    (damagedSegment.getEntries .plain 1 1000 10 damaged).result = .ok (0, [intact]) :=
  Outcome.value?_eq_some.mp (by decide +kernel)

end Gringofts
