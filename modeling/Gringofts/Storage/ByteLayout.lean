import Gringofts.Storage.SegmentLife
import Mathlib.Order.Monotone.Basic

/-!
# Where the bytes of a segment lie

The records of a segment say where the bytes of its entries lie. Truncating and appending again
writes over bytes and records that were used before, by entries of other lengths, and a new object
takes everything it knows from the records. Still the records are always those of the entries that
are there, and the entries lie in the data file one after the other, without a gap.

## Main definitions

* `Segment.ByteLayout` — consecutive records, whose ranges tile the data up to its end
* `SegmentLife.Continues` — the next call returns

## Main results

* `segment_byte_layout` — the layout is exact in every run
-/

namespace Gringofts

/-! ## Tiling -/

/-- The steps of a monotone function tile the numbers below its value: each lies in one of them. -/
theorem existsUnique_step {f : ℕ → ℕ} (hf : Monotone f) {p : ℕ} (h0 : f 0 ≤ p) {n : ℕ}
    (hp : p < f n) : ∃! j, j < n ∧ f j ≤ p ∧ p < f (j + 1) := by
  have hexists : ∃ j, j < n ∧ f j ≤ p ∧ p < f (j + 1) := by
    induction n with
    | zero => omega
    | succ n ih =>
      by_cases hn : p < f n
      · obtain ⟨j, hj, hstep⟩ := ih hn
        exact ⟨j, by omega, hstep⟩
      · exact ⟨n, by omega, Nat.not_lt.mp hn, hp⟩
  obtain ⟨j, hj, hle, hlt⟩ := hexists
  refine ⟨j, ⟨hj, hle, hlt⟩, ?_⟩
  rintro i ⟨-, hle', hlt'⟩
  rcases Nat.lt_trichotomy i j with hij | hij | hij
  · have := hf (show i + 1 ≤ j from hij)
    omega
  · exact hij
  · have := hf (show j + 1 ≤ i from hij)
    omega

namespace Segment

variable {env : StorageEnv}

theorem monotone_totalSize_take (es : List LogEntry) :
    Monotone fun j => totalSize env (es.take j) := by
  intro i j hij
  have hle : totalSize env ((es.take j).take i) ≤ totalSize env (es.take j) :=
    totalSize_take_le _ i
  rwa [List.take_take, Nat.min_eq_left hij] at hle

/-- **The layout of a segment**: the records carry consecutive indices, their ranges tile the data
up to its end, and behind them there is no record. -/
structure ByteLayout (s : Segment) (records : MetaRegion) : Prop where
  index_eq : ∀ i, s.firstIndex ≤ i → i ≤ s.lastIndex →
    (records.cell (i - s.firstIndex)).index = i
  end_le : ∀ i, s.firstIndex ≤ i → i ≤ s.lastIndex →
    (records.cell (i - s.firstIndex)).offset + (records.cell (i - s.firstIndex)).length ≤
      s.dataOffset
  tiles : ∀ p < s.dataOffset, ∃! i, (s.firstIndex ≤ i ∧ i ≤ s.lastIndex) ∧
    (records.cell (i - s.firstIndex)).offset ≤ p ∧
    p < (records.cell (i - s.firstIndex)).offset + (records.cell (i - s.firstIndex)).length
  metaOffset_eq : s.metaOffset = (s.lastIndex + 1 - s.firstIndex) * sizeofLogMeta
  clean : ∀ j, s.lastIndex + 1 - s.firstIndex ≤ j → (records.cell j).index = 0


variable {s : Segment} {d : Directory} {es : List LogEntry} {data : DataRegion}
  {records : MetaRegion}

/-- The range of the record at a position. -/
theorem range_record (h : Content env s.firstIndex es data records) {j : ℕ} (hj : j < es.length) :
    (records.cell j).index = s.firstIndex + j ∧
      (records.cell j).offset = totalSize env (es.take j) ∧
      (records.cell j).offset + (records.cell j).length = totalSize env (es.take (j + 1)) := by
  have hget : es[j]? = some es[j] := List.getElem?_eq_getElem hj
  rw [h.record_eq j _ hget, List.take_add_one, hget, Option.toList_some, totalSize_append]
  exact ⟨h.indexed j _ hget, rfl, rfl⟩

/-- **An object that describes its files** knows their layout. -/
theorem Describes.byteLayout (h : s.Describes env d es)
    (hcontent : Content env s.firstIndex es data records) : s.ByteLayout records := by
  have hlast := h.last_eq
  have hlen : s.lastIndex + 1 - s.firstIndex = es.length := by omega
  have hend := h.dataOffset_eq
  refine ⟨fun i hi hi' => ?_, fun i hi hi' => ?_, fun p hp => ?_, ?_, fun j hj => ?_⟩
  · have hrange := (range_record hcontent (j := i - s.firstIndex) (by omega)).1
    omega
  · rw [(range_record hcontent (j := i - s.firstIndex) (by omega)).2.2, hend]
    exact totalSize_take_le es _
  · rw [hend] at hp
    have hall : totalSize env (es.take es.length) = totalSize env es := by rw [List.take_length]
    obtain ⟨j, ⟨hj, hle, hlt⟩, hunique⟩ := existsUnique_step (n := es.length)
      (monotone_totalSize_take es) (Nat.zero_le p) (hall ▸ hp)
    obtain ⟨-, hoffset, hfinish⟩ := range_record hcontent hj
    refine ⟨s.firstIndex + j, ⟨⟨by omega, by omega⟩, ?_⟩, ?_⟩
    · rw [Nat.add_sub_cancel_left, hfinish, hoffset]
      exact ⟨hle, hlt⟩
    · rintro i ⟨⟨hi, hi'⟩, hle', hlt'⟩
      obtain ⟨-, hoffset', hfinish'⟩ := range_record hcontent (j := i - s.firstIndex) (by omega)
      rw [hoffset'] at hle'
      rw [hfinish'] at hlt'
      have := hunique (i - s.firstIndex) ⟨by omega, hle', hlt'⟩
      omega
  · rw [hlen, h.metaOffset_eq]
  · exact hcontent.clean j (by omega)

end Segment

/-! ## Whole runs -/

namespace SegmentLife

variable {κ : Type} {codec : Codec LogEntry (List UInt8)} {r : SegmentLife κ} {es : List LogEntry}

/-- **The next call returns**: a batch with the next indices and known keys that fits, a truncation
at an index of the segment, closing an active segment. -/
def Continues (codec : Codec LogEntry (List UInt8)) (r : SegmentLife κ) : Prop :=
  (∀ fs, r.segment.isActive = true →
    (∀ j e, fs[j]? = some e → e.index = r.segment.lastIndex + 1 + j) →
    (∀ e ∈ fs, (r.util.env codec).Knows e) → ¬ r.segment.shouldRoll (r.util.env codec) fs →
    ∃ x, (r.segment.appendEntries (r.util.env codec) fs r.dir).result = .ok x) ∧
  (∀ k, r.segment.firstIndex ≤ k → k ≤ r.segment.lastIndex →
    ∃ x, (r.segment.truncateSuffix k r.dir).result = .ok x) ∧
  (r.segment.isActive = true → ∃ x, (r.segment.closeActiveSegment r.dir).result = .ok x)

theorem Inv.continues (h : Inv codec r es) : r.Continues codec := by
  refine ⟨fun fs hactive hindex hknown hfits => ?_, fun k hk hk' => ?_, fun hactive => ?_⟩
  · obtain ⟨ws, d, hrun, -⟩ := Segment.yields_appendEntries h.describes hactive hindex hknown hfits
    exact ⟨_, hrun.result⟩
  · obtain ⟨ws, d, t, hrun, -⟩ := Segment.exists_yields_truncateSuffix_any h.describes hk hk'
    exact ⟨_, hrun.result⟩
  · exact ⟨_, (Segment.yields_closeActiveSegment h.describes hactive).result⟩

/-- What is read at an index is what was appended there last. -/
theorem Inv.reads_latest (h : Inv codec r es) {i : ℕ} (hi : r.segment.firstIndex ≤ i)
    (hi' : i ≤ r.segment.lastIndex) :
    ∃ u e, r.latest i = some (u, e) ∧
      (r.segment.getEntry (r.util.env codec) i r.dir).result = .ok (some e) ∧
      (r.segment.getTerm i r.dir).result = .ok (some e.term) := by
  have hlast := h.describes.last_eq
  have hget : es[i - r.segment.firstIndex]? = some es[i - r.segment.firstIndex] :=
    List.getElem?_eq_getElem (by omega)
  obtain ⟨u, hlatest, -⟩ := h.latest _ _ hget
  rw [Nat.add_sub_cancel' hi] at hlatest
  exact ⟨u, _, hlatest, (Segment.yields_getEntry h.describes.finds hi hget).result,
    (Segment.yields_getTerm h.describes.finds hi hget).result⟩

end SegmentLife

/-- **The byte layout of a segment is exact.** In every run of appends that fit, truncations,
closing, reopening and reading: the records are consecutive and tile the data, no record follows
them, a new object finds the same end, every index reads as the entry appended there last, and the
next call returns. -/
theorem segment_byte_layout {κ : Type} {codec : Codec LogEntry (List UInt8)} {r : SegmentLife κ}
    (h : SegmentLife.Reached codec r) :
    (∃ records, r.dir r.segment.metaName = some (.records records) ∧
      r.segment.ByteLayout records) ∧
    (∀ m n, (m = 0 ∨ 0 < m ∧ m % pageSize = 0) → (n = 0 ∨ 0 < n ∧ n % pageSize = 0) →
      ∃ d s, (r.segment.listed.recoverActiveOrClosedSegment m n r.dir).result = .ok (d, s) ∧
        s.lastIndex = r.segment.lastIndex ∧ s.dataOffset = r.segment.dataOffset ∧
        s.metaOffset = r.segment.metaOffset) ∧
    (∀ i, r.segment.firstIndex ≤ i → i ≤ r.segment.lastIndex → ∃ u e, r.latest i = some (u, e) ∧
      (r.segment.getEntry (r.util.env codec) i r.dir).result = .ok (some e) ∧
      (r.segment.getTerm i r.dir).result = .ok (some e.term)) ∧
    r.Continues codec := by
  obtain ⟨es, hinv⟩ := h.inv
  obtain ⟨data, records, -, hmeta, -, -, hcontent⟩ := hinv.describes.files
  refine ⟨⟨records, hmeta, hinv.describes.byteLayout hcontent⟩, fun m n hm hn => ?_,
    fun i hi hi' => hinv.reads_latest hi hi', hinv.continues⟩
  obtain ⟨ws, d, hrun, -⟩ := Segment.yields_recover hinv.describes hm hn
  exact ⟨d, _, hrun.result, rfl, rfl, rfl⟩

/-! ## A segment that is written over -/

namespace Scenario

/-- No keys. -/
def noKeys : CryptoUtil Unit where
  enabled := false
  keys := []
  sha256 _ _ := 0
  keys_ne_nil := nofun

/-- Two entries, of which the second is written over by a shorter one. -/
def drafts : List LogEntry := [⟨1, 1, false, 0, [], 0, none⟩, ⟨1, 2, false, 0, [5, 6, 7], 0, none⟩]

/-- The entry that is written over the second one. -/
def final : LogEntry := ⟨2, 2, false, 0, [8], 0, none⟩

/-- How they are written down. -/
def format : Codec LogEntry (List UInt8) := LogEntry.framing.toCodec

/-- The segment with the two entries. -/
def drafted : Segment := (Segment.fresh pageSize pageSize 1).extend (noKeys.env format) drafts

/-- The segment that was cut behind the first one. -/
def cut : Segment := drafted.truncated (noKeys.env format) 1 drafts

open SegmentLife Segment in
/-- A segment with two entries is cut behind the first one, another one is appended, the segment is
closed, and it is opened again. -/
theorem exists_rewritten : ∃ r : SegmentLife Unit, Reached format r ∧
    r.segment = (cut.extend (noKeys.env format) [final]).close ∧
    r.latest 2 = some (noKeys, final) := by
  have hroom : ¬ (Segment.fresh pageSize pageSize 1).shouldRoll (noKeys.env format) drafts := by
    decide +kernel
  have hroom' : ¬ cut.shouldRoll (noKeys.env format) [final] := by decide +kernel
  have h₀ : (Segment.fresh pageSize pageSize 1).Describes (noKeys.env format)
      (created pageSize pageSize 1 Directory.empty) [] :=
    describes_fresh_created 1 le_rfl Directory.empty
  have r₀ : Reached format _ :=
    .create noKeys le_rfl (yields_createActiveSegment .onePage 1 Directory.empty).result
  obtain ⟨ws₁, d₁, hrun₁, h₁, -⟩ := yields_appendEntries h₀ rfl (by
    intro j e hj
    match j with
    | 0 | 1 => cases hj; rfl) (fun e _ hen => by cases hen) hroom
  have r₁ := r₀.step (.append drafts (by decide) hroom hrun₁.result)
  obtain ⟨data, records, -, hmeta, -⟩ := h₁.files
  obtain ⟨hrun₂, h₂⟩ := yields_truncateSuffix_active (k := 1) h₁ hmeta le_rfl one_lt_two rfl
  have r₂ := r₁.step (.truncateSuffix 1 le_rfl one_le_two hrun₂.result)
  obtain ⟨ws₃, d₃, hrun₃, h₃, -⟩ := yields_appendEntries h₂ rfl (by
    intro j e hj
    match j with
    | 0 => cases hj; rfl) (fun e _ hen => by cases hen) hroom'
  have r₃ := r₂.step (.append [final] (by decide) hroom' hrun₃.result)
  have r₄ := r₃.step (.closeActiveSegment (yields_closeActiveSegment h₃ rfl).result)
  have r₅ := r₄.step (.recover 0 0 (Or.inl rfl) (Or.inl rfl)
    (yields_recover_closed (h₃.close rfl)).result)
  exact ⟨_, r₅, rfl, rfl⟩

end Scenario

open Scenario in
theorem segment_byte_layout_rewritten :
    ∃ r : SegmentLife Unit, SegmentLife.Reached format r ∧
      (r.segment.getEntry (r.util.env format) 2 r.dir).result = .ok (some final) := by
  obtain ⟨r, hr, hsegment, hlatest⟩ := exists_rewritten
  obtain ⟨u, e, he, hget, -⟩ := (segment_byte_layout hr).2.2.1 2 (by rw [hsegment]; decide +kernel)
    (by rw [hsegment]; decide +kernel)
  rw [hlatest] at he
  cases he
  exact ⟨r, hr, hget⟩

end Gringofts
