import Gringofts.App.EventApplyLoop
import Mathlib.Algebra.GroupWithZero.Nat

/-!
# Bundles for downstream readers

`BundleExposePublisher::fetchBundlesImpl` serves a range of command ids, given by its two ends, from
the committed log. The range goes through four layers, and each of them computes with unsigned
64-bit numbers: the publisher makes a size of it, the store cuts the size at `commitIndex`, Raft
asserts that the range ends at `commitIndex` or before, and the segment cuts it at its last entry.

The check of the store and the assertion of Raft both look at `start + size - 1`. For a range whose
end lies below its start that sum wraps around and is the end again, so that both let it pass. What
then limits the batch is the segment, which knows nothing of `commitIndex`, and the size of a batch.

## Main definitions

* `RaftView.readEntries`, `Log.readEntries` — `getEntries` of `RaftCore` and of `SegmentLog`
* `EntryDecoder.loadCommandEventsList`, `EntryDecoder.fetchBundlesImpl`
* `RaftView.Exposes` — a batch has room for an entry that is not committed

## Main results

* `Log.mem_getEntries_index`, `Log.le_length_getEntries_iff` — the indices of a batch and how far it
  reaches
* `EntryDecoder.cutSize_spec` — the arithmetic of a range
* `EntryDecoder.fetchBundlesImpl_eq` — what a range is served with
* `fetched_bundles_committed_iff`, `fetched_bundle_uncommitted`
-/

namespace Gringofts

open Scenario

variable {ε : Type} {e : LogEntry} {n segmentLast : ℕ} {start endId : UInt64} {v : RaftView}

/-! ## The four layers -/

/-- `SegmentLog::getEntries`, with its batch from one segment. `none` is a failed assertion. -/
def Log.readEntries (byteSize : LogEntry → ℕ) (l : Log) (startIndex : UInt64)
    (maxLenInBytes : ℕ) (maxBatchSize : UInt64) (segmentLast : ℕ) : Option (List LogEntry) :=
  if l.lastIndex < startIndex.toNat then
    if startIndex.toNat = l.lastIndex + 1 then some [] else none
  else
    some (l.getEntries byteSize startIndex.toNat maxLenInBytes maxBatchSize.toNat segmentLast)

/-- `RaftCore::getEntries`, with the arithmetic of the machine. -/
def RaftView.readEntries (cfg : RaftConfig) (v : RaftView) (startIndex size : UInt64)
    (segmentLast : ℕ) : Option (List LogEntry) :=
  if (startIndex + size - 1).toNat ≤ v.commitIndex then
    v.log.readEntries cfg.byteSize startIndex cfg.maxLenInBytes size segmentLast
  else none

/-- `FetchBundlesResponse`. -/
structure FetchBundlesResponse where
  firstCommandId : UInt64
  lastCommandId : UInt64
  /-- The id of a command and its value. -/
  bundleEntries : List (ℕ × ℕ)
  code : ℕ
  errorMessage : String
  deriving DecidableEq

namespace EntryDecoder

variable (d : EntryDecoder ε) (cfg : RaftConfig) (v : RaftView)

/-- `loadBundles`: how many entries were read, and their bundles. -/
def loadBundles (startIndex size : UInt64) (segmentLast : ℕ) :
    Option (ℕ × List (Bundle ε)) := do
  let entries ← v.readEntries cfg startIndex size segmentLast
  let bundles ← d.decryptEntries entries
  some (entries.length, bundles)

/-- The size that is left when it is cut at `commitIndex`. -/
def cutSize (commitIndex : ℕ) (commandId size : UInt64) : UInt64 :=
  if commitIndex < (commandId + size - 1).toNat then UInt64.ofNat commitIndex - commandId + 1
  else size

/-- `loadCommandEventsList`. -/
def loadCommandEventsList (commandId size : UInt64) (segmentLast : ℕ) :
    Option (ℕ × List (Bundle ε)) :=
  if commandId = 0 ∨ v.commitIndex < commandId.toNat then some (0, [])
  else d.loadBundles cfg v commandId (cutSize v.commitIndex commandId size) segmentLast

/-- The first id that is served. -/
def startCommandId (start : UInt64) : UInt64 := if start = 0 then 1 else start

/-- The response to a request that was served. -/
def response (value : Bundle ε → ℕ) (start : UInt64) (size : ℕ) (bundles : List (Bundle ε)) :
    FetchBundlesResponse where
  firstCommandId := start
  lastCommandId := if size = 0 then 0 else start + UInt64.ofNat size - 1
  bundleEntries := bundles.map fun b => (b.commandId, value b)
  code := 0
  errorMessage := "Success"

/-- `fetchBundlesImpl`, for commands that all are of the one kind that has a value. -/
def fetchBundlesImpl (value : Bundle ε → ℕ) (start endId : UInt64) (segmentLast : ℕ) :
    Option FetchBundlesResponse := do
  let start := startCommandId start
  let (size, bundles) ← d.loadCommandEventsList cfg v start (endId - start + 1) segmentLast
  some (response value start size bundles)

end EntryDecoder

/-! ## A batch -/

namespace Log

variable {l : Log} {byteSize : LogEntry → ℕ} {start maxLen maxBatch segmentLast : ℕ}

/-- The entries of a batch follow one another from the index asked for. -/
theorem mem_getEntries_index (he : e ∈ l.getEntries byteSize start maxLen maxBatch segmentLast) :
    e ∈ l.entries ∧ start ≤ e.index ∧
      e.index < start + (l.getEntries byteSize start maxLen maxBatch segmentLast).length := by
  obtain ⟨j, hj⟩ := List.mem_iff_getElem?.mp he
  have hlt := (List.getElem?_eq_some_iff.mp hj).1
  obtain ⟨rest, hrest⟩ := l.getEntries_isPrefix byteSize start maxLen maxBatch segmentLast
  have hentry : (l.entries.drop (start - l.firstIndex))[j]? = some e := by
    rw [← hrest, List.getElem?_append_left hlt, hj]
  rw [List.getElem?_drop] at hentry
  have hindex := l.indexed _ e hentry
  have hfirst : l.firstIndex ≤ start := by
    by_contra hlow
    rw [getEntries, if_neg hlow] at he
    cases he
  exact ⟨List.mem_of_getElem? hentry, by omega, by omega⟩

/-- How far a batch reaches: as far as there are entries, and as their sizes sum up to the limit. -/
theorem le_length_takeBatch_iff {len : ℕ} {es : List LogEntry} (hn : 0 < n) :
    n ≤ (takeBatch byteSize maxLen len es).length ↔
      n ≤ es.length ∧ len + ((es.take n).map byteSize).sum ≤ maxLen := by
  induction es generalizing n len with
  | nil => simp [takeBatch]; omega
  | cons e es ih =>
    obtain ⟨n, rfl⟩ := Nat.exists_eq_succ_of_ne_zero hn.ne'
    rw [takeBatch, List.take_succ_cons, List.map_cons, List.sum_cons]
    split
    · simp; omega
    · rcases Nat.eq_zero_or_pos n with rfl | hpos
      · simp; omega
      · have hrest : n ≤ (takeBatch byteSize maxLen (len + byteSize e) es).length ↔ _ := ih hpos
        simp only [List.length_cons, Nat.succ_eq_add_one, Nat.add_le_add_iff_right, hrest]
        omega

/-- The same for a batch of a log. -/
theorem le_length_getEntries_iff (hn : 0 < n) (hstart : start ≤ l.lastIndex) :
    n ≤ (l.getEntries byteSize start maxLen maxBatch segmentLast).length ↔
      n ≤ maxBatch ∧ l.firstIndex ≤ start ∧
        start + n ≤ max start (min segmentLast l.lastIndex) + 1 ∧
        (((l.entries.drop (start - l.firstIndex)).take n).map byteSize).sum ≤ maxLen := by
  have hlast := l.lastIndex_add_one
  rw [getEntries]
  split
  · next hfirst =>
    rw [le_length_takeBatch_iff hn, List.take_take, List.length_take, List.length_drop,
      Nat.zero_add, segmentRest]
    constructor
    · rintro ⟨hlen, hsum⟩
      rw [Nat.min_eq_left (by omega)] at hsum
      exact ⟨by omega, hfirst, by omega, hsum⟩
    · rintro ⟨hbatch, -, hrest, hsum⟩
      rw [Nat.min_eq_left (a := n) (by omega)]
      exact ⟨by omega, hsum⟩
  · next hfirst => exact iff_of_false (by simp; omega) fun h => hfirst h.2.1

end Log

/-! ## The arithmetic of the layers -/

namespace EntryDecoder

theorem one_le_startCommandId (start : UInt64) :
    1 ≤ (startCommandId start).toNat ∧ start.toNat ≤ (startCommandId start).toNat := by
  rw [startCommandId]
  split
  · next h =>
    rw [h]
    decide
  · next h =>
    have hne : start.toNat ≠ 0 := fun hzero => h (UInt64.toNat_inj.mp hzero)
    omega

/-- **The size of a range when it is cut**: the cut range always passes the check of Raft, and it
ends at `commitIndex` or before if the range is not upside down. Otherwise it is not cut at all. -/
theorem cutSize_spec {commitIndex : ℕ} (last : UInt64) (hstart : 1 ≤ start.toNat)
    (hle : start.toNat ≤ commitIndex) (hcommit : commitIndex < 2 ^ 64) :
    (start + cutSize commitIndex start (last - start + 1) - 1).toNat ≤ commitIndex ∧
      (start.toNat ≤ last.toNat + 1 →
        start.toNat + (cutSize commitIndex start (last - start + 1)).toNat ≤ commitIndex + 1) ∧
      (last.toNat + 1 < start.toNat →
        (cutSize commitIndex start (last - start + 1)).toNat =
          2 ^ 64 + last.toNat + 1 - start.toNat) := by
  have hlt := last.toNat_lt
  have hlt' := start.toNat_lt
  have hof : (UInt64.ofNat commitIndex).toNat = commitIndex := by
    rw [UInt64.toNat_ofNat']
    exact Nat.mod_eq_of_lt hcommit
  -- the sum that is looked at is the end of the range again
  have hsum : start + (last - start + 1) - 1 = last := by
    rw [← UInt64.toNat_inj]
    simp only [UInt64.toNat_sub, UInt64.toNat_add, UInt64.toNat_one]
    omega
  have hsum' : start + (UInt64.ofNat commitIndex - start + 1) - 1 = UInt64.ofNat commitIndex := by
    rw [← UInt64.toNat_inj]
    simp only [UInt64.toNat_sub, UInt64.toNat_add, UInt64.toNat_one]
    omega
  rw [cutSize, hsum]
  split
  · rw [hsum', hof, UInt64.toNat_add, UInt64.toNat_sub, UInt64.toNat_one, hof]
    omega
  · rw [hsum, UInt64.toNat_add, UInt64.toNat_sub, UInt64.toNat_one]
    omega

variable (d : EntryDecoder ε) (cfg : RaftConfig)

/-- **What the store reads** is the batch of the range that was cut, and only its decoding can
fail. -/
theorem loadCommandEventsList_eq {commandId size : UInt64}
    (hcommit : v.commitIndex ≤ v.log.lastIndex) (hstart : 1 ≤ commandId.toNat)
    (hle : commandId.toNat ≤ v.commitIndex)
    (hcheck : (commandId + cutSize v.commitIndex commandId size - 1).toNat ≤ v.commitIndex) :
    ∀ es, es = v.log.getEntries cfg.byteSize commandId.toNat cfg.maxLenInBytes
      (cutSize v.commitIndex commandId size).toNat segmentLast →
    d.loadCommandEventsList cfg v commandId size segmentLast =
      (d.decryptEntries es).map fun bundles => (es.length, bundles) := by
  intro es hes
  have hne : commandId ≠ 0 := by
    rintro rfl
    exact absurd hstart (by decide)
  rw [loadCommandEventsList, if_neg (not_or.mpr ⟨hne, by omega⟩), loadBundles,
    RaftView.readEntries, if_pos hcheck, Log.readEntries, if_neg (by omega), ← hes,
    Option.bind_eq_bind, Option.bind_some]
  cases d.decryptEntries es <;> rfl

/-- The entries that a range is served with. -/
def served (v : RaftView) (start endId : UInt64) (segmentLast : ℕ) : List LogEntry :=
  if v.commitIndex < (startCommandId start).toNat then []
  else v.log.getEntries cfg.byteSize (startCommandId start).toNat cfg.maxLenInBytes
    (cutSize v.commitIndex (startCommandId start) (endId - startCommandId start + 1)).toNat
    segmentLast

theorem mem_served (he : e ∈ served cfg v start endId segmentLast) :
    e ∈ v.log.entries ∧ (startCommandId start).toNat ≤ e.index ∧
      e.index < (startCommandId start).toNat + (served cfg v start endId segmentLast).length := by
  rw [served] at he ⊢
  split at he
  · cases he
  · next habove =>
    rw [if_neg habove]
    exact Log.mem_getEntries_index he

theorem add_length_served_le (start endId : UInt64) (segmentLast : ℕ)
    (hcommit : v.commitIndex ≤ v.log.lastIndex) (hlast : v.log.lastIndex < 2 ^ 64) :
    (startCommandId start).toNat + (served cfg v start endId segmentLast).length ≤ 2 ^ 64 := by
  have hlt := (startCommandId start).toNat_lt
  rw [served]
  split
  · exact hlt.le
  · rcases Nat.eq_zero_or_pos (v.log.getEntries _ _ _ _ segmentLast).length with hzero | hpos
    · rw [hzero]
      exact hlt.le
    · have hreach := ((Log.le_length_getEntries_iff hpos (by omega)).mp (Nat.le_refl _)).2.2.1
      omega

theorem fetchBundlesImpl_eq (value : Bundle ε → ℕ) (start endId : UInt64) (segmentLast : ℕ)
    (hcommit : v.commitIndex ≤ v.log.lastIndex) (hlast : v.log.lastIndex < 2 ^ 64) :
    d.fetchBundlesImpl cfg v value start endId segmentLast =
      (d.decryptEntries (served cfg v start endId segmentLast)).map
        (response value (startCommandId start) (served cfg v start endId segmentLast).length) := by
  obtain ⟨hstart, -⟩ := one_le_startCommandId start
  rw [fetchBundlesImpl, served]
  split
  · next habove =>
    rw [loadCommandEventsList, if_pos (Or.inr habove)]
    rfl
  · next habove =>
    have hle := Nat.le_of_not_lt habove
    rw [loadCommandEventsList_eq d cfg hcommit hstart hle
      (cutSize_spec _ hstart hle (Nat.lt_of_le_of_lt hcommit hlast)).1 _ rfl]
    cases d.decryptEntries _ <;> rfl

/-- A decoder that reads every payload. -/
theorem exists_decryptEntries {d : EntryDecoder ε} (h : ∀ e, d.decode e ≠ none)
    (es : List LogEntry) : ∃ bundles, d.decryptEntries es = some bundles := by
  induction es with
  | nil => exact ⟨[], rfl⟩
  | cons e es ih =>
    obtain ⟨bundles, hbundles⟩ := ih
    rw [decryptEntries]
    split
    · exact ⟨bundles, hbundles⟩
    · obtain ⟨b, hb⟩ := Option.ne_none_iff_exists'.mp (h e)
      rw [hb, hbundles]
      exact ⟨_, rfl⟩

/-- The response tells how many entries were read. -/
theorem length_eq_of_response {value : Bundle ε → ℕ} {m : ℕ} {bundles bundles' : List (Bundle ε)}
    (hstart : 1 ≤ start.toNat) (hm : start.toNat + m ≤ 2 ^ 64) (hn : start.toNat + n ≤ 2 ^ 64)
    (h : response value start m bundles = response value start n bundles') : m = n := by
  have hlast := congrArg (fun r => r.lastCommandId.toNat) h
  have hof : ∀ k, 0 < k → start.toNat + k ≤ 2 ^ 64 →
      (start + UInt64.ofNat k - 1).toNat = start.toNat + k - 1 := by
    intro k hpos hk
    rw [UInt64.toNat_sub, UInt64.toNat_add, UInt64.toNat_one, UInt64.toNat_ofNat']
    omega
  simp only [response] at hlast
  split at hlast <;> split at hlast
  · omega
  · rw [hof n (by omega) hn, UInt64.toNat_zero] at hlast
    omega
  · rw [hof m (by omega) hm, UInt64.toNat_zero] at hlast
    omega
  · rw [hof m (by omega) hm, hof n (by omega) hn] at hlast
    omega

end EntryDecoder

/-- The entry after `commitIndex` is in the segment of `start`, and a batch from there has room for
it. -/
def RaftView.Exposes (cfg : RaftConfig) (v : RaftView) (start segmentLast : ℕ) : Prop :=
  v.log.firstIndex ≤ start ∧ v.commitIndex < segmentLast ∧ v.commitIndex < v.log.lastIndex ∧
    (((v.log.entries.drop (start - v.log.firstIndex)).take (v.commitIndex + 2 - start)).map
      cfg.byteSize).sum ≤ cfg.maxLenInBytes

open EntryDecoder

/-- **When a range is served beyond `commitIndex`.** -/
theorem EntryDecoder.length_served_le_iff {cfg : RaftConfig}
    (hcommit : v.commitIndex ≤ v.log.lastIndex) (hlast : v.log.lastIndex < 2 ^ 64) :
    (served cfg v start endId segmentLast).length ≤
        v.commitIndex + 1 - (startCommandId start).toNat ↔
      v.commitIndex < (startCommandId start).toNat ∨
        (startCommandId start).toNat ≤ endId.toNat + 1 ∨
        ¬ v.Exposes cfg (startCommandId start).toNat segmentLast := by
  obtain ⟨hstart, -⟩ := one_le_startCommandId start
  rw [served]
  by_cases habove : v.commitIndex < (startCommandId start).toNat
  · rw [if_pos habove]
    exact iff_of_true (Nat.zero_le _) (Or.inl habove)
  have hle := Nat.le_of_not_lt habove
  obtain ⟨-, hcut, huncut⟩ :=
    cutSize_spec endId hstart hle (Nat.lt_of_le_of_lt hcommit hlast)
  rw [if_neg habove, ← not_iff_not, not_le, Nat.lt_iff_add_one_le,
    Log.le_length_getEntries_iff (Nat.succ_pos _) (hle.trans hcommit), not_or, not_or, not_not,
    RaftView.Exposes]
  generalize (startCommandId start).toNat = s at *
  have hnext : (v.commitIndex + 1 - s).succ = v.commitIndex + 2 - s := by omega
  rw [hnext]
  constructor
  · rintro ⟨hbatch, hfirst, hrest, hsum⟩
    exact ⟨habove, fun h => by have := hcut h; omega, hfirst, by omega, by omega, hsum⟩
  · rintro ⟨-, hdown, hfirst, hsegment, hmore, hsum⟩
    have hsize := huncut (by omega)
    exact ⟨by omega, hfirst, by omega, hsum⟩

/-- **When readers see committed entries only**: exactly if the range starts above `commitIndex`, or
is not upside down, or the batch ends before the first entry that is not committed. Then, however
payloads are decoded, the bundles that are returned come from entries `es` between the first id and
`commitIndex`, and the returned count is their number. -/
theorem fetched_bundles_committed_iff (cfg : RaftConfig) (v : RaftView) (start endId : UInt64)
    (segmentLast : ℕ) (hcommit : v.commitIndex ≤ v.log.lastIndex)
    (hlast : v.log.lastIndex < 2 ^ 64) :
    (∀ (d : EntryDecoder ε) (value : Bundle ε → ℕ) r,
      d.fetchBundlesImpl cfg v value start endId segmentLast = some r →
        ∃ es : List LogEntry,
          (∀ e ∈ es, e ∈ v.log.entries ∧ start.toNat ≤ e.index ∧ e.index ≤ v.commitIndex) ∧
          es.length ≤ v.commitIndex + 1 - (startCommandId start).toNat ∧
          r = response value (startCommandId start) es.length (es.filterMap d.bundle?)) ↔
      v.commitIndex < (startCommandId start).toNat ∨
        (startCommandId start).toNat ≤ endId.toNat + 1 ∨
        ¬ v.Exposes cfg (startCommandId start).toNat segmentLast := by
  rw [← length_served_le_iff hcommit hlast]
  obtain ⟨hstart, hle⟩ := one_le_startCommandId start
  constructor
  · intro h
    -- a decoder that reads every payload lets the number of entries be seen
    let d : EntryDecoder ε := ⟨false, fun _ _ => none, fun _ => some ⟨0, []⟩⟩
    obtain ⟨bundles, hbundles⟩ := exists_decryptEntries (d := d) (fun _ => nofun)
      (served cfg v start endId segmentLast)
    have hserved := d.fetchBundlesImpl_eq cfg (fun _ => 0) start endId segmentLast hcommit hlast
    rw [hbundles] at hserved
    obtain ⟨es, -, hlen, hresponse⟩ := h d _ _ hserved
    have hlt := (startCommandId start).toNat_lt
    have hbound := add_length_served_le cfg start endId segmentLast hcommit hlast
    have heq := length_eq_of_response hstart (by omega) (by omega) hresponse
    omega
  · intro hlen d value r hr
    rw [fetchBundlesImpl_eq d cfg value start endId segmentLast hcommit hlast] at hr
    obtain ⟨bundles, hbundles, rfl⟩ := Option.map_eq_some_iff.mp hr
    refine ⟨served cfg v start endId segmentLast, fun e he => ?_, hlen, ?_⟩
    · obtain ⟨hmem, hlow, hhigh⟩ := mem_served cfg he
      exact ⟨hmem, hle.trans hlow, by omega⟩
    · rw [decryptEntries_eq hbundles]

/-- **A reader sees an uncommitted entry.** Two of three entries are committed. The range from `2`
to `0` passes every check and is served with the commands `2` and `3`. -/
theorem fetched_bundle_uncommitted :
    ∃ (v : RaftView) (r : FetchBundlesResponse),
      v.commitIndex = 2 ∧ v.log.lastIndex = 3 ∧
      plainDecoder.fetchBundlesImpl wide v (fun _ => 0) 2 0 3 = some r ∧
      r.bundleEntries = [(2, 0), (3, 0)] ∧ r.lastCommandId = 3 :=
  ⟨⟨twoCommitted.log, 2⟩, _, rfl, rfl, rfl, rfl, rfl⟩

theorem fetched_bundles_committed_iff_two :
    ∃ (r : FetchBundlesResponse) (es : List LogEntry),
      plainDecoder.fetchBundlesImpl wide ⟨twoCommitted.log, 2⟩
        (fun _ => 0) 0 100 3 = some r ∧
      r.bundleEntries = [(2, 0)] ∧ (∀ e ∈ es, e.index ≤ 2) ∧ es.length ≤ 2 ∧
      r = EntryDecoder.response (fun _ => 0) 1 es.length
        (es.filterMap plainDecoder.bundle?) := by
  obtain ⟨es, hes, hlen, hr⟩ :=
    (fetched_bundles_committed_iff wide ⟨twoCommitted.log, 2⟩ 0 100 3
      (by decide) (by decide)).mpr (Or.inr (Or.inl (by decide))) plainDecoder
      (fun _ => 0) _ rfl
  exact ⟨_, es, rfl, rfl, fun e he => (hes e he).2.2, hlen, hr⟩

end Gringofts
