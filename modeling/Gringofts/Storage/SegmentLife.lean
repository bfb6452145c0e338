import Gringofts.Storage.Hmac
import Gringofts.Storage.SegmentSpec

/-!
# The life of a segment

A segment is created, entries are appended and truncated again, it is closed, its object goes and
comes back when the process is started again, and in between entries are read in any order. New
keys may turn up at any time; old ones stay.

What is to be read at an index is the entry that was appended there last. It is kept on the side,
together with the keys of that time.

## Scope

A step is a call that returned; which calls return is told where the invariant is used. A batch is
not empty: the source looks at its first record.

## Main definitions

* `CryptoUtil.Grows` — keys are only added
* `SegmentLife`, `SegmentLife.Step`, `SegmentLife.Reached`
* `SegmentLife.Inv` — what holds of every segment

## Main results

* `SegmentLife.Inv.step`, `SegmentLife.Reached.inv`
-/

namespace Gringofts

variable {κ : Type} {version b i n recent : ℕ} {codec : Codec LogEntry (List UInt8)}
  {es : List LogEntry}

/-! ## Keys that are added -/

namespace CryptoUtil

/-- Keys have been added, and nothing else has changed. -/
structure Grows (u u' : CryptoUtil κ) : Prop where
  enabled_eq : u'.enabled = u.enabled
  sha256_eq : u'.sha256 = u.sha256
  keys_kept : u.keys <+: u'.keys

variable {u u' u'' : CryptoUtil κ}

theorem Grows.refl (u : CryptoUtil κ) : u.Grows u := ⟨rfl, rfl, List.prefix_rfl⟩

theorem Grows.trans (h : u.Grows u') (h' : u'.Grows u'') : u.Grows u'' :=
  ⟨h'.enabled_eq.trans h.enabled_eq, h'.sha256_eq.trans h.sha256_eq,
    h.keys_kept.trans h'.keys_kept⟩

theorem Grows.latest_le (h : u.Grows u') :
    u.getLatestSecKeyVersion ≤ u'.getLatestSecKeyVersion := by
  rw [getLatestSecKeyVersion, getLatestSecKeyVersion, h.enabled_eq]
  split
  · exact h.keys_kept.length_le
  · exact le_rfl

/-- A version keeps its key. -/
theorem Grows.getKeyByVersion_eq (h : u.Grows u') (hlatest : version ≤ u.keys.length) :
    u'.getKeyByVersion version = u.getKeyByVersion version := by
  cases version with
  | zero => rfl
  | succ v =>
    obtain ⟨ks, hks⟩ := h.keys_kept
    rw [getKeyByVersion, getKeyByVersion, ← hks, List.getElem?_append_left hlatest]

theorem Grows.hmac_eq (h : u.Grows u') (hlatest : version ≤ u.keys.length) (m : List UInt8) :
    u'.hmac m version = u.hmac m version := by
  rw [hmac, hmac, h.getKeyByVersion_eq hlatest, h.sha256_eq]

/-- What a segment needs of it, with a way to serialize entries. -/
def env (codec : Codec LogEntry (List UInt8)) (u : CryptoUtil κ) : StorageEnv :=
  ⟨codec, u.toCrypto⟩

variable {codec : Codec LogEntry (List UInt8)} {e : LogEntry}

theorem Grows.knows (h : u.Grows u') (hknown : (u.env codec).Knows e) :
    (u'.env codec).Knows e := by
  intro hen
  have hen : u.enabled = true := h.enabled_eq.symm.trans hen
  exact (hknown hen).trans h.latest_le

/-- The record of an entry is the same with more keys. -/
theorem Grows.record_eq (h : u.Grows u') (hknown : (u.env codec).Knows e) (offset : ℕ) :
    (u'.env codec).record offset e = (u.env codec).record offset e := by
  have hdigest : ((u'.env codec).record offset e).digest =
      ((u.env codec).record offset e).digest := by
    show (if u'.enabled = true then _ else _) = (if u.enabled = true then _ else _)
    rw [h.enabled_eq]
    by_cases hen : u.enabled = true
    · rw [if_pos hen, if_pos hen]
      have hle : StorageEnv.keyVersion e ≤ u.getLatestSecKeyVersion := hknown hen
      rw [getLatestSecKeyVersion, if_pos hen] at hle
      exact congrArg (Option.getD · 0) (h.hmac_eq hle _)
    · rw [if_neg hen, if_neg hen]
  exact congrArg (LogMeta.mk offset ((u.env codec).byteSize e) e.term e.index) hdigest

end CryptoUtil

/-- Entries that are in the files are still there with more keys. -/
theorem Content.grows {u u' : CryptoUtil κ} {first : ℕ} {data : DataRegion} {records : MetaRegion}
    (hgrow : u.Grows u') (h : Content (u.env codec) first es data records) :
    Content (u'.env codec) first es data records where
  indexed := h.indexed
  known := fun e he => hgrow.knows (h.known e he)
  record_eq := fun j e hj => by
    rw [hgrow.record_eq (h.known e (List.mem_of_getElem? hj))]
    exact h.record_eq j e hj
  read_eq := h.read_eq
  data_fits := h.data_fits
  meta_fits := h.meta_fits
  clean := h.clean

theorem Segment.Describes.grows {u u' : CryptoUtil κ} {d : Directory} {s : Segment}
    (hgrow : u.Grows u') (h : s.Describes (u.env codec) d es) :
    s.Describes (u'.env codec) d es := by
  obtain ⟨hpos, hlast, hdo, hmo, data, records, hdata, hmeta, hds, hms, hcontent⟩ := h
  exact ⟨hpos, hlast, hdo, hmo, data, records, hdata, hmeta, hds, hms, hcontent.grows hgrow⟩

/-! ## Runs -/

/-- A segment in the course of its life. -/
structure SegmentLife (κ : Type) where
  util : CryptoUtil κ
  dir : Directory
  segment : Segment
  /-- `mRecentUsedSecKeyVersion` -/
  recent : ℕ
  /-- For each index the entry that was appended there last, and the keys of that time. -/
  latest : ℕ → Option (CryptoUtil κ × LogEntry)

namespace SegmentLife

variable (codec : Codec LogEntry (List UInt8))

/-- Entries have been appended. -/
def record (u : CryptoUtil κ) (es : List LogEntry)
    (latest : ℕ → Option (CryptoUtil κ × LogEntry)) (i : ℕ) : Option (CryptoUtil κ × LogEntry) :=
  match es.find? fun e => e.index = i with
  | some e => some (u, e)
  | none => latest i

/-- **A step**: a call that has returned, or new keys. -/
inductive Step : SegmentLife κ → SegmentLife κ → Prop
  /-- `appendEntries`, of a batch that fits. -/
  | append {r : SegmentLife κ} {d : Directory} {s : Segment} (es : List LogEntry) (hne : es ≠ [])
      (hfits : ¬ r.segment.shouldRoll (r.util.env codec) es)
      (hrun : (r.segment.appendEntries (r.util.env codec) es r.dir).result = .ok (d, s)) :
      Step r { r with dir := d, segment := s, latest := record r.util es r.latest }
  /-- `truncateSuffix`, at an index of the segment. -/
  | truncateSuffix {r : SegmentLife κ} {d : Directory} {s : Segment} (k : ℕ)
      (hfirst : r.segment.firstIndex ≤ k) (hlast : k ≤ r.segment.lastIndex)
      (hrun : (r.segment.truncateSuffix k r.dir).result = .ok (d, s)) :
      Step r { r with dir := d, segment := s }
  | closeActiveSegment {r : SegmentLife κ} {d : Directory} {s : Segment}
      (hrun : (r.segment.closeActiveSegment r.dir).result = .ok (d, s)) :
      Step r { r with dir := d, segment := s }
  /-- A new object for the files, by `recoverActiveOrClosedSegment` with sizes that a file may
  have. -/
  | recover {r : SegmentLife κ} {d : Directory} {s : Segment} (m n : ℕ)
      (hm : m = 0 ∨ 0 < m ∧ m % pageSize = 0) (hn : n = 0 ∨ 0 < n ∧ n % pageSize = 0)
      (hrun : (r.segment.listed.recoverActiveOrClosedSegment m n r.dir).result = .ok (d, s)) :
      Step r { r with dir := d, segment := s, recent := r.util.getLatestSecKeyVersion }
  /-- `getEntry`, at any index. -/
  | getEntry {r : SegmentLife κ} {x : Option LogEntry} {recent : ℕ} (i : ℕ)
      (hrun : (r.segment.readEntry (r.util.env codec) r.recent i r.dir).result = .ok (x, recent)) :
      Step r { r with recent := recent }
  /-- New keys. -/
  | rotate {r : SegmentLife κ} (u : CryptoUtil κ) (hgrow : r.util.Grows u) :
      Step r { r with util := u }

/-- **A run**: it begins with the creation of the segment, in whatever directory. -/
inductive Reached : SegmentLife κ → Prop
  | create {limits : SegmentLimits} {first : ℕ} {d₀ d : Directory} {s : Segment}
      (u : CryptoUtil κ) (hfirst : 1 ≤ first)
      (hrun : (Segment.createActiveSegment limits first d₀).result = .ok (d, s)) :
      Reached ⟨u, d, s, u.getLatestSecKeyVersion, fun _ => none⟩
  | step {r r' : SegmentLife κ} (h : Reached r) (hs : Step codec r r') : Reached r'

/-- **What holds of a segment**: the object describes files with the entries that were appended
last, and the recently used version is one of the versions. -/
structure Inv (r : SegmentLife κ) (es : List LogEntry) : Prop where
  describes : r.segment.Describes (r.util.env codec) r.dir es
  latest : ∀ j e, es[j]? = some e → ∃ u, r.latest (r.segment.firstIndex + j) = some (u, e) ∧
    u.Grows r.util ∧ (u.env codec).Knows e
  recent : r.util.enabled = true → 1 ≤ r.recent ∧ r.recent ≤ r.util.getLatestSecKeyVersion

/-! ## Every step keeps it -/

section Steps

variable {codec} {r : SegmentLife κ} {es fs : List LogEntry} {d : Directory} {s : Segment}

theorem record_of_index {u : CryptoUtil κ} {latest : ℕ → Option (CryptoUtil κ × LogEntry)} {j : ℕ}
    {e : LogEntry} (hindex : ∀ j e, fs[j]? = some e → e.index = b + j) (he : fs[j]? = some e) :
    record u fs latest (b + j) = some (u, e) := by
  have hfind : fs.find? (fun f => f.index = b + j) = some e := by
    cases hf : fs.find? (fun f => f.index = b + j) with
    | none =>
      have hno := List.find?_eq_none.mp hf e (List.mem_of_getElem? he)
      simp [hindex j e he] at hno
    | some f =>
      -- an index stands in the batch once
      have hf' : f.index = b + j := by simpa using List.find?_some hf
      obtain ⟨j', hj'⟩ := List.mem_iff_getElem?.mp (List.mem_of_find?_eq_some hf)
      have hsame : j' = j := by
        have := hindex j' f hj'
        omega
      rw [hsame, he] at hj'
      exact hj'.symm
  rw [record, hfind]

theorem record_of_lt {u : CryptoUtil κ} {latest : ℕ → Option (CryptoUtil κ × LogEntry)}
    (hindex : ∀ j e, fs[j]? = some e → e.index = b + j) (hi : i < b) :
    record u fs latest i = latest i := by
  have hfind : fs.find? (fun f => f.index = i) = none := by
    refine List.find?_eq_none.mpr fun f hf => ?_
    obtain ⟨j, hj⟩ := List.mem_iff_getElem?.mp hf
    have := hindex j f hj
    simp only [decide_eq_true_eq]
    omega
  rw [record, hfind]

theorem Inv.append (h : Inv codec r es) (hfits : ¬ r.segment.shouldRoll (r.util.env codec) fs)
    (hrun : (r.segment.appendEntries (r.util.env codec) fs r.dir).result = .ok (d, s)) :
    Inv codec { r with dir := d, segment := s, latest := record r.util fs r.latest }
      (es ++ fs) := by
  obtain ⟨hactive, hindex, hknown⟩ := Segment.appendEntries_accepts hrun
  obtain ⟨ws, d', hyields, hdesc, -⟩ :=
    Segment.yields_appendEntries h.describes hactive hindex hknown hfits
  cases hyields.result.symm.trans hrun
  have hlast := h.describes.last_eq
  refine ⟨hdesc, fun j e hj => ?_, h.recent⟩
  show ∃ u, record r.util fs r.latest (r.segment.firstIndex + j) = some (u, e) ∧ _
  by_cases hlt : j < es.length
  · rw [List.getElem?_append_left hlt] at hj
    rw [record_of_lt hindex (by omega)]
    exact h.latest j e hj
  · rw [List.getElem?_append_right (Nat.not_lt.mp hlt)] at hj
    refine ⟨r.util, ?_, .refl _, hknown e (List.mem_of_getElem? hj)⟩
    rw [show r.segment.firstIndex + j = r.segment.lastIndex + 1 + (j - es.length) by omega]
    exact record_of_index hindex hj

/-- The first entries of a segment are still those appended last. -/
theorem Inv.of_take (h : Inv codec r es) (hfirst : s.firstIndex = r.segment.firstIndex)
    (hdesc : s.Describes (r.util.env codec) d (es.take n)) :
    Inv codec { r with dir := d, segment := s } (es.take n) := by
  refine ⟨hdesc, fun j e hj => ?_, h.recent⟩
  show ∃ u, r.latest (s.firstIndex + j) = some (u, e) ∧ _
  rw [hfirst]
  refine h.latest j e ?_
  rw [List.getElem?_take] at hj
  split at hj
  · exact hj
  · cases hj

/-- The same entries, with another object or in other files. -/
theorem Inv.of_describes (h : Inv codec r es) (hfirst : s.firstIndex = r.segment.firstIndex)
    (hdesc : s.Describes (r.util.env codec) d es)
    (hrecent : r.util.enabled = true → 1 ≤ recent ∧ recent ≤ r.util.getLatestSecKeyVersion) :
    Inv codec { r with dir := d, segment := s, recent := recent } es := by
  refine ⟨hdesc, fun j e hj => ?_, hrecent⟩
  show ∃ u, r.latest (s.firstIndex + j) = some (u, e) ∧ _
  rw [hfirst]
  exact h.latest j e hj

theorem Inv.truncateSuffix {k : ℕ} (h : Inv codec r es) (hfirst : r.segment.firstIndex ≤ k)
    (hlast : k ≤ r.segment.lastIndex)
    (hrun : (r.segment.truncateSuffix k r.dir).result = .ok (d, s)) :
    Inv codec { r with dir := d, segment := s } (es.take (k + 1 - r.segment.firstIndex)) := by
  obtain ⟨ws, d', t, hyields, ht, hdesc⟩ :=
    Segment.exists_yields_truncateSuffix_any h.describes hfirst hlast
  cases hyields.result.symm.trans hrun
  exact h.of_take ht hdesc

theorem Inv.closeActiveSegment (h : Inv codec r es)
    (hrun : (r.segment.closeActiveSegment r.dir).result = .ok (d, s)) :
    Inv codec { r with dir := d, segment := s } es := by
  have hactive : r.segment.isActive = true := by
    have hsat : (r.segment.closeActiveSegment r.dir).Sat (fun _ => True)
        (fun _ => r.segment.isActive = true) fun _ => True := by
      rw [Segment.closeActiveSegment]
      exact Outcome.sat_check_bind (fun _ => trivial) fun hactive =>
        (Outcome.sat_trivial _).imp fun _ _ => hactive
    exact hsat.of_result hrun
  cases (Segment.yields_closeActiveSegment h.describes hactive).result.symm.trans hrun
  exact h.of_describes rfl (h.describes.close hactive) h.recent

/-- Where keys are in use, the latest version is one of the versions. -/
theorem latest_mem (u : CryptoUtil κ) (hen : u.enabled = true) :
    1 ≤ u.getLatestSecKeyVersion ∧ u.getLatestSecKeyVersion ≤ u.getLatestSecKeyVersion :=
  ⟨u.toCrypto.latest_pos hen, le_rfl⟩

theorem Inv.recover {m : ℕ} (h : Inv codec r es) (hm : m = 0 ∨ 0 < m ∧ m % pageSize = 0)
    (hn : n = 0 ∨ 0 < n ∧ n % pageSize = 0)
    (hrun : (r.segment.listed.recoverActiveOrClosedSegment m n r.dir).result = .ok (d, s)) :
    Inv codec { r with dir := d, segment := s, recent := r.util.getLatestSecKeyVersion } es := by
  obtain ⟨ws, d', hyields, hdesc, -⟩ := Segment.yields_recover h.describes hm hn
  cases hyields.result.symm.trans hrun
  exact h.of_describes rfl hdesc (latest_mem r.util)

theorem Inv.getEntry {x : Option LogEntry} (h : Inv codec r es)
    (hrun : (r.segment.readEntry (r.util.env codec) r.recent i r.dir).result = .ok (x, recent)) :
    Inv codec { r with recent := recent } es := by
  refine h.of_describes rfl h.describes fun hen => ?_
  exact Segment.recent_of_readEntry hrun (h.recent hen)

theorem Inv.rotate {u : CryptoUtil κ} (h : Inv codec r es) (hgrow : r.util.Grows u) :
    Inv codec { r with util := u } es := by
  refine ⟨h.describes.grows hgrow, fun j e hj => ?_, fun hen => ?_⟩
  · obtain ⟨u₀, hlatest, hgrow₀, hknown⟩ := h.latest j e hj
    exact ⟨u₀, hlatest, hgrow₀.trans hgrow, hknown⟩
  · obtain ⟨hpos, hle⟩ := h.recent (hgrow.enabled_eq.symm.trans hen)
    exact ⟨hpos, hle.trans hgrow.latest_le⟩

/-- **One step.** -/
theorem Inv.step {r' : SegmentLife κ} (h : Inv codec r es) (hs : Step codec r r') :
    ∃ es', Inv codec r' es' := by
  cases hs with
  | append fs _ hfits hrun => exact ⟨_, h.append hfits hrun⟩
  | truncateSuffix k hfirst hlast hrun => exact ⟨_, h.truncateSuffix hfirst hlast hrun⟩
  | closeActiveSegment hrun => exact ⟨_, h.closeActiveSegment hrun⟩
  | recover m n hm hn hrun => exact ⟨_, h.recover hm hn hrun⟩
  | getEntry i hrun => exact ⟨_, h.getEntry hrun⟩
  | rotate u hgrow => exact ⟨_, h.rotate hgrow⟩

/-- **A whole run.** -/
theorem Reached.inv (h : Reached codec r) : ∃ es, Inv codec r es := by
  induction h with
  | @create limits first d₀ d s u hfirst hrun =>
    cases (Segment.yields_createActiveSegment limits first d₀).result.symm.trans hrun
    exact ⟨[], Segment.describes_fresh_created first hfirst d₀, nofun, latest_mem u⟩
  | step _ hs ih =>
    obtain ⟨es, hinv⟩ := ih
    exact hinv.step hs

end Steps

end SegmentLife

end Gringofts
