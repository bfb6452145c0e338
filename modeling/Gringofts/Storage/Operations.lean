import Gringofts.Storage.Recovery
import Gringofts.Storage.Suffix

/-!
# The operations of a segmented log

An object that represents a log represents the log of the model after each operation, and reading
from it is reading from the log. None of the assertions fails.

In the middle of a truncation there may be no active segment. The object is `Inactive` then, and
the directory holds the log already.

## Main results

* `SegmentLog.Represents.exists_yields_setCurrentTerm`, `…_setVoteFor`, `…_appendEntries`,
  `…_truncatePrefix`, `…_truncateSuffix` — writing
* `SegmentLog.Represents.yields_getEntry`, `SegmentLog.Represents.yields_getTerm` — reading
-/

namespace Gringofts

open Outcome Directory Segment Log

variable {env : StorageEnv} {limits : SegmentLimits} {es : List LogEntry} {d d' : Directory}
  {a : Segment} {name : FileName} {e : LogEntry} {i : ℕ}

/-- A batch fits an empty segment. -/
def SegmentLimits.Fits (env : StorageEnv) (limits : SegmentLimits) (es : List LogEntry) : Prop :=
  es.length * sizeofLogMeta ≤ limits.metaSize ∧ totalSize env es ≤ limits.dataSize

instance (env : StorageEnv) (limits : SegmentLimits) (es : List LogEntry) :
    Decidable (limits.Fits env es) := inferInstanceAs (Decidable (_ ∧ _))

/-- A new segment has room for it. -/
theorem SegmentLimits.Fits.not_shouldRoll_fresh (h : limits.Fits env es) (first : ℕ) :
    ¬ (fresh limits.dataSize limits.metaSize first).shouldRoll env es := by
  obtain ⟨hmeta, hdata⟩ := h
  rintro (hroll | hroll)
  · simp only [fresh, Nat.zero_add] at hroll
    omega
  · simp only [fresh, Nat.zero_add] at hroll
    omega

/-- A segment that has no room for it is not empty. -/
theorem SegmentLimits.Fits.nonempty_of_shouldRoll {fs : List LogEntry} (h : limits.Fits env es)
    (hfiles : a.Describes env d fs) (hdata : limits.dataSize ≤ a.dataSizeLimit)
    (hmeta : limits.metaSize ≤ a.metaSizeLimit) (hroll : a.shouldRoll env es) :
    a.firstIndex ≤ a.lastIndex := by
  by_contra hlt
  have hlast := hfiles.last_eq
  obtain rfl : fs = [] := List.length_eq_zero_iff.mp (by omega)
  obtain ⟨hfm, hfd⟩ := h
  rcases hroll with hroll | hroll
  · rw [hfiles.metaOffset_eq, List.length_nil] at hroll
    omega
  · rw [hfiles.dataOffset_eq, totalSize_nil] at hroll
    omega

/-- Registers are not dropped. -/
theorem Dropped.register {ts : List Segment} (h : Dropped ts d d') (hname : name.IsRegister) :
    d' name = d name := by
  refine h.frame name ?_ fun t _ =>
    ⟨(t.dataName_ne_register hname).symm, (t.metaName_ne_register hname).symm⟩
  rcases hname with rfl | rfl | rfl <;> simp

namespace SegmentLog

variable {env : StorageEnv} {s : SegmentLog} {l : Log}

/-! ## Registers -/

/-- What a register write leaves of the rest. -/
theorem Represents.layout_of_register (h : s.Represents env l) (hname : name.IsRegister)
    (hframe : ∀ n, n ≠ name → n ≠ .tmp name → d' n = s.dir n) :
    ∃ base a ces tail, s.active = some a ∧
      Layout env d' l.firstIndex base s.closed (some a) ces tail ∧
      l.entries = (ces ++ tail).drop (l.firstIndex - base) ∧
      s.limits.dataSize ≤ a.dataSizeLimit ∧ s.limits.metaSize ≤ a.metaSizeLimit := by
  obtain ⟨base, a, ces, tail, ha, hlayout, hrest⟩ := h.layout
  exact ⟨base, a, ces, tail, ha, hlayout.congr_register hname hframe, hrest⟩

theorem Represents.exists_yields_setCurrentTerm (h : s.Represents env l) (term : ℕ) :
    ∃ ws s', (s.setCurrentTerm term).Yields ws s' ∧ s'.Represents env (l.setCurrentTerm term) := by
  obtain ⟨d₁, d₂, hrun, -, hval, hframe⟩ :=
    s.dir.yields_setFileContentWithSync .currentTerm term
  refine ⟨_, _, hrun.bind (yields_pure _), ⟨?_, ?_, ?_⟩, h.firstIndex_eq, h.lastIndex_eq,
    rfl, h.voteFor_eq, h.layout_of_register (Or.inl rfl) hframe⟩
  · exact number_of_eq hval
  · rw [number_congr (hframe _ (by simp) (by simp))]
    exact h.registers.vote_eq
  · rw [number_congr (hframe _ (by simp) (by simp))]
    exact h.registers.first_eq

theorem Represents.exists_yields_setVoteFor (h : s.Represents env l) (voteFor : ℕ) :
    ∃ ws s', (s.setVoteFor voteFor).Yields ws s' ∧ s'.Represents env (l.setVoteFor voteFor) := by
  obtain ⟨d₁, d₂, hrun, -, hval, hframe⟩ := s.dir.yields_setFileContentWithSync .voteFor voteFor
  refine ⟨_, _, hrun.bind (yields_pure _), ⟨?_, ?_, ?_⟩, h.firstIndex_eq, h.lastIndex_eq,
    h.currentTerm_eq, rfl, h.layout_of_register (Or.inr (Or.inl rfl)) hframe⟩
  · rw [number_congr (hframe _ (by simp) (by simp))]
    exact h.registers.term_eq
  · exact number_of_eq hval
  · rw [number_congr (hframe _ (by simp) (by simp))]
    exact h.registers.first_eq

/-! ## Appending -/

/-- Rolling closes the active segment and creates a new one. The directory holds the log all the
time but after the first call. -/
theorem Represents.exists_yields_rollActiveSegment (h : s.Represents env l) (ha : s.active = some a)
    (hne : a.firstIndex ≤ a.lastIndex) :
    ∃ d₁ ws s', s.rollActiveSegment.Yields (d₁ :: ws) s' ∧ (∀ w ∈ ws, w.Holds env l) ∧
      s'.Represents env l ∧
      s'.active = some (fresh s.limits.dataSize s.limits.metaSize (l.lastIndex + 1)) := by
  obtain ⟨base, ces, tail, hlayout, hentries, -, -⟩ := h.layout_of_active ha
  obtain ⟨hactive, hfirst, hfiles⟩ := hlayout.active_files a rfl
  have hend := hlayout.lastIndex_eq hentries
  have hlast := hfiles.last_eq
  have htail : tail ≠ [] := by
    rintro rfl
    rw [List.length_nil] at hlast
    omega
  have hclosed := hlayout.close htail
  have hinsert : insertSegment a.close s.closed = s.closed ++ [a.close] := by
    have hbefore : ∀ t ∈ s.closed, t.firstIndex < a.close.firstIndex := by
      intro t ht
      have := hlayout.chain.bounds ht
      show t.firstIndex < a.firstIndex
      omega
    exact insertSegment_last (fun t ht => (hbefore t ht).ne) hbefore
  have hrun : s.rollActiveSegment.Yields _ _ :=
    (yields_ofOption ha).bind_nil
      ((yields_closeActiveSegment hfiles hactive).bind
        ((yields_createActiveSegment s.limits (s.lastIndex + 1) _).bind
          (yields_pure _)))
  rw [h.lastIndex_eq] at hrun
  have hreg : (s.dir.relocate a.dataName a.metaName a.close.dataName a.close.metaName).Registers
      l := h.registers.congr fun name hname => relocate_of_ne
    (a.dataName_ne_register hname).symm (a.metaName_ne_register hname).symm
    (a.close.dataName_ne_register hname).symm (a.close.metaName_ne_register hname).symm
  have hnext : l.lastIndex + 1 = base + (ces ++ tail).length := by
    rw [List.length_append]
    omega
  rw [← List.append_nil (ces ++ tail)] at hentries
  refine ⟨_, _, _, hrun, ?_, ?_, rfl⟩
  · exact holds_creating s.limits hreg hclosed hentries hnext
  · have hrep := represents_created s.limits hreg hclosed hentries hnext
    rw [hinsert, h.firstIndex_eq, h.currentTerm_eq, h.voteFor_eq]
    exact hrep

/-- Appending to an active segment that has room. -/
theorem Represents.exists_yields_appendToActive (h : s.Represents env l) (ha : s.active = some a)
    (hne : es ≠ []) (hindex : ∀ j e, es[j]? = some e → e.index = l.lastIndex + 1 + j)
    (hknown : ∀ e ∈ es, env.Knows e) (hroom : ¬ a.shouldRoll env es) :
    ∃ ws s', (s.appendToActive env es).Yields ws s' ∧
      s'.Represents env (l.appendBatch es hindex) := by
  obtain ⟨base, ces, tail, hlayout, hentries, hdata, hmeta⟩ := h.layout_of_active ha
  obtain ⟨hactive, hfirst, hfiles⟩ := hlayout.active_files a rfl
  have hend := hlayout.lastIndex_eq hentries
  have hlast := hfiles.last_eq
  have hlen := List.length_pos_iff.mpr hne
  have hle := hlayout.first_le
  have hnext : ∀ j e, es[j]? = some e → e.index = a.lastIndex + 1 + j := by
    intro j e he
    rw [hindex j e he]
    omega
  obtain ⟨ws, d', hrun, hfiles', hframe⟩ :=
    yields_appendEntries hfiles hactive hnext hknown hroom
  have hlayout' : Layout env d' l.firstIndex base s.closed (some (a.extend env es)) ces
      (tail ++ es) := by
    refine hlayout.setActive hactive hfirst hfiles' ?_ ?_
    · intro name hd hm
      refine hframe name ?_ ?_
      · rwa [dataName_of_active hactive]
      · rwa [metaName_of_active hactive]
    · intro hnil
      refine Or.inr ?_
      rw [List.length_append]
      rcases hlayout.reach_active hnil with ⟨-, heq⟩ | hlt <;> omega
  refine ⟨_, _, (yields_ofOption ha).bind_nil (hrun.bind (yields_pure _)), ?_,
    h.firstIndex_eq, ?_, h.currentTerm_eq, h.voteFor_eq, base, _, ces, tail ++ es, rfl, hlayout',
    ?_, hdata, hmeta⟩
  · exact (h.registers.congr fun name hname => hframe name (a.dataName_ne_register hname).symm
      (a.metaName_ne_register hname).symm).of_log rfl rfl rfl
  · have := (l.appendBatch es hindex).lastIndex_add_one
    have := l.lastIndex_add_one
    simp only [appendBatch, List.length_append] at *
    rw [h.lastIndex_eq]
    omega
  · show l.entries ++ es = (ces ++ (tail ++ es)).drop (l.firstIndex - base)
    rw [hentries, ← List.append_assoc, ← List.drop_append_of_le_length]
    rw [List.length_append]
    omega

/-- **Appending a batch** that fits an empty segment. -/
theorem Represents.exists_yields_appendEntries (h : s.Represents env l)
    (hindex : ∀ j e, es[j]? = some e → e.index = l.lastIndex + 1 + j)
    (hknown : ∀ e ∈ es, env.Knows e) (hfits : s.limits.Fits env es) :
    ∃ ws s', (s.appendEntries env es).Yields ws (s', true) ∧
      s'.Represents env (l.appendBatch es hindex) := by
  cases es with
  | nil =>
    refine ⟨_, _, yields_pure _, ?_⟩
    have hsame : l.appendBatch [] hindex = l := by simp [appendBatch]
    rw [hsame]
    exact h
  | cons e es =>
    have hhead : ¬ e.index ≠ s.lastIndex + 1 := by
      rw [h.lastIndex_eq, not_not, hindex 0 e rfl]
    obtain ⟨base, a, ces, tail, ha, hlayout, -, hdata, hmeta⟩ := h.layout
    obtain ⟨-, -, hfiles⟩ := hlayout.active_files a rfl
    by_cases hroll : a.shouldRoll env (e :: es)
    · -- an empty segment would have had room
      have hne := hfits.nonempty_of_shouldRoll hfiles hdata hmeta hroll
      obtain ⟨d₁, ws₁, s₁, hrun₁, -, hrep₁, ha₁⟩ := h.exists_yields_rollActiveSegment ha hne
      obtain ⟨ws₂, s₂, hrun₂, hrep₂⟩ :=
        hrep₁.exists_yields_appendToActive ha₁ (List.cons_ne_nil e es) hindex hknown
          (hfits.not_shouldRoll_fresh _)
      refine ⟨(d₁ :: ws₁) ++ (ws₂ ++ []), s₂, ?_, hrep₂⟩
      rw [appendEntries, if_neg hhead]
      refine (yields_ofOption ha).bind_nil ?_
      rw [if_pos hroll]
      exact hrun₁.bind (hrun₂.bind (yields_pure _))
    · obtain ⟨ws, s', hrun, hrep⟩ :=
        h.exists_yields_appendToActive ha (List.cons_ne_nil e es) hindex hknown hroll
      refine ⟨ws ++ [], s', ?_, hrep⟩
      rw [appendEntries, if_neg hhead]
      refine (yields_ofOption ha).bind_nil ?_
      rw [if_neg hroll]
      exact (yields_pure _).bind_nil (hrun.bind (yields_pure _))

/-- A batch with another first index is refused. -/
theorem yields_appendEntries_refused (hne : e.index ≠ s.lastIndex + 1) :
    (s.appendEntries env (e :: es)).Yields [] (s, false) := by
  rw [appendEntries, if_pos hne]
  exact yields_pure _

/-! ## Truncating a prefix -/

/-- The registers when the first index has been written. -/
theorem Represents.registers_truncatePrefix (h : s.Represents env l) (hk : l.firstIndex ≤ k)
    (hval : d .firstIndex = some (.number k))
    (hframe : ∀ n, n ≠ .firstIndex → n ≠ .tmp .firstIndex → d n = s.dir n) :
    d.Registers (l.truncatePrefix k) where
  term_eq := by
    rw [number_congr (hframe _ (by simp) (by simp)), truncatePrefix_currentTerm]
    exact h.registers.term_eq
  vote_eq := by
    rw [number_congr (hframe _ (by simp) (by simp)), truncatePrefix_voteFor]
    exact h.registers.vote_eq
  first_eq := by
    rw [truncatePrefix_firstIndex, Nat.max_eq_right hk]
    exact number_of_eq hval

/-- **Truncating a prefix** of a log that reaches the new first index. The directory holds the old
log or the new one all the time. -/
theorem Represents.exists_yields_truncatePrefix {k : ℕ} (h : s.Represents env l)
    (hk : k ≤ l.lastIndex) :
    ∃ ws s', (s.truncatePrefix k).Yields ws s' ∧ s'.Represents env (l.truncatePrefix k) ∧
      ∀ w ∈ ws, w.Holds env l ∨ w.Holds env (l.truncatePrefix k) := by
  rw [truncatePrefix]
  by_cases hle : k ≤ s.firstIndex
  · rw [if_pos hle]
    rw [h.firstIndex_eq] at hle
    refine ⟨_, _, yields_pure _, ?_, by simp⟩
    rw [Log.truncatePrefix, dif_neg (Nat.not_lt.mpr hle)]
    exact h
  · rw [if_neg hle]
    rw [h.firstIndex_eq] at hle
    have hlt := Nat.not_le.mp hle
    obtain ⟨d₁, d₂, hrun, htmp, hval, hframe⟩ := s.dir.yields_setFileContentWithSync .firstIndex k
    obtain ⟨base, a, ces, tail, ha, hlayout, hentries, hdata, hmeta⟩ :=
      h.layout_of_register (Or.inr (Or.inr rfl)) hframe
    have hend := hlayout.lastIndex_eq hentries
    have hbelow := hlayout.base_le
    obtain ⟨base', ces₁, ces₂, rfl, rfl, hlayout', hreach⟩ := hlayout.advance hlt.le (by omega)
    have hbase := hlayout'.base_le
    have hfirst : (l.truncatePrefix k).firstIndex = k := by
      rw [truncatePrefix_firstIndex, Nat.max_eq_right hlt.le]
    have hrep : Represents env { s with
        dir := d₂
        firstIndex := k
        closed := s.closed.dropWhile fun t => t.lastIndex < k } (l.truncatePrefix k) := by
      refine ⟨h.registers_truncatePrefix hlt.le hval hframe, hfirst.symm, ?_, ?_, ?_,
        base + ces₁.length, a, ces₂, tail, ha, ?_, ?_, hdata, hmeta⟩
      · show s.lastIndex = (l.truncatePrefix k).lastIndex
        have h1 := (l.truncatePrefix k).lastIndex_add_one
        have h2 := l.lastIndex_add_one
        rw [hfirst, truncatePrefix_entries, List.length_drop] at h1
        rw [h.lastIndex_eq]
        omega
      · rw [truncatePrefix_currentTerm]
        exact h.currentTerm_eq
      · rw [truncatePrefix_voteFor]
        exact h.voteFor_eq
      · rw [hfirst]
        exact hlayout'
      · rw [hfirst, truncatePrefix_entries, hentries, List.drop_drop, List.append_assoc,
          List.drop_append, List.drop_eq_nil_of_le (by omega), List.nil_append]
        congr 1
        omega
    have hwrites : ∀ w ∈ [d₁, d₂] ++ [], w.Holds env l ∨ w.Holds env (l.truncatePrefix k) := by
      intro w hw
      rcases List.mem_pair.mp hw with rfl | rfl
      · exact Or.inl (h.holds.of_tmp htmp)
      · exact Or.inr hrep.holds
    by_cases hnil : (s.closed.dropWhile fun t => t.lastIndex < k) = []
    · refine ⟨[d₁, d₂] ++ [], _, hrun.bind ?_, hrep, hwrites⟩
      rw [if_neg (not_not.mpr hnil)]
      refine (yields_ofOption ha).bind_nil ?_
      rw [if_neg (Nat.not_lt.mpr (hreach hnil))]
      exact yields_pure _
    · refine ⟨[d₁, d₂] ++ [], _, hrun.bind ?_, hrep, hwrites⟩
      rw [if_pos hnil]
      exact yields_pure _

/-! ## Truncating a suffix -/

/-- An object represents a log, but has no active segment. -/
structure Inactive (env : StorageEnv) (s : SegmentLog) (l : Log) : Prop where
  active_eq : s.active = none
  registers : s.dir.Registers l
  firstIndex_eq : s.firstIndex = l.firstIndex
  lastIndex_eq : s.lastIndex = l.lastIndex
  currentTerm_eq : s.currentTerm = l.currentTerm
  voteFor_eq : s.voteFor = l.voteFor
  layout : ∃ base ces, Layout env s.dir l.firstIndex base s.closed none ces [] ∧
    l.entries = (ces ++ []).drop (l.firstIndex - base)

theorem Inactive.holds (h : s.Inactive env l) : s.dir.Holds env l := by
  obtain ⟨base, ces, hlayout, hentries⟩ := h.layout
  exact ⟨h.registers, base, s.closed, none, ces, [], hlayout, hentries⟩

/-- An active segment is created if there is none. -/
theorem yields_ensureActive_of_none (h : s.active = none) :
    s.ensureActive.Yields (creating s.limits (s.lastIndex + 1) s.dir) { s with
      dir := created s.limits.dataSize s.limits.metaSize (s.lastIndex + 1) s.dir
      active := some (fresh s.limits.dataSize s.limits.metaSize (s.lastIndex + 1)) } := by
  rw [ensureActive, h, ← List.append_nil (creating _ _ _)]
  exact (yields_createActiveSegment s.limits (s.lastIndex + 1) s.dir).bind
    (yields_pure _)

/-- The new active segment makes the object complete. The directory holds the log all the time. -/
theorem Inactive.exists_yields_ensureActive (h : s.Inactive env l) :
    ∃ ws s', s.ensureActive.Yields ws s' ∧ s'.Represents env l ∧ ∀ w ∈ ws, w.Holds env l := by
  obtain ⟨base, ces, hlayout, hentries⟩ := h.layout
  have hend := hlayout.lastIndex_eq hentries
  refine ⟨_, _, yields_ensureActive_of_none h.active_eq, ?_, ?_⟩
  · rw [h.firstIndex_eq, h.lastIndex_eq, h.currentTerm_eq, h.voteFor_eq]
    exact represents_created s.limits h.registers hlayout hentries hend
  · intro w hw
    rw [h.lastIndex_eq] at hw
    exact holds_creating s.limits h.registers hlayout hentries hend w (List.mem_cons_of_mem _ hw)

/-- There is nothing to do if there is an active segment. -/
theorem yields_ensureActive_of_isSome (h : s.active.isSome = true) :
    s.ensureActive.Yields [] s := by
  obtain ⟨a, ha⟩ := Option.isSome_iff_exists.mp h
  rw [ensureActive, ha]
  exact yields_pure _

section Suffix

variable {k : ℕ} {a : Segment} {base : ℕ} {ces tail : List LogEntry}

/-- What is left of the entries when an end of the log is cut off. -/
theorem entries_truncateSuffix (hlayout : Layout env s.dir l.firstIndex base s.closed (some a) ces
      tail) (hentries : l.entries = (ces ++ tail).drop (l.firstIndex - base))
    (hk : l.firstIndex ≤ k + 1) :
    (l.truncateSuffix k).entries =
      ((ces ++ tail).take (k + 1 - base)).drop ((l.truncateSuffix k).firstIndex - base) := by
  have hbase := hlayout.base_le
  rw [truncateSuffix_entries, truncateSuffix_firstIndex hk, hentries, List.drop_take]
  congr 1
  omega

/-- The active segment is cut. -/
theorem Represents.yields_cutSuffix_active (h : s.Represents env l) (ha : s.active = some a)
    (clock : ℕ → ℕ) (hk : l.firstIndex ≤ k) (hk' : k < l.lastIndex) (hcut : a.firstIndex ≤ k) :
    ∃ s', (s.cutSuffix k clock).Yields [s'.dir] s' ∧ s'.active.isSome = true ∧
      s'.Represents env (l.truncateSuffix k) := by
  obtain ⟨base, ces, tail, hlayout, hentries, hdata, hmeta⟩ := h.layout_of_active ha
  obtain ⟨hactive, hfirst, hfiles⟩ := hlayout.active_files a rfl
  have hend := hlayout.lastIndex_eq hentries
  have hlast := hfiles.last_eq
  obtain ⟨-, records, -, hrecords, -⟩ := hfiles.files
  obtain ⟨hrun, hfiles'⟩ := yields_truncateSuffix_active hfiles hrecords hcut (by omega)
    hactive
  have hlayout' := hlayout.setActive (a := a.truncated env k tail) hactive hfirst hfiles'
    (fun name _ hm => set_of_ne (by rwa [metaName_of_active hactive]))
    (fun hnil => by
      have hces : ces.length = 0 := by rw [hlayout.chain.eq_nil_iff.mp hnil, List.length_nil]
      refine Or.inr ?_
      rw [List.length_take]
      omega)
  have hk₁ : l.firstIndex ≤ k + 1 := hk.trans (Nat.le_succ k)
  refine ⟨{ s with
      lastIndex := k
      dir := s.dir.set a.metaName (.records (cleared k a records))
      active := some (a.truncated env k tail) }, ?_, rfl, ?_⟩
  · rw [cutSuffix]
    refine (yields_ofOption ha).bind_nil ?_
    rw [if_pos hcut, if_pos (by rw [h.firstIndex_eq]; exact hk)]
    exact hrun.bind (yields_pure _)
  · refine ⟨?_, ?_, ?_, ?_, ?_, base, _, ces,
      tail.take (k + 1 - a.firstIndex), rfl, ?_, ?_, hdata, hmeta⟩
    · refine (h.registers.congr fun name hname =>
        set_of_ne (a.metaName_ne_register hname).symm).of_log ?_ ?_ ?_
      · exact truncateSuffix_currentTerm
      · exact truncateSuffix_voteFor
      · exact truncateSuffix_firstIndex hk₁
    · rw [truncateSuffix_firstIndex hk₁]
      exact h.firstIndex_eq
    · exact (lastIndex_truncateSuffix hk₁ hk'.le).symm
    · rw [truncateSuffix_currentTerm]
      exact h.currentTerm_eq
    · rw [truncateSuffix_voteFor]
      exact h.voteFor_eq
    · rw [truncateSuffix_firstIndex hk₁]
      exact hlayout'
    · rw [entries_truncateSuffix hlayout hentries hk₁, List.take_append,
        List.take_of_length_le (by omega), hfirst]
      congr 3
      omega

/-- The object when the active segment has been dropped. -/
theorem Represents.inactive_of {closed : List Segment} (h : s.Represents env l)
    (hk : l.firstIndex ≤ k + 1) (hk' : k < l.lastIndex)
    (hframe : ∀ name : FileName, name.IsRegister → d' name = s.dir name)
    (hlayout : Layout env d' l.firstIndex base closed none ces [])
    (hentries : (l.truncateSuffix k).entries = ces.drop (l.firstIndex - base)) :
    Inactive env { s with dir := d', lastIndex := k, closed := closed, active := none }
      (l.truncateSuffix k) := by
  have hfirst := truncateSuffix_firstIndex hk
  refine ⟨rfl, ?_, ?_, (lastIndex_truncateSuffix hk hk'.le).symm, ?_, ?_, base, ces, ?_, ?_⟩
  · exact (h.registers.congr hframe).of_log truncateSuffix_currentTerm
      truncateSuffix_voteFor hfirst
  · rw [hfirst]
    exact h.firstIndex_eq
  · rw [truncateSuffix_currentTerm]
    exact h.currentTerm_eq
  · rw [truncateSuffix_voteFor]
    exact h.voteFor_eq
  · rw [hfirst]
    exact hlayout
  · rwa [hfirst, List.append_nil]

/-- Nothing is kept, and all segments are dropped. -/
theorem Represents.yields_cutSuffix_all (h : s.Represents env l) (ha : s.active = some a)
    (clock : ℕ → ℕ) (hk : k < l.firstIndex) :
    ∃ ws d' first, (s.cutSuffix k clock).Yields ws
        { s with dir := d', firstIndex := first, lastIndex := k, closed := [], active := none } ∧
      (first = k + 1 ∨ first = s.firstIndex) ∧ Drops (a :: s.closed.reverse) s.dir ws d' := by
  obtain ⟨base, ces, tail, hlayout, -⟩ := h.layout_of_active ha
  obtain ⟨ws, d', hrun, hdrops⟩ := yields_dropSegments clock 0
    (fun t ht => hlayout.describes_mem (by simpa using ht)) hlayout.pairwise_apart
  have habove : ¬ s.firstIndex ≤ k := by
    rw [h.firstIndex_eq]
    omega
  suffices hcut : ∃ first, (s.cutSuffix k clock).Yields (ws ++ [])
      { s with dir := d', firstIndex := first, lastIndex := k, closed := [], active := none } ∧
      (first = k + 1 ∨ first = s.firstIndex) by
    obtain ⟨first, hcut, hfirst⟩ := hcut
    exact ⟨ws, d', first, List.append_nil ws ▸ hcut, hfirst, hdrops⟩
  rw [cutSuffix]
  by_cases hcut : a.firstIndex ≤ k
  · -- a closed segment would not reach the log
    have hclosed : s.closed = [] := by
      by_contra hne
      obtain ⟨t, ht⟩ := List.exists_mem_of_ne_nil _ hne
      have := hlayout.reach t ht
      have := hlayout.lt_active rfl ht
      omega
    refine ⟨s.firstIndex, (yields_ofOption ha).bind_nil ?_, Or.inr rfl⟩
    rw [hclosed, List.reverse_nil] at hrun
    rw [if_pos hcut, if_neg habove, hclosed]
    exact hrun.bind (yields_pure _)
  · have hsplit : (s.closed.rdropWhile fun t => decide (k < t.firstIndex)) ++
        (s.closed.rtakeWhile fun t => decide (k < t.firstIndex)) = s.closed :=
      List.rdropWhile_append_rtakeWhile
    cases hlast : (s.closed.rdropWhile fun t => decide (k < t.firstIndex)).getLast? with
    | none =>
      refine ⟨k + 1, (yields_ofOption ha).bind_nil ?_, Or.inl rfl⟩
      have hkept := List.getLast?_eq_none_iff.mp hlast
      rw [hkept, List.nil_append] at hsplit
      rw [if_neg hcut]
      simp only [hkept, hsplit, if_true]
      exact hrun.bind (yields_pure _)
    | some x =>
      refine ⟨s.firstIndex, (yields_ofOption ha).bind_nil ?_, Or.inr rfl⟩
      -- it is the only one: a segment below it would not reach the log
      obtain ⟨ss, hkept⟩ := List.getLast?_eq_some_iff.mp hlast
      have hx : x.firstIndex ≤ k := by
        have hnot := not_of_getLast?_rdropWhile hlast
        simpa only [decide_eq_true_eq, Nat.not_lt] using hnot
      rw [hkept] at hsplit
      have hss : ss = [] := by
        by_contra hne
        obtain ⟨t, ht⟩ := List.exists_mem_of_ne_nil _ hne
        have hpair := hlayout.chain.pairwise
        have hmem : t ∈ s.closed := by
          rw [← hsplit]
          simp [ht]
        rw [← hsplit, List.append_assoc] at hpair
        have := (List.pairwise_append.mp hpair).2.2 t ht x (by simp)
        have := hlayout.reach t hmem
        omega
      subst hss
      have hdrop : a :: ((s.closed.rtakeWhile fun t => decide (k < t.firstIndex)).reverse ++ [x]) =
          a :: s.closed.reverse := by
        conv_rhs => rw [← hsplit, List.reverse_append]
        rfl
      rw [List.nil_append] at hkept
      rw [if_neg hcut]
      simp only [hkept, List.cons_ne_nil, if_false, habove, List.cons_append,
        List.getLast?_singleton, List.dropLast_singleton, hdrop]
      exact hrun.bind (yields_pure _)

/-- A closed segment is cut, and the ones behind it are dropped. -/
theorem Represents.yields_cutSuffix_closed (h : s.Represents env l) (ha : s.active = some a)
    (clock : ℕ → ℕ) (hk : l.firstIndex ≤ k) (hk' : k < l.lastIndex) (hcut : k < a.firstIndex) :
    ∃ ss₁ x ss₂ ws₁ d₁ x' ws₂ s', s.closed = ss₁ ++ x :: ss₂ ∧ x.firstIndex ≤ k ∧
      k ≤ x.lastIndex ∧ (∀ t ∈ ss₂, k < t.firstIndex) ∧
      (x.truncateSuffix k s.dir).Yields ws₁ (d₁, x') ∧ Trail s.dir ws₁ d₁ ∧
      Drops (a :: ss₂.reverse) d₁ ws₂ s'.dir ∧ (s.cutSuffix k clock).Yields (ws₁ ++ ws₂) s' ∧
      s'.Inactive env (l.truncateSuffix k) := by
  obtain ⟨base, ces, tail, hlayout, hentries, -, -⟩ := h.layout_of_active ha
  obtain ⟨hactive, hfirst, -⟩ := hlayout.active_files a rfl
  have hbase := hlayout.base_le
  obtain ⟨ss₁, x, ss₂, es₁, c, es₂, hclosed, rfl, hchain, hxc, hxf, hne, hfiles, hrest, hxk,
    hxk'⟩ := hlayout.chain.split (hbase.trans hk) (by omega)
  have hxlast := hfiles.last_eq
  -- the segments behind the index
  have habove : ∀ t ∈ ss₂, k < t.firstIndex := by
    intro t ht
    have := (hrest.bounds ht).2.1
    omega
  have hkept : (s.closed.rdropWhile fun t => decide (k < t.firstIndex)) = ss₁ ++ [x] := by
    rw [hclosed]
    exact rdropWhile_append_cons (by simpa using hxk) fun t ht => decide_eq_true (habove t ht)
  have htaken : (s.closed.rtakeWhile fun t => decide (k < t.firstIndex)) = ss₂ := by
    rw [hclosed]
    exact rtakeWhile_append_cons (by simpa using hxk) fun t ht => decide_eq_true (habove t ht)
  obtain ⟨ws₁, d₁, x', hrun₁, htrail₁, hxc', hxf', hxl', hfiles', hgone, hframe⟩ :=
    exists_yields_truncateSuffix hfiles hxc hxk hxk'
  have hk₁ : l.firstIndex ≤ k + 1 := hk.trans (Nat.le_succ k)
  have hleft := entries_truncateSuffix hlayout hentries hk₁
  rw [hclosed] at hlayout
  -- the segments to be dropped are as before
  have hapart : ∀ t ∈ a :: ss₂.reverse, ∀ u ∈ [x, x'], t.Apart u := by
    intro t ht u hu
    have hu' : u.isActive = false ∧ u.firstIndex = x.firstIndex := by
      rcases List.mem_pair.mp hu with rfl | rfl
      · exact ⟨hxc, rfl⟩
      · exact ⟨hxc', hxf'⟩
    rcases List.mem_cons.mp ht with rfl | ht
    · exact apart_of_kind hactive hu'.1
    · have hlt := habove t (List.mem_reverse.mp ht)
      exact apart_of_first (by omega)
  have hsame : ∀ t ∈ a :: ss₂.reverse, ∃ c, t.Describes env d₁ c := by
    intro t ht
    obtain ⟨c', hc'⟩ := hlayout.describes_mem (s := t) (by
      rcases List.mem_cons.mp ht with rfl | ht
      · exact List.mem_cons_self
      · simp [List.mem_reverse.mp ht])
    exact ⟨c', (Keeps.of_frame_pair hframe).describes hc' (hapart t ht)⟩
  have hpair : (a :: ss₂.reverse).Pairwise Segment.Apart := by
    refine hlayout.pairwise_apart.sublist ((List.Sublist.cons_cons a) ?_)
    rw [List.reverse_append, List.reverse_cons, List.append_assoc]
    exact List.sublist_append_left _ _
  obtain ⟨ws₂, d', hrun₂, hdrops⟩ := yields_dropSegments clock 0 hsame hpair
  have hdropped := hdrops.dropped
  have hcne : c.take (k + 1 - x.firstIndex) ≠ [] := by
    intro hnil
    have hlen := congrArg List.length hnil
    rw [List.length_take, List.length_nil] at hlen
    omega
  have hlayout' := hlayout.cut hchain hxf hxc' hxf' hcne hfiles' (hxl' ▸ hk) hgone hframe hdropped
    (by simp)
  have hreg : ∀ name : FileName, name.IsRegister → d' name = s.dir name := fun name hname =>
    (hdropped.register hname).trans (hframe name (x.dataName_ne_register hname).symm
      (x.metaName_ne_register hname).symm (x'.dataName_ne_register hname).symm
      (x'.metaName_ne_register hname).symm)
  have hentries' : (l.truncateSuffix k).entries =
      (es₁ ++ c.take (k + 1 - x.firstIndex)).drop (l.firstIndex - base) := by
    rw [hleft, truncateSuffix_firstIndex hk₁, List.append_assoc, List.take_append,
      List.take_of_length_le (by omega), List.append_assoc,
      List.take_append_of_le_length (by omega)]
    congr 3
    omega
  have hinactive := h.inactive_of hk₁ hk' hreg hlayout' hentries'
  refine ⟨ss₁, x, ss₂, ws₁, d₁, x', ws₂,
    { s with dir := d', lastIndex := k, closed := ss₁ ++ [x'], active := none }, hclosed, hxk, hxk',
    habove, hrun₁, htrail₁, hdrops, ?_, hinactive⟩
  rw [cutSuffix, ← List.append_nil ws₂]
  refine (yields_ofOption ha).bind_nil ?_
  have hnil : ss₁ ++ [x] ≠ [] := by simp
  have hle : s.firstIndex ≤ k := by
    rw [h.firstIndex_eq]
    exact hk
  rw [if_neg (Nat.not_le.mpr hcut)]
  simp only [hkept, htaken, hnil, if_false, hle, if_true, List.getLast?_concat,
    List.dropLast_concat]
  exact hrun₁.bind (hrun₂.bind (yields_pure _))

/-- **The segments are cut** in one of three ways. Only the first, which is one call, keeps the
active segment. -/
theorem Represents.exists_yields_cutSuffix (h : s.Represents env l) (clock : ℕ → ℕ)
    (hk : l.firstIndex ≤ k + 1) (hk' : k < l.lastIndex) :
    ∃ ws s', (s.cutSuffix k clock).Yields ws s' ∧ Trail s.dir ws s'.dir ∧
      (s'.active.isSome = true ∧ s'.Represents env (l.truncateSuffix k) ∨
        s'.Inactive env (l.truncateSuffix k)) := by
  obtain ⟨base, a, ces, tail, ha, hlayout, -⟩ := h.layout
  rcases Nat.lt_or_ge k l.firstIndex with hlt | hge
  · obtain ⟨ws, d', first, hrun, hfirst, hdrops⟩ := h.yields_cutSuffix_all ha clock hlt
    obtain rfl : first = s.firstIndex := by
      rw [h.firstIndex_eq] at hfirst ⊢
      omega
    have hnil : (l.truncateSuffix k).entries =
        ([] : List LogEntry).drop (l.firstIndex - l.firstIndex) := by
      rw [truncateSuffix_entries, List.drop_nil, Nat.sub_eq_zero_of_le (by omega),
        List.take_zero]
    exact ⟨ws, _, hrun, hdrops.trail, Or.inr (h.inactive_of hk hk'
      (fun _ => hdrops.dropped.register) (hlayout.clear hdrops.dropped (by simp)) hnil)⟩
  · by_cases hcut : a.firstIndex ≤ k
    · obtain ⟨s', hrun, hactive, hs'⟩ := h.yields_cutSuffix_active ha clock hge hk' hcut
      exact ⟨_, s', hrun, rfl, Or.inl ⟨hactive, hs'⟩⟩
    · obtain ⟨-, -, ss₂, ws₁, d₁, -, ws₂, s', -, -, -, -, -, htrail, hdrops, hrun, hs'⟩ :=
        h.yields_cutSuffix_closed ha clock hge hk' (Nat.not_le.mp hcut)
      exact ⟨_, s', hrun, htrail.append hdrops.trail, Or.inr hs'⟩

/-- **Truncating a suffix.** When the segments have been cut the directory holds the new log. -/
theorem Represents.exists_yields_truncateSuffix (h : s.Represents env l) (clock : ℕ → ℕ)
    (hk : l.firstIndex ≤ k + 1) (hk' : k < l.lastIndex) :
    ∃ ws vs s₁ s', (s.cutSuffix k clock).Yields ws s₁ ∧
      (s.truncateSuffix k clock).Yields (ws ++ vs) s' ∧
      s'.Represents env (l.truncateSuffix k) ∧ Trail s.dir ws s₁.dir ∧
      ∀ w ∈ s₁.dir :: vs, w.Holds env (l.truncateSuffix k) := by
  have hlt : ¬ s.lastIndex ≤ k := by
    rw [h.lastIndex_eq]
    exact Nat.not_le.mpr hk'
  rw [truncateSuffix, if_neg hlt]
  obtain ⟨ws, s₁, hrun, htrail, hs₁⟩ := h.exists_yields_cutSuffix clock hk hk'
  rcases hs₁ with ⟨hactive, hs₁⟩ | hs₁
  · refine ⟨ws, [], s₁, s₁, hrun, hrun.bind (yields_ensureActive_of_isSome hactive), hs₁, htrail,
      ?_⟩
    intro w hw
    rw [List.mem_singleton.mp hw]
    exact hs₁.holds
  · obtain ⟨vs, s', hrun', hs', hholds⟩ := hs₁.exists_yields_ensureActive
    refine ⟨ws, vs, s₁, s', hrun, hrun.bind hrun', hs', htrail, ?_⟩
    intro w hw
    rcases List.mem_cons.mp hw with rfl | hw
    · exact hs₁.holds
    · exact hholds w hw

/-- A log that ends at the index or before is not touched. -/
theorem Represents.yields_truncateSuffix_of_le (h : s.Represents env l) (clock : ℕ → ℕ)
    (hk : l.lastIndex ≤ k) :
    (s.truncateSuffix k clock).Yields [] s ∧ l.truncateSuffix k = l := by
  constructor
  · rw [truncateSuffix, if_pos (by rwa [h.lastIndex_eq])]
    exact yields_pure _
  · rw [Log.truncateSuffix, if_neg (Nat.not_lt.mpr hk)]

end Suffix

/-! ## Reading -/

/-- An entry of the log is found in one of the segments. -/
theorem Represents.yields_getSegment (h : s.Represents env l) (hi : l.firstIndex ≤ i)
    (he : l.entries[i - l.firstIndex]? = some e) :
    ∃ t es, (s.getSegment i).Yields [] (some t) ∧ t.Describes env s.dir es ∧ t.firstIndex ≤ i ∧
      es[i - t.firstIndex]? = some e := by
  obtain ⟨base, a, ces, tail, ha, hlayout, hentries, -, -⟩ := h.layout
  obtain ⟨-, hfirst, hfiles⟩ := hlayout.active_files a rfl
  have hpos := l.first_pos
  have hbase := hlayout.base_le
  have hlast := l.lastIndex_add_one
  have hlen : i - l.firstIndex < l.entries.length := (List.getElem?_eq_some_iff.mp he).1
  have hnonempty : ¬ s.lastIndex = s.firstIndex - 1 := by
    rw [h.lastIndex_eq, h.firstIndex_eq]
    omega
  have hrange : ¬ (i < s.firstIndex ∨ s.lastIndex < i) := by
    rw [h.lastIndex_eq, h.firstIndex_eq]
    omega
  rw [hentries, List.getElem?_drop, show l.firstIndex - base + (i - l.firstIndex) = i - base by
    omega] at he
  rw [getSegment, if_neg hnonempty, if_neg hrange, ha]
  by_cases hin : a.firstIndex ≤ i
  · refine ⟨a, tail, ?_, hfiles, hin, ?_⟩
    · simp only [Option.filter_some, decide_eq_true_eq, if_pos hin]
      exact yields_pure _
    · rw [List.getElem?_append_right (by omega)] at he
      rwa [hfirst, Nat.sub_add_eq]
  · rw [List.getElem?_append_left (by omega)] at he
    obtain ⟨ss₁, x, ss₂, es₁, c, es₂, hclosed, rfl, -, -, hxf, -, hxfiles, hrest, hxi, hxi'⟩ :=
      hlayout.chain.split (hbase.trans hi) (by omega)
    have hxlast := hxfiles.last_eq
    refine ⟨x, c, ?_, hxfiles, hxi, ?_⟩
    · simp only [Option.filter_some, decide_eq_true_eq, if_neg hin]
      have hne : s.closed ≠ [] := by
        rw [hclosed]
        simp
      have hbehind : ss₂.filter (fun t => decide (t.firstIndex ≤ i)) = [] := by
        refine List.filter_eq_nil_iff.mpr fun t ht => ?_
        have := (hrest.bounds ht).2.1
        simp only [decide_eq_true_eq, Nat.not_le]
        omega
      refine (yields_check hne).bind_nil ?_
      have hfilter : s.closed.filter (fun t => decide (t.firstIndex ≤ i)) =
          ss₁.filter (fun t => decide (t.firstIndex ≤ i)) ++ [x] := by
        simp [hclosed, hbehind, hxi]
      rw [hfilter, List.getLast?_concat]
      exact yields_pure _
    · rw [List.getElem?_append_right (by omega), List.getElem?_append_left (by omega)] at he
      rwa [hxf, Nat.sub_add_eq]

/-- **The entries are those of the log.** -/
theorem Represents.yields_getEntry (h : s.Represents env l) (hi : l.Retains i) :
    (s.getEntry env i).Yields [] (l.getEntry i) := by
  obtain ⟨e, he⟩ := hi.exists_entries
  obtain ⟨t, c, hrun, hfiles, hti, hc⟩ := h.yields_getSegment hi.1 he
  rw [Log.getEntry, if_pos hi.1, he, getEntry]
  exact hrun.bind_nil (Segment.yields_getEntry hfiles.finds hti hc)

/-- **The terms are those of the log.** -/
theorem Represents.yields_getTerm (h : s.Represents env l) (hi : l.Retains i) :
    (s.getTerm i).Yields [] (l.getTerm i) := by
  obtain ⟨e, he⟩ := hi.exists_entries
  obtain ⟨t, c, hrun, hfiles, hti, hc⟩ := h.yields_getSegment hi.1 he
  have hpos := l.first_pos
  have hfirst := hi.1
  have hne : ¬ i = l.firstIndex - 1 := by omega
  rw [Log.getTerm, if_neg hne, Log.getEntry, if_pos hi.1, he, getTerm, h.firstIndex_eq, if_neg hne]
  exact hrun.bind_nil (Segment.yields_getTerm hfiles.finds hti hc)

end SegmentLog

end Gringofts
