import Gringofts.Storage.Sound

/-!
# Whatever is done to a log

`Represents` says that an object and its directory are those of a window, and the operations that
leave the range of the log break it. Something weaker survives every operation, whether or not it is
in the range: the directory is sound, the closed segments are a row, and an active segment that ends
with the log lies behind them. That is enough for the bounds of the segments, since all bounds are
read off the files.

The one thing that is asked of a run is that there is room for what is appended.

## Main definitions

* `SegmentLog.Tidy` — what every operation keeps
* `SegmentLog.Room`, `SegmentLog.Reached` — the runs

## Main results

* `SegmentLog.Tidy.step` — one operation
* `SegmentLog.Reached.tidy` — every run
-/

namespace Gringofts

open Outcome Directory Segment

variable {env : StorageEnv} {d d' : Directory} {closed : List Segment} {first last k : ℕ}
  {s' : SegmentLog} {ws : List Directory} {b : Bool}

namespace SegmentLog

/-! ## The invariant -/

/-- What every operation keeps. -/
structure Tidy (env : StorageEnv) (s : SegmentLog) : Prop where
  sound : s.dir.Sound env
  first_pos : 1 ≤ s.firstIndex
  register_pos : ∀ n, s.dir.number .firstIndex 1 = some n → 1 ≤ n
  active : ∃ a es, s.active = some a ∧ a.isActive = true ∧ a.lastIndex = s.lastIndex ∧
    a.Describes env s.dir es ∧ Row env s.dir s.closed a.firstIndex ∧
    s.limits.dataSize ≤ a.dataSizeLimit ∧ s.limits.metaSize ≤ a.metaSizeLimit

/-- The active segment is the one that the object has. -/
theorem Tidy.active_of {s : SegmentLog} {a : Segment} (h : s.Tidy env) (ha : s.active = some a) :
    ∃ es, a.isActive = true ∧ a.lastIndex = s.lastIndex ∧ a.Describes env s.dir es ∧
      Row env s.dir s.closed a.firstIndex ∧ s.limits.dataSize ≤ a.dataSizeLimit ∧
      s.limits.metaSize ≤ a.metaSizeLimit := by
  obtain ⟨a', es, ha', hrest⟩ := h.active
  obtain rfl : a = a' := Option.some.inj (ha.symm.trans ha')
  exact ⟨es, hrest⟩

/-- A new active segment behind a row makes the object tidy. -/
theorem tidy_created (limits : SegmentLimits) (currentTerm voteFor : ℕ) (hsound : d.Sound env)
    (hfirst : 1 ≤ first) (hreg : ∀ n, d.number .firstIndex 1 = some n → 1 ≤ n)
    (hrow : Row env d closed (last + 1)) :
    Tidy env ⟨created limits.dataSize limits.metaSize (last + 1) d, limits, first, last,
      currentTerm, voteFor, closed,
      some (fresh limits.dataSize limits.metaSize (last + 1))⟩ := by
  have hkeeps := Directory.Keeps.created limits.dataSize limits.metaSize (last + 1) d
  have hfresh : Segment.Describes env (created limits.dataSize limits.metaSize (last + 1) d)
      (fresh limits.dataSize limits.metaSize (last + 1)) [] :=
    describes_fresh_created (last + 1) (Nat.le_add_left 1 last) d
  refine ⟨hsound.of_keeps hkeeps fun t ht => Or.inr ?_, hfirst, fun n hn => hreg n ?_, _, [], rfl,
    rfl, rfl, hfresh, ?_, le_rfl, le_rfl⟩
  · obtain rfl := List.mem_singleton.mp ht
    exact ⟨_, [], rfl, hfresh⟩
  · rwa [number_congr (created_of_ne _ (by simp) (by simp))] at hn
  · exact hrow.of_keeps hkeeps (hrow.apart_active rfl)

/-! ## Appending -/

/-- There is room for a batch: the active segment takes it, or a new one does. -/
def Room (env : StorageEnv) (s : SegmentLog) (es : List LogEntry) : Prop :=
  (∀ a ∈ s.active, ¬ a.shouldRoll env es) ∨ s.limits.Fits env es

/-- The object after the active segment has been rolled. -/
def rolled (s : SegmentLog) (a : Segment) : SegmentLog :=
  { s with
    dir := created s.limits.dataSize s.limits.metaSize (s.lastIndex + 1)
      (s.dir.relocate a.dataName a.metaName a.close.dataName a.close.metaName)
    closed := s.closed ++ [a.close]
    active := some (fresh s.limits.dataSize s.limits.metaSize (s.lastIndex + 1)) }

variable {s : SegmentLog} {a : Segment} {es : List LogEntry}

theorem Tidy.exists_yields_roll (h : s.Tidy env) (ha : s.active = some a) :
    ∃ ws, s.rollActiveSegment.Yields ws (s.rolled a) := by
  obtain ⟨es, hactive, -, hfiles, hrow, -⟩ := h.active_of ha
  have hlt : ∀ t ∈ s.closed, t.firstIndex < a.close.firstIndex := fun t ht =>
    (hrow.files t ht).2.1.trans_lt (hrow.below t ht)
  have hinsert := insertSegment_last (fun t ht => (hlt t ht).ne) hlt
  rw [SegmentLog.rolled, ← hinsert]
  exact ⟨_, (yields_ofOption ha).bind_nil
    ((yields_closeActiveSegment hfiles hactive).bind
      ((yields_createActiveSegment s.limits (s.lastIndex + 1) _).bind
        (yields_pure _)))⟩

/-- A segment that is rolled must have entries. -/
theorem Tidy.rolled (h : s.Tidy env) (ha : s.active = some a) (hne : a.firstIndex ≤ a.lastIndex) :
    (s.rolled a).Tidy env := by
  obtain ⟨es, hactive, hlast, hfiles, hrow, -⟩ := h.active_of ha
  have hkeeps := Directory.Keeps.close a s.dir
  have hclosed := hfiles.close hactive
  have hapart : ∀ t ∈ s.closed, ∀ u ∈ [a, a.close], t.Apart u := by
    intro t ht u hu
    refine hrow.apart_first ?_ t ht
    rcases List.mem_pair.mp hu with rfl | rfl
    · exact le_rfl
    · exact le_rfl
  refine tidy_created s.limits s.currentTerm s.voteFor (h.sound.of_keeps hkeeps ?_) h.first_pos
    ?_ ?_
  · intro t ht
    rcases List.mem_pair.mp ht with rfl | rfl
    · exact Or.inl relocate_records
    · exact Or.inr ⟨_, es, rfl, hclosed⟩
  · intro n hn
    refine h.register_pos n ?_
    rwa [number_congr (relocate_of_ne a.firstIndex_ne.1 a.firstIndex_ne.2
      a.close.firstIndex_ne.1 a.close.firstIndex_ne.2)] at hn
  · rw [← hlast]
    have hkept : Row env _ s.closed a.close.firstIndex := hrow.of_keeps hkeeps hapart
    exact hkept.snoc rfl hne hclosed

theorem Tidy.exists_yields_appendToActive (h : s.Tidy env) (ha : s.active = some a)
    (hindex : ∀ j e, es[j]? = some e → e.index = s.lastIndex + 1 + j)
    (hknown : ∀ e ∈ es, env.Knows e) (hroom : ¬ a.shouldRoll env es) :
    ∃ ws s', (s.appendToActive env es).Yields ws s' ∧ s'.Tidy env := by
  obtain ⟨fs, hactive, hlast, hfiles, hrow, hdata, hmeta⟩ := h.active_of ha
  rw [← hlast] at hindex
  obtain ⟨ws, d', hrun, hdesc, hframe⟩ :=
    yields_appendEntries hfiles hactive hindex hknown hroom
  have hkeeps : s.dir.Keeps d' [a] := Keeps.of_frame hframe
  refine ⟨_, _, (yields_ofOption ha).bind_nil (hrun.bind (yields_pure _)),
    h.sound.of_keeps hkeeps ?_, h.first_pos, ?_, _, _, rfl, hactive, ?_, hdesc, ?_, hdata, hmeta⟩
  · intro t ht
    obtain rfl := List.mem_singleton.mp ht
    obtain ⟨-, hmname⟩ := names_of_active (t := t.extend env es) hactive hactive rfl
    exact Or.inr ⟨_, _, hmname, hdesc⟩
  · intro n hn
    refine h.register_pos n ?_
    rwa [number_congr (hframe _ a.firstIndex_ne.1 a.firstIndex_ne.2)] at hn
  · show a.lastIndex + es.length = s.lastIndex + es.length
    rw [hlast]
  · exact hrow.of_keeps hkeeps (hrow.apart_active hactive)

/-- The active segment after a roll. -/
theorem active_of_roll (h : s.rollActiveSegment.result = .ok s') :
    s'.active = some (fresh s.limits.dataSize s.limits.metaSize (s.lastIndex + 1)) := by
  rw [rollActiveSegment] at h
  obtain ⟨a, -, h⟩ := exists_of_bind_result h
  obtain ⟨⟨d, a'⟩, -, h⟩ := exists_of_bind_result h
  have hcreate := yields_createActiveSegment s.limits (s.lastIndex + 1) d
  rw [show _ = _ from hcreate.bind_result] at h
  obtain rfl := Except.ok.inj h
  rfl

/-- **What is appended** has the next indices and known keys, if the active segment ends with the
log. -/
theorem appendEntries_accepts {x : SegmentLog × Bool} (ha : s.active = some a)
    (hlast : a.lastIndex = s.lastIndex) (hnext : ∀ e ∈ es.head?, e.index = s.lastIndex + 1)
    (hrun : (s.appendEntries env es).result = .ok x) :
    (∀ j e, es[j]? = some e → e.index = s.lastIndex + 1 + j) ∧ ∀ e ∈ es, env.Knows e := by
  cases es with
  | nil => exact ⟨by simp, by simp⟩
  | cons e es =>
    rw [appendEntries, if_neg (not_not.mpr (hnext e rfl)),
      (yields_ofOption ha).bind_result] at hrun
    -- so does the segment that takes the entries
    obtain ⟨s₁, b, hb, hend, hrest⟩ : ∃ (s₁ : SegmentLog) (b : Segment), s₁.active = some b ∧
        b.lastIndex = s.lastIndex ∧
        (do pure ((← s₁.appendToActive env (e :: es)), true) : Disk _).result = .ok x := by
      by_cases hfull : a.shouldRoll env (e :: es)
      · rw [if_pos hfull] at hrun
        obtain ⟨s₁, hroll, hrest⟩ := exists_of_bind_result hrun
        exact ⟨s₁, _, active_of_roll hroll, rfl, hrest⟩
      · rw [if_neg hfull] at hrun
        exact ⟨s, a, ha, hlast, hrun⟩
    obtain ⟨s₂, hs₂, -⟩ := exists_of_bind_result hrest
    rw [appendToActive, (yields_ofOption hb).bind_result] at hs₂
    obtain ⟨y, hy, -⟩ := exists_of_bind_result hs₂
    have haccepts := appendEntries_accepts hy
    rw [hend] at haccepts
    exact haccepts.2

/-- An empty segment with the limits of the log has room for whatever fits one. -/
theorem Tidy.nonempty_of_shouldRoll (h : s.Tidy env) (ha : s.active = some a)
    (hfits : s.limits.Fits env es) (hroll : a.shouldRoll env es) :
    a.firstIndex ≤ a.lastIndex := by
  obtain ⟨fs, -, -, hfiles, -, hdata, hmeta⟩ := h.active_of ha
  exact hfits.nonempty_of_shouldRoll hfiles hdata hmeta hroll

/-- **Appending with room.** -/
theorem Tidy.exists_yields_appendEntries (h : s.Tidy env)
    (hindex : ∀ j e, es[j]? = some e → e.index = s.lastIndex + 1 + j)
    (hknown : ∀ e ∈ es, env.Knows e) (hroom : s.Room env es) :
    ∃ ws s', (s.appendEntries env es).Yields ws (s', true) ∧ s'.Tidy env := by
  cases es with
  | nil => exact ⟨_, s, yields_pure _, h⟩
  | cons e es =>
    obtain ⟨a, fs, ha, -, hlast, -⟩ := h.active
    have hhead : ¬ e.index ≠ s.lastIndex + 1 := not_not.mpr (hindex 0 e rfl)
    rw [appendEntries, if_neg hhead]
    by_cases hfull : a.shouldRoll env (e :: es)
    · have hfits := hroom.resolve_left fun hall => hall a ha hfull
      obtain ⟨ws₁, hroll⟩ := h.exists_yields_roll ha
      have htidy := h.rolled ha (h.nonempty_of_shouldRoll ha hfits hfull)
      obtain ⟨ws₂, s', hrun, htidy'⟩ :=
        htidy.exists_yields_appendToActive rfl hindex hknown (hfits.not_shouldRoll_fresh _)
      refine ⟨ws₁ ++ (ws₂ ++ []), s', (yields_ofOption ha).bind_nil ?_, htidy'⟩
      rw [if_pos hfull]
      exact hroll.bind (hrun.bind (yields_pure _))
    · obtain ⟨ws, s', hrun, htidy⟩ := h.exists_yields_appendToActive ha hindex hknown hfull
      refine ⟨ws ++ [], s', (yields_ofOption ha).bind_nil ?_, htidy⟩
      rw [if_neg hfull]
      exact (yields_pure _).bind_nil (hrun.bind (yields_pure _))

/-- What a batch leaves, also if it is refused. -/
theorem Tidy.appendEntries (h : s.Tidy env) (hroom : s.Room env es)
    (hrun : (s.appendEntries env es).Yields ws (s', b)) : s'.Tidy env := by
  by_cases hnext : ∀ e ∈ es.head?, e.index = s.lastIndex + 1
  · obtain ⟨a, fs, ha, -, hlast, -⟩ := h.active
    obtain ⟨hindex, hknown⟩ := SegmentLog.appendEntries_accepts ha hlast hnext hrun.result
    obtain ⟨ws', s'', hrun', htidy⟩ := h.exists_yields_appendEntries hindex hknown hroom
    obtain ⟨-, heq⟩ := hrun.unique hrun'
    obtain ⟨rfl, -⟩ := Prod.mk.inj heq
    exact htidy
  · cases es with
    | nil => exact absurd (by simp) hnext
    | cons e es =>
      have hne : e.index ≠ s.lastIndex + 1 := by simpa using hnext
      obtain ⟨-, heq⟩ := hrun.unique (yields_appendEntries_refused hne)
      obtain ⟨rfl, -⟩ := Prod.mk.inj heq
      exact h

/-! ## Registers -/

/-- A register that is written, and not made `0`. -/
theorem Tidy.of_register {name : FileName} (h : s.Tidy env) (hname : name.IsRegister)
    (hframe : ∀ n, n ≠ name → n ≠ .tmp name → d' n = s.dir n)
    (hreg : ∀ n, d'.number .firstIndex 1 = some n → 1 ≤ n) (hfirst : 1 ≤ first)
    (currentTerm voteFor : ℕ) :
    Tidy env ⟨d', s.limits, first, s.lastIndex, currentTerm, voteFor, s.closed, s.active⟩ := by
  have hkeeps := Keeps.of_register hname hframe
  obtain ⟨a, es, ha, hactive, hlast, hfiles, hrow, hlimits⟩ := h.active
  exact ⟨h.sound.of_keeps hkeeps (by simp), hfirst, hreg, a, es, ha, hactive, hlast,
    hkeeps.describes hfiles (by simp), hrow.of_keeps hkeeps (by simp), hlimits⟩

theorem Tidy.exists_yields_setCurrentTerm (h : s.Tidy env) (term : ℕ) :
    ∃ ws s', (s.setCurrentTerm term).Yields ws s' ∧ s'.Tidy env := by
  obtain ⟨d₁, d₂, hset, -, -, hframe⟩ := s.dir.yields_setFileContentWithSync .currentTerm term
  refine ⟨_, _, hset.bind (yields_pure _),
    h.of_register (Or.inl rfl) hframe (fun n hn => h.register_pos n ?_) h.first_pos term _⟩
  rwa [number_congr (hframe _ (by simp) (by simp))] at hn

theorem Tidy.exists_yields_setVoteFor (h : s.Tidy env) (voteFor : ℕ) :
    ∃ ws s', (s.setVoteFor voteFor).Yields ws s' ∧ s'.Tidy env := by
  obtain ⟨d₁, d₂, hset, -, -, hframe⟩ := s.dir.yields_setFileContentWithSync .voteFor voteFor
  refine ⟨_, _, hset.bind (yields_pure _), h.of_register (Or.inr (Or.inl rfl)) hframe
    (fun n hn => h.register_pos n ?_) h.first_pos _ voteFor⟩
  rwa [number_congr (hframe _ (by simp) (by simp))] at hn

/-! ## Truncation -/

/-- **Truncating a prefix**, also one that is longer than the log. -/
theorem Tidy.exists_yields_truncatePrefix (h : s.Tidy env) (k : ℕ) :
    ∃ ws s', (s.truncatePrefix k).Yields ws s' ∧ s'.Tidy env := by
  rw [SegmentLog.truncatePrefix]
  by_cases hle : k ≤ s.firstIndex
  · rw [if_pos hle]
    exact ⟨_, s, yields_pure _, h⟩
  · have hpos : 1 ≤ k := by omega
    rw [if_neg hle]
    obtain ⟨d₁, d₂, hset, -, hval, hframe⟩ := s.dir.yields_setFileContentWithSync .firstIndex k
    have hreg : ∀ n, d₂.number .firstIndex 1 = some n → 1 ≤ n := by
      intro n hn
      rw [number_of_eq hval] at hn
      exact Option.some.inj hn ▸ hpos
    have htidy := h.of_register (Or.inr (Or.inr rfl)) hframe hreg hpos s.currentTerm s.voteFor
    obtain ⟨a, es, ha, hactive, hlast, hfiles, hrow, hlimits⟩ := htidy.active
    have hsub : (s.closed.dropWhile fun t => t.lastIndex < k).Sublist s.closed :=
      List.dropWhile_sublist _
    -- the closed segments below are forgotten
    have hkept : Tidy env ⟨d₂, s.limits, k, s.lastIndex, s.currentTerm, s.voteFor,
        s.closed.dropWhile fun t => t.lastIndex < k, s.active⟩ :=
      ⟨htidy.sound, hpos, hreg, a, es, ha, hactive, hlast, hfiles, hrow.sublist hsub, hlimits⟩
    refine hset.exists_bind ?_
    by_cases hnil : (s.closed.dropWhile fun t => t.lastIndex < k) = []
    · rw [if_neg (not_not.mpr hnil)]
      refine (yields_ofOption ha).exists_bind ?_
      by_cases hbelow : a.lastIndex < k
      · -- and so is the active one
        have hcreated := tidy_created s.limits s.currentTerm s.voteFor htidy.sound hpos hreg
          (Row.nil (k - 1 + 1))
        rw [Nat.sub_add_cancel hpos] at hcreated
        rw [if_pos hbelow, hnil]
        exact (yields_createActiveSegment s.limits k d₂).exists_bind
          ⟨_, _, yields_pure _, hcreated⟩
      · rw [if_neg hbelow]
        exact ⟨_, _, yields_pure _, hkept⟩
    · rw [if_pos hnil]
      exact ⟨_, _, yields_pure _, hkept⟩

/-- What there is in the middle of a truncation, when there is no active segment. -/
structure Bare (env : StorageEnv) (s : SegmentLog) : Prop where
  active_eq : s.active = none
  sound : s.dir.Sound env
  first_pos : 1 ≤ s.firstIndex
  register_pos : ∀ n, s.dir.number .firstIndex 1 = some n → 1 ≤ n
  row : Row env s.dir s.closed (s.lastIndex + 1)

theorem Bare.exists_yields_ensureActive (h : s.Bare env) :
    ∃ ws s', s.ensureActive.Yields ws s' ∧ s'.Tidy env := by
  rw [ensureActive, h.active_eq]
  exact ⟨_, _, (yields_createActiveSegment s.limits (s.lastIndex + 1) s.dir).bind
    (yields_pure _), tidy_created s.limits s.currentTerm s.voteFor h.sound h.first_pos
      h.register_pos h.row⟩

/-- The active segment is cut. -/
theorem Tidy.exists_yields_cut (h : s.Tidy env) (ha : s.active = some a) (hk : a.firstIndex ≤ k)
    (hk' : k < s.lastIndex) :
    ∃ ws d' t, (a.truncateSuffix k s.dir).Yields ws (d', t) ∧
      Tidy env { s with dir := d', lastIndex := k, active := some t } := by
  obtain ⟨fs, hactive, hlast, hfiles, hrow, hlimits⟩ := h.active_of ha
  obtain ⟨-, records, -, hmeta, -⟩ := hfiles.files
  obtain ⟨hrun, hdesc⟩ := yields_truncateSuffix_active hfiles hmeta hk (hlast ▸ hk') hactive
  have hkeeps : s.dir.Keeps (s.dir.set a.metaName (.records (cleared k a records))) [a] :=
    Keeps.of_frame fun _ _ hne => set_of_ne hne
  have hname : (a.truncated env k fs).metaName = a.metaName := by
    have hactive' : (a.truncated env k fs).isActive = true := hactive
    rw [metaName_of_active hactive, metaName_of_active hactive']
    rfl
  refine ⟨_, _, _, hrun, h.sound.of_keeps hkeeps ?_, h.first_pos, ?_, _, _, rfl, hactive, rfl,
    hdesc, hrow.of_keeps hkeeps (hrow.apart_active hactive), hlimits⟩
  · intro t ht
    obtain rfl := List.mem_singleton.mp ht
    exact Or.inr ⟨_, _, hname, hdesc⟩
  · intro n hn
    refine h.register_pos n ?_
    rwa [number_congr (set_of_ne a.firstIndex_ne.2)] at hn

/-- **The cut.** Either the active segment is cut, or a new one is missing. -/
theorem Tidy.exists_yields_cutSuffix (h : s.Tidy env) (hk : k < s.lastIndex) (clock : ℕ → ℕ) :
    ∃ ws s', (s.cutSuffix k clock).Yields ws s' ∧ (s'.Tidy env ∨ s'.Bare env) := by
  obtain ⟨a, es, ha, hactive, hlast, hfiles, hrow, -⟩ := h.active
  rw [cutSuffix]
  refine (yields_ofOption ha).exists_bind ?_
  -- what is left when the end of the row is dropped
  have hdrop : ∀ {first : ℕ} {ts us : List Segment} {d : Directory}, d.Sound env →
      d .firstIndex = s.dir .firstIndex → a.Describes env d es →
      Row env d (ts ++ us) a.firstIndex → 1 ≤ first → (∀ t ∈ ts, t.lastIndex < k + 1) →
      ∃ ws d', (dropSegments clock 0 (a :: us.reverse) d).Yields ws d' ∧
        Bare env ⟨d', s.limits, first, k, s.currentTerm, s.voteFor, ts, none⟩ := by
    intro first ts us d hsound hsame hfiles hrow hpos hbelow
    obtain ⟨ws, d', hrun, hsound', hreg, hrow'⟩ :=
      hrow.exists_yields_drop hsound hactive hfiles clock
    refine ⟨ws, d', hrun, rfl, hsound', hpos, fun n hn => h.register_pos n ?_,
      hrow'.rebound hbelow⟩
    rwa [number_congr (hreg.trans hsame)] at hn
  by_cases hcut : a.firstIndex ≤ k
  · rw [if_pos hcut]
    by_cases hin : s.firstIndex ≤ k
    · obtain ⟨ws, d', t, hrun, htidy⟩ := h.exists_yields_cut ha hcut hk
      rw [if_pos hin]
      exact hrun.exists_bind ⟨_, _, yields_pure _, Or.inl htidy⟩
    · have hall : Row env s.dir (s.closed ++ []) a.firstIndex := by rwa [List.append_nil]
      obtain ⟨ws, d', hrun, hbare⟩ := hdrop h.sound rfl hfiles hall h.first_pos fun t ht => by
        have := hrow.below t ht
        omega
      rw [if_neg hin]
      exact hrun.exists_bind ⟨_, _, yields_pure _, Or.inr hbare⟩
  · rw [if_neg hcut]
    have hsplit : s.closed = (s.closed.rdropWhile fun t => decide (k < t.firstIndex)) ++
        (s.closed.rtakeWhile fun t => decide (k < t.firstIndex)) :=
      List.rdropWhile_append_rtakeWhile.symm
    cases hget : (s.closed.rdropWhile fun t => decide (k < t.firstIndex)).getLast? with
    | none =>
      have hkept := List.getLast?_eq_none_iff.mp hget
      rw [hkept] at hsplit
      rw [hsplit] at hrow
      obtain ⟨ws, d', hrun, hbare⟩ :=
        hdrop h.sound rfl hfiles hrow (Nat.le_add_left 1 k) (by simp)
      simp only [hkept, if_true]
      exact hrun.exists_bind ⟨_, _, yields_pure _, Or.inr hbare⟩
    | some u =>
      obtain ⟨ts, hkept⟩ := List.getLast?_eq_some_iff.mp hget
      have hu : u.firstIndex ≤ k := by
        have hnot := not_of_getLast?_rdropWhile hget
        simpa only [decide_eq_true_eq, Nat.not_lt] using hnot
      rw [hkept, List.append_assoc, List.singleton_append] at hsplit
      rw [hsplit] at hrow
      have hts : ∀ t ∈ ts, t.lastIndex < k + 1 := by
        intro t ht
        have := hrow.of_append.below t ht
        omega
      have hsome : ¬ ts ++ [u] = [] := by simp
      simp only [hkept, hsome, if_false, List.getLast?_concat, List.dropLast_concat]
      by_cases hin : s.firstIndex ≤ k
      · -- the segment with the last index is cut as well
        obtain ⟨ws, d', t, hrun, hsound, hreg, hrow', htfirst, htlast, hother⟩ :=
          hrow.exists_yields_cut h.sound hu
        rw [← List.singleton_append, ← List.append_assoc] at hrow'
        obtain ⟨ws', d'', hrun', hbare⟩ := hdrop hsound hreg (hother a hactive es hfiles) hrow'
          h.first_pos fun v hv => by
            rcases List.mem_append.mp hv with hv | hv
            · exact hts v hv
            · obtain rfl := List.mem_singleton.mp hv
              omega
        rw [if_pos hin]
        exact hrun.exists_bind (hrun'.exists_bind ⟨_, _, yields_pure _, Or.inr hbare⟩)
      · obtain ⟨ws, d', hrun, hbare⟩ := hdrop h.sound rfl hfiles hrow h.first_pos hts
        rw [if_neg hin]
        rw [List.reverse_cons] at hrun
        exact hrun.exists_bind ⟨_, _, yields_pure _, Or.inr hbare⟩

/-- **Truncating a suffix**, also one that is longer than the log. -/
theorem Tidy.exists_yields_truncateSuffix (h : s.Tidy env) (k : ℕ) (clock : ℕ → ℕ) :
    ∃ ws s', (s.truncateSuffix k clock).Yields ws s' ∧ s'.Tidy env := by
  rw [SegmentLog.truncateSuffix]
  by_cases hle : s.lastIndex ≤ k
  · rw [if_pos hle]
    exact ⟨_, s, yields_pure _, h⟩
  · rw [if_neg hle]
    obtain ⟨ws, s₁, hrun, htidy | hbare⟩ := h.exists_yields_cutSuffix (Nat.not_le.mp hle) clock
    · obtain ⟨a, es, ha, -⟩ := htidy.active
      refine hrun.exists_bind ⟨_, s₁, yields_ensureActive_of_isSome ?_, htidy⟩
      rw [ha]
      rfl
    · exact hrun.exists_bind hbare.exists_yields_ensureActive

/-! ## Opening -/

/-- The active segment that is recovered follows the closed ones and has the sizes it should. -/
theorem recoverActive_sat (limits : SegmentLimits) {prev : Option Segment}
    (hfiles : a.Describes env d es) :
    (recoverActive limits first prev (some a.listed) d).Sat (fun _ => True)
      (fun x => (∀ p ∈ prev, a.firstIndex = p.lastIndex + 1) ∧
        Segment.Describes env x.1 (a.enlarge limits.dataSize limits.metaSize) es ∧
        (∀ name, name ≠ a.dataName → name ≠ a.metaName → x.1 name = d name) ∧
        (x.2 = none ∨ first ≤ a.lastIndex ∧
          x.2 = some (a.enlarge limits.dataSize limits.metaSize))) fun _ => True := by
  obtain ⟨ws, d', hrun, hdesc, hframe, -⟩ := yields_recover hfiles
    (Or.inr ⟨limits.data_pos, limits.data_aligned⟩) (Or.inr ⟨limits.meta_pos, limits.meta_aligned⟩)
  rw [recoverActive]
  refine sat_check_bind (fun _ => trivial) fun _ => ?_
  refine sat_check_bind (fun _ => trivial) fun hprev => ?_
  refine Sat.bind (hrun.sat (fun _ _ => trivial) rfl) fun y hy => ?_
  obtain rfl : _ = y := hy
  refine sat_pure.mpr ⟨hprev, hdesc, hframe, ?_⟩
  by_cases hlt : a.lastIndex < first
  · exact Or.inl (if_pos hlt)
  · exact Or.inr ⟨Nat.not_lt.mp hlt, if_neg hlt⟩

/-- A new active segment behind the closed ones. -/
theorem createActiveSegment_bind_sat (limits : SegmentLimits) (term vote : ℕ) (hsound : d.Sound env)
    (hfirst : 1 ≤ first) (hreg : ∀ n, d.number .firstIndex 1 = some n → 1 ≤ n)
    (hrow : Row env d closed (last + 1)) :
    (do
      let (d, s) ← createActiveSegment limits (last + 1) d
      pure ⟨d, limits, first, last, term, vote, closed, some s⟩ : Disk SegmentLog).Sat
      (fun _ => True) (fun s => s.Tidy env) fun _ => True := by
  refine Sat.bind ((yields_createActiveSegment limits (last + 1) d).sat
    (fun _ _ => trivial) rfl) fun y hy => ?_
  obtain rfl : _ = y := hy
  exact sat_pure.mpr (tidy_created limits term vote hsound hfirst hreg hrow)

/-- The last part of `init`. A new active segment is created if none is left. -/
theorem recoverActive_bind_sat (limits : SegmentLimits) {active : Option Segment} (term vote : ℕ)
    (hsound : d.Sound env) (hfirst : 1 ≤ first)
    (hreg : ∀ n, d.number .firstIndex 1 = some n → 1 ≤ n)
    (hfiles : ∀ t ∈ closed, t.isActive = false ∧ t.firstIndex ≤ t.lastIndex ∧
      ∃ es, t.Describes env d es) (hsorted : closed.Pairwise fun t u => t.lastIndex < u.firstIndex)
    (hlisted : ∀ s ∈ active, ∃ (a : Segment) (es : List LogEntry), s = a.listed ∧
      a.isActive = true ∧ a.Describes env d es) :
    (do
      let (d, active) ← recoverActive limits first closed.getLast? active d
      let lastIndex := match active, closed.getLast? with
        | some s, _ => s.lastIndex
        | none, some s => s.lastIndex
        | none, none => 0
      let lastIndex := if lastIndex = 0 then first - 1 else lastIndex
      match active with
      | some s => pure ⟨d, limits, first, lastIndex, term, vote, closed, some s⟩
      | none =>
        let (d, s) ← createActiveSegment limits (lastIndex + 1) d
        pure ⟨d, limits, first, lastIndex, term, vote, closed, some s⟩ : Disk SegmentLog).Sat
      (fun _ => True) (fun s => s.Tidy env) fun _ => True := by
  -- the row ends with the last closed segment, and no segment ends at `0`
  have hlast : ∀ p ∈ closed.getLast?, (if (match (none : Option Segment), closed.getLast? with
        | some s, _ => s.lastIndex
        | none, some s => s.lastIndex
        | none, none => 0) = 0 then first - 1 else
      match (none : Option Segment), closed.getLast? with
        | some s, _ => s.lastIndex
        | none, some s => s.lastIndex
        | none, none => 0) = p.lastIndex := by
    intro p hp
    obtain ⟨-, hle, es, hes⟩ := hfiles p (List.mem_of_getLast? hp)
    have hpos := hes.first_pos
    simp only [Option.mem_def.mp hp]
    exact if_neg (by omega)
  have hrow : Row env d closed _ := row_of_sorted hfiles hsorted hlast
  cases active with
  | none => exact createActiveSegment_bind_sat limits term vote hsound hfirst hreg hrow
  | some s =>
    obtain ⟨a, es, rfl, hactive, hes⟩ := hlisted s rfl
    refine (recoverActive_sat limits hes).bind fun y hy => ?_
    obtain ⟨d', active⟩ := y
    obtain ⟨hfollows, hdesc, hframe, hx⟩ := hy
    have hkeeps : d.Keeps d' [a] := Keeps.of_frame hframe
    have hname : (a.enlarge limits.dataSize limits.metaSize).metaName = a.metaName := rfl
    have hsound' : d'.Sound env := hsound.of_keeps hkeeps fun t ht => by
      obtain rfl := List.mem_singleton.mp ht
      exact Or.inr ⟨_, es, hname, hdesc⟩
    have hreg' : ∀ n, d'.number .firstIndex 1 = some n → 1 ≤ n := by
      intro n hn
      rw [number_congr (hframe _ a.firstIndex_ne.1 a.firstIndex_ne.2)] at hn
      exact hreg n hn
    rcases hx with rfl | ⟨hle, rfl⟩
    · exact createActiveSegment_bind_sat limits term vote hsound' hfirst hreg'
        (hrow.of_keeps hkeeps (hrow.apart_active hactive))
    · have hne : ¬ a.lastIndex = 0 := by omega
      have hbelow : Row env d closed (a.firstIndex - 1 + 1) :=
        row_of_sorted hfiles hsorted fun p hp => by
          have := hfollows p hp
          omega
      rw [Nat.sub_add_cancel hes.first_pos] at hbelow
      refine sat_pure.mpr ⟨hsound', hfirst, hreg', _, es, rfl, hactive, (if_neg hne).symm,
        hdesc, hbelow.of_keeps hkeeps (hbelow.apart_active hactive), ?_, ?_⟩
      · exact Nat.le_max_right _ _
      · exact Nat.le_max_right _ _

/-- **Opening** a directory that is sound gives an object that is tidy, if it succeeds. -/
theorem init_sat (limits : SegmentLimits) {names : List FileName} (hsound : d.Sound env)
    (hreg : ∀ n, d.number .firstIndex 1 = some n → 1 ≤ n) (hnames : d.Lists names) :
    (init limits names d).Sat (fun _ => True) (fun s => s.Tidy env) fun _ => True := by
  rw [init]
  refine (recoverNumber_sat _ _ _).bind fun x₁ hx₁ => ?_
  refine (recoverNumber_sat _ _ _).bind fun x₂ hx₂ => ?_
  refine (recoverNumber_sat _ _ _).bind fun x₃ hx₃ => ?_
  obtain ⟨hkeeps, hnum⟩ := hx₁.keeps hx₂ hx₃
  obtain ⟨d₃, first⟩ := x₃
  have hsound₃ : d₃.Sound env := hsound.of_keeps hkeeps (by simp)
  have hfirst : 1 ≤ first := hreg first hnum
  have hreg₃ : ∀ n, d₃.number .firstIndex 1 = some n → 1 ≤ n := fun n hn =>
    Option.some.inj (hx₃.kept.symm.trans hn) ▸ hfirst
  obtain ⟨hclosed, hactive⟩ := exists_described hsound hnames
  refine (listSegments_sat _ _ _).bind fun y hy => ?_
  obtain ⟨ss, active⟩ := y
  obtain ⟨hss, hlisted, -⟩ := hy
  have hdesc : ∀ s ∈ ss, ∃ (t : Segment) (es : List LogEntry), s = t.listed ∧
      t.isActive = false ∧ t.Describes env d₃ es := by
    intro s hs
    rcases (hss s).mp hs with hs | ⟨f, l, hmem, rfl⟩
    · cases hs
    · obtain ⟨t, es, heq, ht, hes⟩ := hclosed f l hmem
      exact ⟨t, es, heq, ht, hkeeps.describes hes (by simp)⟩
  refine (recoverClosed_sat hdesc).bind fun z hz => ?_
  obtain ⟨d', closed⟩ := z
  obtain ⟨rfl, hfiles, hsorted, -⟩ := hz
  refine recoverActive_bind_sat limits _ _ hsound₃ hfirst hreg₃ hfiles hsorted fun s hs => ?_
  rcases hlisted with hnone | ⟨f, hmem, hsome⟩
  · rw [show active = none from hnone] at hs
    cases hs
  · obtain ⟨a, es, heq, ha, hes⟩ := hactive f hmem
    obtain rfl : activeSegment f = s := by
      rw [show active = some (activeSegment f) from hsome] at hs
      exact Option.some.inj hs
    exact ⟨a, es, heq, ha, hkeeps.describes hes (by simp)⟩

/-! ## Runs -/

/-- What is asked of an operation: room for a batch, and a listing of the directory. -/
def HasRoom (env : StorageEnv) (s : SegmentLog) : LogOperation → Prop
  | .appendEntry e => s.Room env [e]
  | .appendEntries es => s.Room env es
  | .reopen _ names => s.dir.Lists names
  | _ => True

/-- **One operation.** -/
theorem Tidy.step {op : LogOperation} (h : s.Tidy env) (hop : s.HasRoom env op)
    (hrun : (s.perform env op).Yields ws (s', b)) : s'.Tidy env := by
  -- operations that always succeed
  have hsame : ∀ {o : Disk SegmentLog}, (do pure ((← o), true) : Disk _).Yields ws (s', b) →
      (∃ ws s', o.Yields ws s' ∧ s'.Tidy env) → s'.Tidy env := by
    rintro o hrun ⟨ws', s'', ho, htidy⟩
    obtain ⟨-, heq⟩ := hrun.unique (ho.bind (yields_pure _))
    obtain ⟨rfl, -⟩ := Prod.mk.inj heq
    exact htidy
  cases op with
  | appendEntry e => exact h.appendEntries hop hrun
  | appendEntries es => exact h.appendEntries hop hrun
  | truncatePrefix k => exact hsame hrun (h.exists_yields_truncatePrefix k)
  | truncateSuffix k clock => exact hsame hrun (h.exists_yields_truncateSuffix k clock)
  | setCurrentTerm term => exact hsame hrun (h.exists_yields_setCurrentTerm term)
  | setVoteFor voteFor => exact hsame hrun (h.exists_yields_setVoteFor voteFor)
  | reopen limits names =>
    obtain ⟨s'', hopen, heq⟩ := exists_of_bind_result hrun.result
    obtain ⟨rfl, -⟩ := Prod.mk.inj (Except.ok.inj heq)
    exact (init_sat limits h.sound h.register_pos hop).of_result hopen

/-- The objects that the operations lead to from a directory without files on, whatever indices are
truncated, as long as there is room for what is appended. -/
inductive Reached (env : StorageEnv) : SegmentLog → Prop
  | opened {limits : SegmentLimits} {names : List FileName} {ws : List Directory} {s : SegmentLog}
      (hnames : Directory.empty.Lists names)
      (hrun : (init limits names Directory.empty).Yields ws s) : Reached env s
  | step {s s' : SegmentLog} {op : LogOperation} {ws : List Directory} {b : Bool}
      (h : Reached env s) (hop : s.HasRoom env op)
      (hrun : (s.perform env op).Yields ws (s', b)) : Reached env s'

/-- **Every run.** -/
theorem Reached.tidy (h : Reached env s) : s.Tidy env := by
  induction h with
  | @opened limits names ws s hnames hrun =>
    refine (init_sat limits Directory.sound_empty (fun n hn => ?_) hnames).of_result hrun.result
    obtain rfl : 1 = n := Option.some.inj hn
    exact le_rfl
  | step _ hop hrun ih => exact ih.step hop hrun

end SegmentLog

end Gringofts
