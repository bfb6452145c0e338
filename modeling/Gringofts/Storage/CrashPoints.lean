import Gringofts.Storage.Openable

/-!
# A crash between file operations

An operation on the directory is a sequence of calls, and the process may stop after any of them.
What matters is whether the directory it leaves can be opened, and which log is found there.

Rolling and truncation of a suffix rename pairs of files, one file after the other. Between the two
renames the meta file of a segment has no data file, and the directory cannot be opened. Truncation
of a suffix that cuts a closed segment leaves a gap behind it until the last of the others is gone,
and one that only drops segments leaves a log that is neither the old one nor the new one. A prefix
that is longer than the log leaves two active segments in the end.

## Main definitions

* `FileOperation`, `SegmentLog.operate` — the operations
* `Directory.Recovers` — opening the directory gives the range and the entries of an object
* `SegmentLog.CrashSafe` — the crash points that are harmless, by the segments of the object

## Main results

* `crash_recovers_iff` — these are the points at which the log before or after is found
-/

namespace Gringofts

open Outcome Directory Segment

/-- The operations that change more than one file. -/
inductive FileOperation
  | rollActiveSegment
  | truncatePrefix (firstIndexKept : ℕ)
  | truncateSuffix (lastIndexKept : ℕ) (clock : ℕ → ℕ)

/-- An operation on the directory. -/
def SegmentLog.operate (s : SegmentLog) : FileOperation → Disk SegmentLog
  | .rollActiveSegment => s.rollActiveSegment
  | .truncatePrefix k => s.truncatePrefix k
  | .truncateSuffix k clock => s.truncateSuffix k clock

/-- The directory after the first `n` calls of a computation. -/
def crashPoint {α : Type} (d : Directory) (o : Disk α) (n : ℕ) : Option Directory :=
  (d :: o.writes)[n]?

/-- The directory can be listed. Opening it succeeds, whatever the limits and the order of the
files, and the range and the entries are those of an object. -/
def Directory.Recovers (env : StorageEnv) (d : Directory) (s : SegmentLog) : Prop :=
  (∃ names, d.Lists names) ∧ ∀ limits names, d.Lists names →
    ∃ ws t, (SegmentLog.init limits names d).Yields ws t ∧ t.firstIndex = s.firstIndex ∧
      t.lastIndex = s.lastIndex ∧ ∀ i, s.firstIndex ≤ i → i ≤ s.lastIndex →
        ∃ e, (s.getEntry env i).Yields [] e ∧ (t.getEntry env i).Yields [] e

namespace SegmentLog

/-- The segments that truncation of a suffix drops, in the order in which it does: the active one
and then the closed ones from the back, as far as nothing of them is kept. -/
def discarded (s : SegmentLog) (lastIndexKept : ℕ) : List Segment :=
  (s.active.toList ++ s.closed.reverse).takeWhile fun t =>
    decide (lastIndexKept < t.firstIndex ∨ lastIndexKept < s.firstIndex)

/-- Truncation of a suffix cuts a closed segment. -/
def Splits (s : SegmentLog) (lastIndexKept : ℕ) : Prop :=
  s.firstIndex ≤ lastIndexKept ∧
    ∃ t ∈ s.closed, t.firstIndex ≤ lastIndexKept ∧ lastIndexKept < t.lastIndex

instance (s : SegmentLog) (k : ℕ) : Decidable (s.Splits k) := inferInstanceAs (Decidable (_ ∧ _))

/-- The calls of a truncation before the new active segment is created: three for a closed segment
that is cut, and two renames for each segment that is dropped. -/
def cutCalls (s : SegmentLog) (lastIndexKept : ℕ) : ℕ :=
  (if s.Splits lastIndexKept then 3 else 0) + 2 * (s.discarded lastIndexKept).length

/-- **The crash points that are harmless.**
* A roll must not stop between the two renames, and there must be something in the active segment.
* Truncation of a prefix must not create a second active segment: it keeps an entry, or the new one
  replaces the old one.
* Truncation of a suffix must not stop before all segments have been cut and dropped, and it must
  not go below the log, unless that is empty. It may do what it likes if it keeps the active
  segment, and an empty active segment may be gone. -/
def CrashSafe (s : SegmentLog) (n : ℕ) : FileOperation → Prop
  | .rollActiveSegment => n = 0 ∨ n ≠ 1 ∧ ∃ a ∈ s.active, a.firstIndex ≤ a.lastIndex
  | .truncatePrefix k => k ≤ s.lastIndex ∨ n ≤ 4 ∨ ∃ a ∈ s.active, a.firstIndex = k
  | .truncateSuffix k _ => n = 0 ∨ s.discarded k = [] ∨
      n = 2 ∧ ¬ s.Splits k ∧ (∃ a ∈ s.active, a.lastIndex < a.firstIndex) ∨
      s.cutCalls k ≤ n ∧ (s.firstIndex ≤ k + 1 ∨ s.lastIndex < s.firstIndex)

end SegmentLog

variable {env : StorageEnv} {d d' d₁ w : Directory} {ws : List Directory} {s s' t : SegmentLog}
  {l : Log} {a u x' : Segment} {clock : ℕ → ℕ} {first k n : ℕ}

/-! ## What is found -/

namespace Directory

/-- A directory that holds a log is opened with it. -/
theorem Holds.recovers (h : d.Holds env l) (hs : s.Represents env l) : d.Recovers env s := by
  refine ⟨h.exists_lists, fun limits names hnames => ?_⟩
  obtain ⟨ws, t, hrun, ht, -⟩ := SegmentLog.exists_yields_init h limits hnames
  refine ⟨ws, t, hrun, ?_, ?_, fun i hi hi' => ?_⟩
  · rw [ht.firstIndex_eq, hs.firstIndex_eq]
  · rw [ht.lastIndex_eq, hs.lastIndex_eq]
  · have hin : l.Retains i := ⟨hs.firstIndex_eq ▸ hi, hs.lastIndex_eq ▸ hi'⟩
    exact ⟨_, hs.yields_getEntry hin, ht.yields_getEntry hin⟩

/-- A directory without live segments is opened with an empty log. -/
theorem Stale.recovers_iff (h : d.Stale env l.firstIndex) (hreg : d.Registers l)
    (hfirst : s.lastIndex = l.firstIndex - 1 → s.firstIndex = l.firstIndex) :
    d.Recovers env s ↔ s.lastIndex = l.firstIndex - 1 := by
  have hpos := l.first_pos
  constructor
  · rintro ⟨⟨names, hnames⟩, hopen⟩
    obtain ⟨ws, t, hrun, -, hlast, -⟩ := hopen SegmentLimits.onePage names hnames
    obtain ⟨ws', t', hrun', -, hlast'⟩ := h.exists_yields_init hreg SegmentLimits.onePage hnames
    obtain ⟨-, rfl⟩ := hrun.unique hrun'
    exact hlast.symm.trans hlast'
  · intro hlast
    refine ⟨h.exists_lists, fun limits names hnames => ?_⟩
    obtain ⟨ws, t, hrun, htfirst, htlast⟩ := h.exists_yields_init hreg limits hnames
    have hfirst := hfirst hlast
    exact ⟨ws, t, hrun, htfirst.trans hfirst.symm, htlast.trans hlast.symm, fun i hi hi' => by
      omega⟩

namespace Recovers

/-- There is one end of the log that is found. -/
theorem lastIndex_eq (h : d.Recovers env s) (hl : d.Holds env l) : s.lastIndex = l.lastIndex := by
  obtain ⟨⟨names, hnames⟩, hopen⟩ := h
  obtain ⟨ws, t, hrun, -, hlast, -⟩ := hopen SegmentLimits.onePage names hnames
  obtain ⟨ws', t', hrun', ht', -⟩ := SegmentLog.exists_yields_init hl SegmentLimits.onePage hnames
  obtain ⟨-, rfl⟩ := hrun.unique hrun'
  exact hlast.symm.trans ht'.lastIndex_eq

/-- What the directory is like. -/
theorem openable (h : d.Recovers env s) (hnum : d.number .firstIndex 1 = some first) :
    d.Openable first := by
  obtain ⟨⟨names, hnames⟩, hopen⟩ := h
  obtain ⟨ws, t, hrun, -⟩ := hopen SegmentLimits.onePage names hnames
  exact (SegmentLog.openable_of_init hnum hnames hrun.result).2

end Recovers

end Directory

/-- The first index is in its file. -/
theorem SegmentLog.Represents.number_eq (h : s.Represents env l)
    (hfile : d .firstIndex = s.dir .firstIndex) : d.number .firstIndex 1 = some l.firstIndex :=
  (number_congr hfile).trans h.registers.first_eq

/-- A segment has lost its data file. -/
theorem Directory.Openable.false_of_missing (h : d.Openable first)
    (hlive : u.isActive = false → first ≤ u.lastIndex) (hmeta : (d u.metaName).isSome = true)
    (hdata : d u.dataName = none) : False := by
  have hopens := (h.live u hmeta hlive).1.data
  rw [hdata] at hopens
  cases hopens

/-- The calls behind a trail. -/
theorem Trail.mem_of_le {vs : List Directory} (h : Trail d ws d') (hn : ws.length ≤ n)
    (hw : (d :: (ws ++ vs))[n]? = some w) : w ∈ d' :: vs := by
  obtain ⟨init, hinit⟩ := List.getLast?_eq_some_iff.mp h
  have hlen : init.length ≤ n := by
    have := congrArg List.length hinit
    simp only [List.length_cons, List.length_append, List.length_nil] at this
    omega
  rw [← List.cons_append, hinit, List.append_assoc, List.getElem?_append_right hlen] at hw
  exact List.mem_of_getElem? hw

/-- The log is found before the operation and, where nothing else happens, after it. -/
def SegmentLog.Recoverable (env : StorageEnv) (s : SegmentLog) (op : FileOperation)
    (d : Directory) : Prop :=
  d.Recovers env s ∨ ∃ ws s', (s.operate op).Yields ws s' ∧ d.Recovers env s'

theorem SegmentLog.recoverable_iff (op : FileOperation) (hrun : (s.operate op).Yields ws s') :
    s.Recoverable env op d ↔ d.Recovers env s ∨ d.Recovers env s' := by
  refine or_congr_right ⟨?_, fun h => ⟨ws, s', hrun, h⟩⟩
  rintro ⟨ws', t, hrun', ht⟩
  rwa [(hrun.unique hrun').2]

/-! ## Rolling -/

namespace SegmentLog

/-- A roll renames the two files and creates a segment. -/
theorem Represents.yields_roll (h : s.Represents env l) (ha : s.active = some a) :
    ∃ vs s', s.rollActiveSegment.Yields (s.dir.move a.dataName a.close.dataName ::
        s.dir.relocate a.dataName a.metaName a.close.dataName a.close.metaName :: vs) s' ∧
      ∀ w ∈ vs, ∀ name, name ≠ .activeData (s.lastIndex + 1) →
        name ≠ .activeMeta (s.lastIndex + 1) →
        w name = s.dir.relocate a.dataName a.metaName a.close.dataName a.close.metaName name := by
  obtain ⟨base, ces, tail, hlayout, -⟩ := h.layout_of_active ha
  obtain ⟨hactive, -, hfiles⟩ := hlayout.active_files a rfl
  refine ⟨_, _, (yields_ofOption ha).bind_nil
    ((yields_closeActiveSegment hfiles hactive).bind
      ((yields_createActiveSegment s.limits (s.lastIndex + 1) _).bind
        (yields_pure _))), fun w hw name hdata hmeta => ?_⟩
  rw [List.append_nil] at hw
  exact forall_creating (P := fun w => w name = _) s.limits _ rfl
    (fun _ => set_of_ne hdata) (fun _ _ => created_of_ne _ hdata hmeta) w
      (List.mem_cons_of_mem _ hw)

/-- Between the two renames the directory cannot be opened. -/
theorem Represents.not_openable_roll (h : s.Represents env l) (ha : s.active = some a) :
    (s.dir.move a.dataName a.close.dataName).number .firstIndex 1 = some l.firstIndex ∧
      ¬ (s.dir.move a.dataName a.close.dataName).Openable l.firstIndex := by
  obtain ⟨base, ces, tail, hlayout, -⟩ := h.layout_of_active ha
  obtain ⟨hactive, -, hfiles⟩ := hlayout.active_files a rfl
  have hdm := fun u v : Segment => dataName_ne_metaName u v
  refine ⟨h.number_eq (move_of_ne a.firstIndex_ne.1 a.close.firstIndex_ne.1),
    fun hopen => hopen.false_of_missing (u := a) (by simp [hactive]) ?_ move_src⟩
  rw [move_of_ne (hdm _ _).symm (hdm _ _).symm]
  exact hfiles.isSome_meta

/-- **A roll** is recoverable at these points. -/
theorem Represents.roll_recoverable_iff (h : s.Represents env l)
    (hd : crashPoint s.dir s.rollActiveSegment n = some d) :
    s.Recoverable env .rollActiveSegment d ↔ s.CrashSafe n .rollActiveSegment := by
  obtain ⟨base, a, ces, tail, ha, hlayout, -⟩ := h.layout
  obtain ⟨hactive, -, hfiles⟩ := hlayout.active_files a rfl
  obtain ⟨vs, s', hrun, hframe⟩ := h.yields_roll ha
  rw [crashPoint, hrun.writes] at hd
  match n, hd with
  | 0, hd =>
    obtain rfl : s.dir = d := Option.some.inj hd
    exact iff_of_true (Or.inl (h.holds.recovers h)) (Or.inl rfl)
  | 1, hd =>
    obtain rfl : s.dir.move a.dataName a.close.dataName = d := Option.some.inj hd
    obtain ⟨hnum, hnot⟩ := h.not_openable_roll ha
    rw [recoverable_iff .rollActiveSegment hrun]
    refine iff_of_false (fun hr => hnot (hr.elim (·.openable hnum) (·.openable hnum))) ?_
    simp [CrashSafe]
  | n + 2, hd =>
    have hmem : d ∈ s.dir.relocate a.dataName a.metaName a.close.dataName a.close.metaName :: vs :=
      List.mem_of_getElem? hd
    by_cases hne : a.firstIndex ≤ a.lastIndex
    · obtain ⟨d₁, ws, s'', hrun', hholds, -⟩ := h.exists_yields_rollActiveSegment ha hne
      rw [(List.cons.inj (hrun.unique hrun').1).2] at hmem
      exact iff_of_true (Or.inl ((hholds d hmem).recovers h))
        (Or.inr ⟨by omega, a, ha, hne⟩)
    · -- the name of the closed segment has an empty range
      have hsame : ∀ name, name ≠ .activeData (s.lastIndex + 1) →
          name ≠ .activeMeta (s.lastIndex + 1) → d name =
            s.dir.relocate a.dataName a.metaName a.close.dataName a.close.metaName name := by
        rcases List.mem_cons.mp hmem with rfl | hmem
        · exact fun _ _ _ => rfl
        · exact hframe d hmem
      have hdm := fun u v : Segment => dataName_ne_metaName u v
      have hnot : ∀ t : SegmentLog, ¬ d.Recovers env t := by
        intro t hr
        have hopen := hr.openable (h.number_eq ((hsame _ (by simp) (by simp)).trans
          (relocate_of_ne a.firstIndex_ne.1 a.firstIndex_ne.2 a.close.firstIndex_ne.1
            a.close.firstIndex_ne.2)))
        refine hne (hopen.range a.firstIndex a.lastIndex ?_)
        have hname : a.close.metaName = .closedMeta a.firstIndex a.lastIndex := rfl
        rw [hsame _ (by simp) (by simp), ← hname, relocate_records'
          (close_metaName_ne hactive) (hdm _ _).symm (hdm _ _).symm]
        exact hfiles.isSome_meta
      rw [recoverable_iff .rollActiveSegment hrun]
      refine iff_of_false (not_or.mpr ⟨hnot s, hnot s'⟩) ?_
      simp [CrashSafe, ha, hne]

/-! ## Truncating a prefix -/

/-- `truncatePrefix` above the log forgets all segments, and creates one. -/
theorem Represents.exists_yields_discard (h : s.Represents env l) (hfirst : l.firstIndex < k)
    (hk : l.lastIndex < k) :
    ∃ d₁ d', (s.truncatePrefix k).Yields (d₁ :: d' :: creating s.limits k d')
        ⟨created s.limits.dataSize s.limits.metaSize k d', s.limits, k, k - 1,
          s.currentTerm, s.voteFor, [],
          some (fresh s.limits.dataSize s.limits.metaSize k)⟩ ∧
      d₁.Holds env l ∧ d'.Registers (l.truncatePrefix k) ∧
      ∀ n, n ≠ .firstIndex → n ≠ .tmp .firstIndex → d' n = s.dir n := by
  obtain ⟨base, a, ces, tail, ha, hlayout, hentries, -⟩ := h.layout
  obtain ⟨-, hbegin, hfiles⟩ := hlayout.active_files a rfl
  have hend := hlayout.lastIndex_eq hentries
  have hlast := hfiles.last_eq
  obtain ⟨d₁, d₂, hset, htmp, hval, hframe⟩ := s.dir.yields_setFileContentWithSync .firstIndex k
  have hnil : (s.closed.dropWhile fun t => t.lastIndex < k) = [] := by
    rw [List.dropWhile_eq_nil_iff]
    intro t ht
    have hlt := hlayout.lt_active rfl ht
    simp only [decide_eq_true_eq]
    omega
  have hnot : ¬ k ≤ s.firstIndex := by
    rw [h.firstIndex_eq]
    omega
  refine ⟨d₁, d₂, ?_, h.holds.of_tmp htmp, h.registers_truncatePrefix hfirst.le hval hframe, hframe⟩
  rw [truncatePrefix, if_neg hnot]
  refine hset.bind (?_ : Yields _ (creating s.limits k d₂) _)
  rw [if_neg (not_not.mpr hnil)]
  refine (yields_ofOption ha).bind_nil ?_
  rw [if_pos (by omega), hnil, ← List.append_nil (creating s.limits k d₂)]
  exact (yields_createActiveSegment s.limits k d₂).bind (yields_pure _)

/-- Two active segments are too many. -/
theorem Represents.not_openable_discard (h : s.Represents env l) (ha : s.active = some a)
    (hne : a.firstIndex ≠ k) (hreg : d'.Registers (l.truncatePrefix k))
    (hframe : ∀ n, n ≠ .firstIndex → n ≠ .tmp .firstIndex → d' n = s.dir n) (p q : ℕ) :
    (created p q k d').number .firstIndex 1 = some (l.truncatePrefix k).firstIndex ∧
      ¬ (created p q k d').Openable (l.truncatePrefix k).firstIndex := by
  obtain ⟨base, ces, tail, hlayout, -⟩ := h.layout_of_active ha
  obtain ⟨hactive, -, hfiles⟩ := hlayout.active_files a rfl
  refine ⟨(number_congr (created_of_ne k (by simp) (by simp))).trans
    hreg.first_eq, fun hopen => hne (hopen.once _ _ ?_ ?_)⟩
  · rw [created_of_ne k (by simp) (by simpa using hne), hframe _ (by simp) (by simp),
      ← metaName_of_active hactive]
    exact hfiles.isSome_meta
  · rw [created, set_self]
    rfl

/-- **Truncation of a prefix** is recoverable at these points. -/
theorem Represents.truncatePrefix_recoverable_iff (h : s.Represents env l)
    (hd : crashPoint s.dir (s.truncatePrefix k) n = some d) :
    s.Recoverable env (.truncatePrefix k) d ↔ s.CrashSafe n (.truncatePrefix k) := by
  obtain ⟨base, a, ces, tail, ha, hlayout, hentries, -⟩ := h.layout
  by_cases hk : k ≤ l.lastIndex
  · obtain ⟨ws, s', hrun, hrep, hholds⟩ := h.exists_yields_truncatePrefix hk
    rw [crashPoint, hrun.writes] at hd
    rw [recoverable_iff (.truncatePrefix k) hrun]
    refine iff_of_true ?_ (Or.inl (h.lastIndex_eq ▸ hk))
    rcases List.mem_cons.mp (List.mem_of_getElem? hd) with rfl | hw
    · exact Or.inl (h.holds.recovers h)
    · exact (hholds d hw).imp (·.recovers h) (·.recovers hrep)
  · have hk := Nat.not_le.mp hk
    have hsafe : s.CrashSafe n (.truncatePrefix k) ↔ n ≤ 4 ∨ a.firstIndex = k := by
      have hnot : ¬ k ≤ s.lastIndex := h.lastIndex_eq ▸ Nat.not_le.mpr hk
      simp [CrashSafe, hnot, ha]
    rw [hsafe]
    by_cases hle : k ≤ l.firstIndex
    · have hrun : (s.truncatePrefix k).Yields [] s := by
        rw [truncatePrefix, if_pos (h.firstIndex_eq ▸ hle)]
        exact yields_pure _
      rw [crashPoint, hrun.writes] at hd
      obtain ⟨hn, rfl⟩ := List.getElem?_eq_some_iff.mp hd
      simp only [List.length_singleton, Nat.lt_one_iff] at hn
      subst hn
      exact iff_of_true (Or.inl (h.holds.recovers h)) (Or.inl (Nat.zero_le 4))
    · obtain ⟨d₁, d₂, hrun, hholds, hreg, hframe⟩ :=
        h.exists_yields_discard (Nat.not_le.mp hle) hk
      have hfirst : (l.truncatePrefix k).firstIndex = k := by
        rw [Log.truncatePrefix_firstIndex]
        omega
      have hend := hlayout.lastIndex_eq hentries
      have hstale : d₂.Stale env k :=
        (hlayout.congr_register (Or.inr (Or.inr rfl)) hframe).stale (by omega)
      -- the new log is found where all segments lie below it
      have hnew : ∀ {w : Directory}, w.Stale env k → w.Registers (l.truncatePrefix k) →
          s.Recoverable env (.truncatePrefix k) w := fun hw hwreg =>
        Or.inr ⟨_, _, hrun, ((hfirst.symm ▸ hw : _).recovers_iff hwreg fun _ => hfirst.symm).mpr
          (congrArg (· - 1) hfirst.symm)⟩
      have hdata : ∀ r, s.Recoverable env (.truncatePrefix k) (d₂.set (.activeData k) (.data r)) :=
        fun r => hnew (hstale.setData (Or.inl le_rfl) r) (hreg.setData k r)
      have hcreated : ∀ p q, s.Recoverable env (.truncatePrefix k) (created p q k d₂) ↔
          a.firstIndex = k := by
        intro p q
        constructor
        · intro hr
          by_contra hne
          obtain ⟨hnum, hnot⟩ := h.not_openable_discard ha hne hreg hframe p q
          rw [recoverable_iff (.truncatePrefix k) hrun] at hr
          exact hnot (hr.elim (·.openable hnum) (·.openable hnum))
        · intro hsame
          refine hnew (hstale.create (by omega) le_rfl (fun f hf => ?_) p q) (hreg.created p q k)
          rw [hframe _ (by simp) (by simp)] at hf
          obtain ⟨b, hb, rfl⟩ := hlayout.active_only f hf
          rwa [← Option.some.inj hb]
      rw [crashPoint, hrun.writes] at hd
      rcases n with _ | _ | _ | _ | _ | _ | _ | n
      · obtain rfl : s.dir = d := Option.some.inj hd
        exact iff_of_true (Or.inl (h.holds.recovers h)) (by omega)
      · obtain rfl : d₁ = d := Option.some.inj hd
        exact iff_of_true (Or.inl (hholds.recovers h)) (by omega)
      · obtain rfl : d₂ = d := Option.some.inj hd
        exact iff_of_true (hnew hstale hreg) (by omega)
      · obtain rfl := Option.some.inj hd
        exact iff_of_true (hdata _) (by omega)
      · obtain rfl := Option.some.inj hd
        exact iff_of_true (hdata _) (by omega)
      · obtain rfl := Option.some.inj hd
        rw [hcreated]
        omega
      · obtain rfl := Option.some.inj hd
        rw [hcreated]
        omega
      · cases hd

end SegmentLog

/-! ## Truncating a suffix -/

namespace SegmentLog

variable {ss₁ ss₂ : List Segment} {x : Segment}

/-- Segments that are dropped reach the log. -/
theorem Represents.live_of_mem (h : s.Represents env l) (ha : s.active = some a)
    (hclosed : s.closed = ss₁ ++ ss₂) (hu : u ∈ a :: ss₂.reverse) :
    u.isActive = false → l.firstIndex ≤ u.lastIndex := by
  obtain ⟨base, ces, tail, hlayout, -⟩ := h.layout_of_active ha
  intro hkind
  rcases List.mem_cons.mp hu with rfl | hu
  · rw [(hlayout.active_files u rfl).1] at hkind
    cases hkind
  · refine hlayout.reach u ?_
    rw [hclosed]
    exact List.mem_append_right _ (List.mem_reverse.mp hu)

/-- The segments behind a closed one have been dropped: the log ends with that one. -/
theorem Represents.holds_dropped (h : s.Represents env l) (ha : s.active = some a)
    (hclosed : s.closed = ss₁ ++ x :: ss₂) (hdropped : Dropped (a :: ss₂.reverse) s.dir w) :
    w.Holds env (l.truncateSuffix x.lastIndex) := by
  obtain ⟨base, ces, tail, hlayout, hentries, -⟩ := h.layout_of_active ha
  have hreach := hlayout.reach x (by simp [hclosed])
  have hk : l.firstIndex ≤ x.lastIndex + 1 := hreach.trans (Nat.le_succ _)
  have hleft := entries_truncateSuffix hlayout hentries hk
  rw [hclosed] at hlayout
  obtain ⟨es₁, es₂, rfl, hchain, hrest⟩ := hlayout.chain.of_append
  cases hrest with
  | @cons _ _ c es _ hxc hxf hne hfiles _ =>
    have hxl := hfiles.last_eq
    have hcut := hlayout.cut hchain hxf hxc rfl hne hfiles hreach (fun hne => absurd rfl hne)
      (fun _ _ _ _ _ => rfl) hdropped (by simp)
    rw [← Log.truncateSuffix_firstIndex hk] at hcut
    refine ⟨(h.registers.congr fun _ => hdropped.register).of_log Log.truncateSuffix_currentTerm
      Log.truncateSuffix_voteFor (Log.truncateSuffix_firstIndex hk), base, _, none, _, [], hcut, ?_⟩
    have hlen : x.lastIndex + 1 - base = (es₁ ++ c).length := by
      rw [List.length_append]
      omega
    have hassoc : es₁ ++ (c ++ es) ++ tail = es₁ ++ c ++ (es ++ tail) := by simp
    rw [hleft, hlen, hassoc, List.take_left, List.append_nil]

/-- **While segments are dropped** the log that is found is neither the old one nor one that ends
before them, but for an active segment that was empty. -/
theorem Represents.dropping_recovers_iff (h : s.Represents env l) (ha : s.active = some a)
    (hclosed : s.closed = ss₁ ++ ss₂) (hw : Dropping (a :: ss₂.reverse) s.dir n w) (hn : 0 < n)
    (hn' : n < 2 * (a :: ss₂.reverse).length) (hs' : ∀ y ∈ ss₂, s'.lastIndex < y.lastIndex) :
    w.Recovers env s ∨ w.Recovers env s' ↔ n = 2 ∧ a.lastIndex < a.firstIndex := by
  obtain ⟨base, ces, tail, hlayout, hentries, -⟩ := h.layout_of_active ha
  obtain ⟨-, hfirst, hfiles⟩ := hlayout.active_files a rfl
  have hlast := hfiles.last_eq
  have hend := hlayout.lastIndex_eq hentries
  obtain ⟨ts₁, ts₂, hsplit, ⟨rfl, hdropped⟩ | ⟨rfl, hreg, u, hu, hdata, hmeta⟩⟩ := hw
  · rw [hsplit, List.length_append] at hn'
    obtain ⟨b, us, rfl⟩ := List.exists_cons_of_length_pos (show 0 < ts₁.length by omega)
    obtain ⟨y, vs, rfl⟩ := List.exists_cons_of_length_pos (show 0 < ts₂.length by omega)
    obtain ⟨rfl, hrest⟩ := List.cons.inj hsplit
    obtain rfl : ss₂ = vs.reverse ++ y :: us.reverse := by
      rw [← List.reverse_inj, hrest]
      simp
    rw [← List.append_assoc] at hclosed
    have hholds := h.holds_dropped ha hclosed (by rwa [List.reverse_reverse])
    have hmem : y ∈ s.closed := by simp [hclosed]
    have hbound := hlayout.lt_active rfl hmem
    have hreach := hlayout.reach y hmem
    have hcut : (l.truncateSuffix y.lastIndex).lastIndex = y.lastIndex :=
      Log.lastIndex_truncateSuffix (by omega) (by omega)
    -- the segments between it and the active one
    have hbehind : us ≠ [] → y.lastIndex + 1 < a.firstIndex := by
      intro hne
      obtain ⟨u, hu⟩ := List.exists_mem_of_ne_nil us hne
      have hpair := hlayout.chain.pairwise
      rw [hclosed] at hpair
      have hlt := (List.pairwise_cons.mp (List.pairwise_append.mp hpair).2.1).1 u
        (List.mem_reverse.mpr hu)
      have humem : u ∈ s.closed := by simp [hclosed, hu]
      have := (hlayout.chain.bounds humem).2.2.1
      have := hlayout.lt_active rfl humem
      omega
    constructor
    · rintro (hr | hr)
      · have heq := hr.lastIndex_eq hholds
        rw [hcut, h.lastIndex_eq] at heq
        have hnil : us = [] := by
          by_contra hne
          have := hbehind hne
          omega
        exact ⟨by rw [hnil]; rfl, by omega⟩
      · have heq := hr.lastIndex_eq hholds
        have := hs' y (by simp)
        omega
    · rintro ⟨htwo, hempty⟩
      obtain rfl : us = [] := List.length_eq_zero_iff.mp (by rw [List.length_cons] at htwo; omega)
      have hbefore := hlayout.chain.lastIndex_getLast (s := y) (by rw [hclosed]; simp)
      have hsame : l.truncateSuffix y.lastIndex = l := by
        rw [Log.truncateSuffix, if_neg (by omega)]
      exact Or.inl ((hsame ▸ hholds).recovers h)
  · -- the next segment has lost its data file
    have hmem : u ∈ a :: ss₂.reverse := by
      rw [hsplit]
      exact List.mem_append_right _ (List.mem_of_head? hu)
    have hnot : ∀ t : SegmentLog, ¬ w.Recovers env t := fun t hr =>
      (hr.openable (h.number_eq hreg)).false_of_missing (h.live_of_mem ha hclosed hmem) hmeta hdata
    exact iff_of_false (not_or.mpr ⟨hnot s, hnot s'⟩) fun hodd => by omega

/-- The segment behind a closed one is the last to be dropped. -/
theorem Represents.exists_behind (h : s.Represents env l) (ha : s.active = some a)
    (hclosed : s.closed = ss₁ ++ x :: ss₂) :
    ∃ z, (a :: ss₂.reverse).getLast? = some z ∧ z.firstIndex = x.lastIndex + 1 := by
  obtain ⟨base, ces, tail, hlayout, -⟩ := h.layout_of_active ha
  obtain ⟨-, hfirst, -⟩ := hlayout.active_files a rfl
  rw [hclosed] at hlayout
  obtain ⟨es₁, es₂, rfl, -, hrest⟩ := hlayout.chain.of_append
  cases hrest with
  | @cons _ _ c es _ _ hxf _ hfiles hbehind =>
    have hxl := hfiles.last_eq
    cases hbehind with
    | nil =>
      rw [List.append_nil, List.length_append] at hfirst
      exact ⟨a, rfl, by omega⟩
    | @cons _ z _ _ zs _ hzf _ _ _ =>
      refine ⟨z, ?_, by omega⟩
      rw [List.reverse_cons, ← List.cons_append, List.getLast?_concat]

/-- **Behind a segment that has been cut** there is a gap until all segments have been dropped. -/
theorem Represents.not_recovers_gap (h : s.Represents env l) (ha : s.active = some a)
    (hclosed : s.closed = ss₁ ++ x :: ss₂) (hk : l.firstIndex ≤ x.lastIndex)
    (hx' : x'.isActive = false) (hfirst : x'.firstIndex = x.firstIndex)
    (hlast : x'.lastIndex < x.lastIndex) (hgone : d₁ x.metaName = none)
    (hframe : ∀ name, name ≠ x.dataName → name ≠ x.metaName → name ≠ x'.dataName →
      name ≠ x'.metaName → d₁ name = s.dir name) (hw : Dropping (a :: ss₂.reverse) d₁ n w)
    (hn : n < 2 * (a :: ss₂.reverse).length) : ¬ w.Recovers env t := by
  intro hr
  obtain ⟨base, ces, tail, hlayout, -⟩ := h.layout_of_active ha
  have hapart := hlayout.pairwise_apart
  have hdescribes := fun u => hlayout.describes_mem (s := u)
  have hreg : d₁ .firstIndex = s.dir .firstIndex :=
    hframe _ x.firstIndex_ne.1 x.firstIndex_ne.2 x'.firstIndex_ne.1 x'.firstIndex_ne.2
  have hsuffix : s.closed = (ss₁ ++ [x]) ++ ss₂ := by simp [hclosed]
  have hlive := fun u => h.live_of_mem (u := u) ha hsuffix
  rw [hclosed] at hlayout hapart hdescribes
  have hxle := (hlayout.chain.bounds (s := x) (by simp)).2.2
  obtain ⟨ts₁, ts₂, hsplit, ⟨rfl, hdropped⟩ | ⟨rfl, hsame, u, hu, hdata, hmeta⟩⟩ := hw
  · obtain ⟨z, hz, hzf⟩ := h.exists_behind ha hclosed
    have hmem : z ∈ a :: ss₂.reverse := List.mem_of_getLast? hz
    have hopen := hr.openable (h.number_eq ((hdropped.register (Or.inr (Or.inr rfl))).trans hreg))
    -- its meta file is still there
    have hzmeta : (w z.metaName).isSome = true := by
      have hz₂ : z ∈ ts₂ := by
        rw [hsplit, List.length_append] at hn
        obtain ⟨y, vs, rfl⟩ := List.exists_cons_of_length_pos (show 0 < ts₂.length by omega)
        rw [hsplit, List.getLast?_append, List.getLast?_cons, Option.some_or] at hz
        exact List.mem_of_getLast? (List.getLast?_cons.trans hz)
      have hpair : (ts₁ ++ ts₂).Pairwise Segment.Apart := by
        rw [← hsplit]
        refine hapart.sublist ((List.Sublist.cons_cons a) ?_)
        rw [List.reverse_append, List.reverse_cons, List.append_assoc]
        exact List.sublist_append_left _ _
      have hdm := fun u v : Segment => dataName_ne_metaName u v
      have hne : z.firstIndex ≠ x.firstIndex := by omega
      rw [hdropped.frame _ z.metaName_ne_dropped fun u hu =>
          ⟨(hdm u z).symm, ((List.pairwise_append.mp hpair).2.2 u hu z hz₂).2.symm⟩,
        hframe _ (hdm x z).symm (apart_of_first hne).2 (hdm x' z).symm
          (apart_of_first (hfirst ▸ hne)).2]
      obtain ⟨c, hc⟩ := hdescribes z (by
        rcases List.mem_cons.mp hmem with rfl | hmem
        · exact List.mem_cons_self
        · simp [List.mem_reverse.mp hmem])
      exact hc.isSome_meta
    rcases (hopen.live z hzmeta (hlive z hmem)).2 with hle | ⟨f, l', hsome, heq⟩
    · omega
    · -- there is none that ends before it
      obtain rfl : x.lastIndex = l' := by omega
      rw [hdropped.frame _ (by simp) fun u hu => ⟨u.closedMeta_ne_dataName f _, fun heq => by
        rw [heq, hdropped.meta_eq u hu] at hsome
        cases hsome⟩] at hsome
      have hxname : FileName.closedMeta f x.lastIndex ≠ x.metaName := by
        intro heq
        rw [heq, hgone] at hsome
        cases hsome
      have hxname' : FileName.closedMeta f x.lastIndex ≠ x'.metaName := by
        intro heq
        rw [metaName_of_closed hx'] at heq
        injection heq with _ heq
        omega
      rw [hframe _ (x.closedMeta_ne_dataName _ _) hxname (x'.closedMeta_ne_dataName _ _) hxname']
        at hsome
      exact hxname (hlayout.metaName_eq (by simp) hsome).symm
  · refine (hr.openable (h.number_eq (hsame.trans hreg))).false_of_missing (hlive u ?_) hmeta hdata
    rw [hsplit]
    exact List.mem_append_right _ (List.mem_of_head? hu)

/-- **A closed segment that is cut** can be recovered when all segments behind it are gone. -/
theorem Represents.not_recovers_split {ws₁ ws₂ : List Directory} (h : s.Represents env l)
    (ha : s.active = some a) (hclosed : s.closed = ss₁ ++ x :: ss₂)
    (hk : l.firstIndex ≤ x.lastIndex) (hxk : x.firstIndex ≤ k) (hxk' : k < x.lastIndex)
    (hcut : (x.truncateSuffix k s.dir).Yields ws₁ (d₁, x'))
    (hdrops : Drops (a :: ss₂.reverse) d₁ ws₂ d') :
    ws₁.length = 3 ∧ ∀ {n w}, (s.dir :: (ws₁ ++ ws₂))[n]? = some w → 0 < n →
      n < 3 + 2 * (a :: ss₂.reverse).length → ∀ t : SegmentLog, ¬ w.Recovers env t := by
  obtain ⟨base, ces, tail, hlayout, -⟩ := h.layout_of_active ha
  have hmem : x ∈ s.closed := by simp [hclosed]
  have hxc := (hlayout.chain.bounds hmem).1
  obtain ⟨c, hfiles⟩ := hlayout.describes_mem (List.mem_cons_of_mem a hmem)
  obtain ⟨data, records, hdata, hmeta, -⟩ := hfiles.files
  obtain ⟨d₂, hrun, -, -, hgone, hframe⟩ :=
    yields_truncateSuffix_closed hfiles hmeta hxk hxk' hxc
  obtain ⟨rfl, heq⟩ := hcut.unique hrun
  obtain ⟨rfl, rfl⟩ := Prod.mk.inj heq
  refine ⟨rfl, fun {n w} hw hn hn' t hr => ?_⟩
  have hdm := fun u v : Segment => dataName_ne_metaName u v
  match n, hw with
  | 1, hw =>
    -- the records do not end where the name says
    obtain rfl := Option.some.inj hw
    have hopen := hr.openable (h.number_eq (set_of_ne x.firstIndex_ne.2))
    obtain ⟨r, hr, hlast⟩ := (hopen.live x (by rw [set_self]; rfl) fun _ => hk).1.last hxc
    rw [set_self] at hr
    obtain rfl : cleared k x records = r := File.records.inj (Option.some.inj hr)
    have hcontent := content_cleared hfiles hmeta hxk hxk' hdata
    have hpos := hfiles.first_pos
    have hxl := hfiles.last_eq
    have hend := hcontent.clean _ le_rfl
    rw [hcontent.toFound.scan_eq (by omega), List.length_take] at hlast
    omega
  | 2, hw =>
    obtain rfl := Option.some.inj hw
    refine (hr.openable (h.number_eq ?_)).false_of_missing (u := x) (fun _ => hk) ?_
      move_src
    · rw [move_of_ne x.firstIndex_ne.1 (firstIndex_ne _).1,
        set_of_ne x.firstIndex_ne.2]
    · rw [move_of_ne (hdm _ _).symm (hdm _ _).symm, set_self]
      rfl
  | n + 3, hw =>
    have hkind : (x.truncated env k c).isActive = false := hxc
    exact h.not_recovers_gap ha hclosed hk hkind rfl hxk' hgone hframe (hdrops.point n w hw)
      (by omega) hr

/-- A truncation below the log drops all segments and creates one. -/
theorem Represents.yields_truncateSuffix_below (h : s.Represents env l) (ha : s.active = some a)
    (clock : ℕ → ℕ) (hk : k < l.firstIndex) (hk' : k < l.lastIndex) :
    ∃ ws d' s', (s.truncateSuffix k clock).Yields (ws ++ creating s.limits (k + 1) d') s' ∧
      Drops (a :: s.closed.reverse) s.dir ws d' ∧
      s'.dir = created s.limits.dataSize s.limits.metaSize (k + 1) d' ∧
      (s'.firstIndex = k + 1 ∨ s'.firstIndex = s.firstIndex) ∧ s'.lastIndex = k := by
  obtain ⟨ws, d', first, hcut, hfirst, hdrops⟩ := h.yields_cutSuffix_all ha clock hk
  rw [truncateSuffix, if_neg (by rw [h.lastIndex_eq]; omega)]
  exact ⟨ws, d', _, hcut.bind (yields_ensureActive_of_none rfl), hdrops, rfl, hfirst, rfl⟩

section Points

variable (h : s.Represents env l) (ha : s.active = some a) (hk' : k < l.lastIndex) (hn : 0 < n)
  (hd : crashPoint s.dir (s.truncateSuffix k clock) n = some d)

include h ha hk' hn hd

/-- A truncation below the log. -/
theorem Represents.below_recoverable_iff (hk : k < l.firstIndex) :
    s.Recoverable env (.truncateSuffix k clock) d ↔ s.CrashSafe n (.truncateSuffix k clock) := by
  obtain ⟨base, ces, tail, hlayout, hentries, -⟩ := h.layout_of_active ha
  have hlast := l.lastIndex_add_one
  obtain ⟨ws, d', s', hrun, hdrops, -, hfirst, hs'⟩ :=
    h.yields_truncateSuffix_below ha clock hk hk'
  have hall : s.discarded k = a :: s.closed.reverse := by
    rw [discarded, ha]
    exact List.takeWhile_eq_self_iff.mpr fun t _ => by simp [h.firstIndex_eq, hk]
  have hsafe : s.CrashSafe n (.truncateSuffix k clock) ↔ n = 2 ∧ a.lastIndex < a.firstIndex ∨
      2 * (a :: s.closed.reverse).length ≤ n ∧
        (l.firstIndex ≤ k + 1 ∨ l.lastIndex < l.firstIndex) := by
    have hsplit : ¬ s.Splits k := fun hsplit => by
      have := hsplit.1
      rw [h.firstIndex_eq] at this
      omega
    simp [CrashSafe, cutCalls, hall, hsplit, ha, h.firstIndex_eq, h.lastIndex_eq, hn.ne']
  rw [crashPoint, hrun.writes] at hd
  rw [recoverable_iff (.truncateSuffix k clock) hrun, hsafe]
  rcases Nat.lt_or_ge n (2 * (a :: s.closed.reverse).length) with hlt | hge
  · rw [← List.cons_append, List.getElem?_append_left (by
      rw [List.length_cons, hdrops.length_eq]
      omega)] at hd
    have hpoint := hdrops.point n d hd
    rw [h.dropping_recovers_iff ha (List.nil_append _).symm hpoint hn hlt fun y hy => by
      have := hlayout.reach y hy
      omega]
    omega
  · -- nothing is left, whatever has become of the new active segment
    have hclear := hlayout.clear hdrops.dropped (by simp)
    have hnone : ∀ f, d' (.activeMeta f) = none := by
      intro f
      by_contra hsome
      obtain ⟨b, hb, -⟩ := hclear.active_only f (Option.ne_none_iff_isSome.mp hsome)
      cases hb
    have hstale : d'.Stale env l.firstIndex := hclear.stale (by simp)
    have hreg : d'.Registers l := h.registers.congr fun _ => hdrops.dropped.register
    obtain ⟨hstale, hreg⟩ : d.Stale env l.firstIndex ∧ d.Registers l :=
      forall_creating (P := fun w => w.Stale env l.firstIndex ∧ w.Registers l) s.limits
        (k + 1) ⟨hstale, hreg⟩ (fun r => ⟨hstale.setData (Or.inr (hnone _)) r, hreg.setData _ r⟩)
        (fun p q => ⟨hstale.create (by omega) (by omega)
          (fun f hf => by rw [hnone] at hf; cases hf) p q, hreg.created p q _⟩) d
        (hdrops.trail.mem_of_le (hdrops.length_eq.trans_le hge) hd)
    rw [hstale.recovers_iff hreg fun _ => h.firstIndex_eq, h.lastIndex_eq,
      hstale.recovers_iff hreg fun heq => by
        rw [h.firstIndex_eq] at hfirst
        omega, hs']
    -- one empty segment is an empty log
    have hempty : n = 2 → a.lastIndex < a.firstIndex → l.lastIndex < l.firstIndex := by
      intro htwo hempty
      rw [htwo, List.length_cons, List.length_reverse] at hge
      have hnil : s.closed = [] := List.length_eq_zero_iff.mp (by omega)
      have hfiles := (hlayout.active_files a rfl).2.2.last_eq
      have hend := hlayout.lastIndex_eq hentries
      have hbase := hlayout.base_le
      rw [hlayout.chain.eq_nil_iff.mp hnil, List.length_nil] at hend
      rcases hlayout.reach_active hnil with ⟨rfl, -⟩ | hlt
      · rw [List.length_nil] at hend
        omega
      · omega
    have hpos := l.first_pos
    omega

/-- A truncation that keeps the active segment is one call. -/
theorem Represents.active_recoverable (hk : l.firstIndex ≤ k) (hcut : a.firstIndex ≤ k) :
    s.Recoverable env (.truncateSuffix k clock) d ∧ s.discarded k = [] := by
  obtain ⟨s', hcutrun, hactive, hs'⟩ := h.yields_cutSuffix_active ha clock hk hk' hcut
  have hrun : (s.truncateSuffix k clock).Yields ([s'.dir] ++ []) s' := by
    rw [truncateSuffix, if_neg (by rw [h.lastIndex_eq]; omega)]
    exact hcutrun.bind (yields_ensureActive_of_isSome hactive)
  rw [crashPoint, hrun.writes] at hd
  have htrail : Trail s.dir [s'.dir] s'.dir := rfl
  obtain rfl := List.mem_singleton.mp (htrail.mem_of_le hn hd)
  refine ⟨Or.inr ⟨_, s', hrun, hs'.holds.recovers hs'⟩, ?_⟩
  rw [discarded, ha]
  exact List.takeWhile_cons_of_neg (by simp [h.firstIndex_eq, hk, hcut])

/-- A truncation at a closed segment. -/
theorem Represents.closed_recoverable_iff (hk : l.firstIndex ≤ k) (hcut : k < a.firstIndex) :
    s.Recoverable env (.truncateSuffix k clock) d ↔ s.CrashSafe n (.truncateSuffix k clock) := by
  obtain ⟨base, ces, tail, hlayout, -⟩ := h.layout_of_active ha
  obtain ⟨ss₁, x, ss₂, ws₁, d₁, x', ws₂, s₁, hclosed, hxk, hxk', habove, hxrun, htrail, hdrops,
    hcutrun, hinactive⟩ := h.yields_cutSuffix_closed ha clock hk hk' hcut
  obtain ⟨vs, s', hrun', hs', hholds⟩ := hinactive.exists_yields_ensureActive
  have hrun : (s.truncateSuffix k clock).Yields (ws₁ ++ ws₂ ++ vs) s' := by
    rw [truncateSuffix, if_neg (by rw [h.lastIndex_eq]; omega)]
    exact hcutrun.bind hrun'
  have hpair := hlayout.chain.pairwise
  rw [hclosed] at hpair
  have hbehind : ∀ t ∈ ss₂, k < t.lastIndex := by
    intro t ht
    have := (hlayout.chain.bounds (s := t) (by simp [hclosed, ht])).2.2.1
    have := habove t ht
    omega
  have hdiscarded : s.discarded k = a :: ss₂.reverse := by
    rw [discarded, ha, hclosed, List.reverse_append, List.reverse_cons, List.append_assoc]
    have hall : ∀ t ∈ a :: ss₂.reverse, decide (k < t.firstIndex ∨ k < s.firstIndex) = true := by
      intro t ht
      rcases List.mem_cons.mp ht with rfl | ht
      · exact decide_eq_true (Or.inl hcut)
      · exact decide_eq_true (Or.inl (habove t (List.mem_reverse.mp ht)))
    show ((a :: ss₂.reverse) ++ ([x] ++ ss₁.reverse)).takeWhile _ = _
    rw [List.takeWhile_append_of_pos hall, List.singleton_append,
      List.takeWhile_cons_of_neg (by simp [h.firstIndex_eq, hk, hxk]), List.append_nil]
  have hsplits : s.Splits k ↔ k < x.lastIndex := by
    refine ⟨?_, fun hlt => ⟨h.firstIndex_eq ▸ hk, x, by simp [hclosed], hxk, hlt⟩⟩
    rintro ⟨-, t, ht, htk, htk'⟩
    rw [hclosed] at ht
    rcases List.mem_append.mp ht with ht | ht
    · have := (List.pairwise_append.mp hpair).2.2 t ht x List.mem_cons_self
      omega
    · rcases List.mem_cons.mp ht with rfl | ht
      · exact htk'
      · have := habove t ht
        omega
  have hlow : s.firstIndex ≤ k + 1 := by
    rw [h.firstIndex_eq]
    omega
  have hsafe : s.CrashSafe n (.truncateSuffix k clock) ↔
      n = 2 ∧ ¬ k < x.lastIndex ∧ a.lastIndex < a.firstIndex ∨
      (if k < x.lastIndex then 3 else 0) + 2 * (a :: ss₂.reverse).length ≤ n := by
    simp [CrashSafe, cutCalls, hdiscarded, hsplits, ha, hlow, hn.ne']
  rw [recoverable_iff (.truncateSuffix k clock) hrun, hsafe]
  rw [crashPoint, hrun.writes] at hd
  -- when all segments have been cut and dropped
  have hdone : (ws₁ ++ ws₂).length ≤ n → d.Recovers env s' := fun hle => by
    rcases List.mem_cons.mp ((htrail.append hdrops.trail).mem_of_le hle hd) with rfl | hmem
    · exact hinactive.holds.recovers hs'
    · exact (hholds d hmem).recovers hs'
  have hbefore : n < (ws₁ ++ ws₂).length → (s.dir :: (ws₁ ++ ws₂))[n]? = some d := fun hlt => by
    rwa [← List.cons_append, List.getElem?_append_left (by rw [List.length_cons]; omega)] at hd
  rw [List.length_append, hdrops.length_eq] at hdone hbefore
  by_cases hlt : k < x.lastIndex
  · obtain ⟨hthree, hnot⟩ := h.not_recovers_split ha hclosed (hk.trans hlt.le) hxk hlt hxrun hdrops
    rw [if_pos hlt]
    rw [hthree] at hdone hbefore
    rcases Nat.lt_or_ge n (3 + 2 * (a :: ss₂.reverse).length) with hearly | hlate
    · have hnot := hnot (hbefore hearly) hn hearly
      exact iff_of_false (not_or.mpr ⟨hnot s, hnot s'⟩) (by omega)
    · exact iff_of_true (Or.inr (hdone hlate)) (Or.inr hlate)
  · have hnone : (x.truncateSuffix k s.dir).Yields [] (s.dir, x) := by
      rw [Segment.truncateSuffix, if_pos (by omega)]
      exact yields_pure _
    obtain ⟨rfl, heq⟩ := hxrun.unique hnone
    obtain ⟨rfl, -⟩ := Prod.mk.inj heq
    rw [if_neg hlt, Nat.zero_add]
    rw [List.length_nil, Nat.zero_add] at hdone hbefore
    rcases Nat.lt_or_ge n (2 * (a :: ss₂.reverse).length) with hearly | hlate
    · rw [h.dropping_recovers_iff ha (show s.closed = (ss₁ ++ [x]) ++ ss₂ by simp [hclosed])
        (hdrops.point n d (hbefore hearly)) hn hearly fun y hy => ?_]
      · omega
      · rw [hs'.lastIndex_eq, Log.lastIndex_truncateSuffix (by omega) hk'.le]
        exact hbehind y hy
    · exact iff_of_true (Or.inr (hdone hlate)) (Or.inr hlate)

end Points

/-- **Truncation of a suffix** is recoverable at these points. -/
theorem Represents.truncateSuffix_recoverable_iff (h : s.Represents env l)
    (hd : crashPoint s.dir (s.truncateSuffix k clock) n = some d) :
    s.Recoverable env (.truncateSuffix k clock) d ↔ s.CrashSafe n (.truncateSuffix k clock) := by
  obtain ⟨base, a, ces, tail, ha, -⟩ := h.layout
  rcases Nat.eq_zero_or_pos n with rfl | hn
  · obtain rfl : s.dir = d := Option.some.inj hd
    exact iff_of_true (Or.inl (h.holds.recovers h)) (Or.inl rfl)
  rcases Nat.lt_or_ge k l.lastIndex with hlt | hge
  · rcases Nat.lt_or_ge k l.firstIndex with hlow | hin
    · exact h.below_recoverable_iff ha hlt hn hd hlow
    · rcases Nat.lt_or_ge k a.firstIndex with hcut | hcut
      · exact h.closed_recoverable_iff ha hlt hn hd hin hcut
      · obtain ⟨hrec, hnone⟩ := h.active_recoverable ha hlt hn hd hin hcut
        exact iff_of_true hrec (Or.inr (Or.inl hnone))
  · obtain ⟨hrun, -⟩ := h.yields_truncateSuffix_of_le clock hge
    rw [crashPoint, hrun.writes, List.getElem?_eq_none (show [s.dir].length ≤ n from hn)] at hd
    cases hd

end SegmentLog

/-! ## The result -/

/-- A log with one entry, in its active segment. -/
theorem exists_lockstep_one : ∃ s m a, Lockstep StorageEnv.plain s m ∧
    m.log = [⟨1, 1, true, 0, [], 0, none⟩] ∧ s.active = some a ∧ a.firstIndex = 1 ∧
      a.lastIndex = 1 := by
  obtain ⟨ws, s₀, ws', s, b, a, hopen, happend, hlimits, hs⟩ : ∃ ws s₀ ws' s b a,
      (SegmentLog.init SegmentLimits.onePage [] Directory.empty).Yields ws s₀ ∧
      (s₀.perform StorageEnv.plain (.appendEntry ⟨1, 1, true, 0, [], 0, none⟩)).Yields ws' (s, b) ∧
      s₀.limits = SegmentLimits.onePage ∧ s.active = some a ∧ a.firstIndex = 1 ∧ a.lastIndex = 1 :=
    ⟨_, _, _, _, _, _, rfl, rfl, rfl, rfl, rfl, rfl⟩
  have h₀ : Lockstep StorageEnv.plain s₀ {} := .opened lists_empty hopen
  have hop : s₀.Admissible StorageEnv.plain (.appendEntry ⟨1, 1, true, 0, [], 0, none⟩) :=
    ⟨by decide, by rw [hlimits]; decide⟩
  exact ⟨s, _, a, h₀.step hop happend, rfl, hs⟩

end Gringofts
