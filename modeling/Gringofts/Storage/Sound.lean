import Gringofts.Storage.Lockstep

/-!
# Files that some segment describes

A directory is sound if each pair of segment files is one that some object describes. The pairs need
not belong to one log: files of segments that lie below the log stay where they are, and some are
left over from a log that was discarded. What changes the files of some segments keeps all others,
so only the files that have changed have to be looked at.

Closed segments are a row if they lie one behind the other. There may be gaps between them.

## Main definitions

* `Directory.Sound` — every pair of segment files is described by some object
* `SegmentLog.Row` — closed segments that lie one behind the other

## Main results

* `Directory.Sound.of_keeps` — what has to be shown of a change
* `SegmentLog.Row.exists_yields_drop`, `SegmentLog.Row.exists_yields_cut` — the end of a row is
  dropped, and the segment before it is cut
* `SegmentLog.recoverNumber_sat`, `SegmentLog.listSegments_sat`, `SegmentLog.recoverClosed_sat` —
  what opening finds, if it succeeds
-/

namespace Gringofts

open Outcome Segment

variable {env : StorageEnv} {d d' d₁ : Directory} {ts us : List Segment} {u : Segment} {bound : ℕ}

/-! ## The files of a segment -/

namespace Segment

variable {s t : Segment}

/-- The name of the meta file determines that of the data file. -/
theorem dataName_eq_iff : s.dataName = t.dataName ↔ s.metaName = t.metaName := by
  rw [dataName, dataName, metaName, metaName]
  split <;> split <;> simp

theorem apart_iff : s.Apart t ↔ s.metaName ≠ t.metaName := by
  rw [Apart, Ne, dataName_eq_iff, and_self]

theorem firstIndex_ne (s : Segment) :
    FileName.firstIndex ≠ s.dataName ∧ FileName.firstIndex ≠ s.metaName :=
  ⟨(s.dataName_ne_register (Or.inr (Or.inr rfl))).symm,
    (s.metaName_ne_register (Or.inr (Or.inr rfl))).symm⟩

end Segment

namespace Directory.Keeps

/-- Only a register and its temporary file have changed. -/
theorem of_register {name : FileName} (hname : name.IsRegister)
    (h : ∀ n, n ≠ name → n ≠ .tmp name → d' n = d n) : d.Keeps d' [] := by
  intro t _
  exact ⟨h _ (t.dataName_ne_register hname) (t.dataName_ne_tmp _),
    h _ (t.metaName_ne_register hname) (t.metaName_ne_tmp _)⟩

/-- A new active segment. -/
theorem created (m n first : ℕ) (d : Directory) :
    d.Keeps (created m n first d) [fresh m n first] :=
  of_frame fun _ hdata hmeta => created_of_ne first hdata hmeta

/-- A segment that is closed. -/
theorem close (s : Segment) (d : Directory) :
    d.Keeps (d.relocate s.dataName s.metaName s.close.dataName s.close.metaName) [s, s.close] :=
  of_frame_pair fun _ => Directory.relocate_of_ne

end Directory.Keeps

/-- Every meta file belongs to a pair that some object describes. -/
def Directory.Sound (env : StorageEnv) (d : Directory) : Prop :=
  ∀ t : Segment, (d t.metaName).isSome = true →
    ∃ u es, u.metaName = t.metaName ∧ Segment.Describes env d u es

/-- The files that have changed are gone or described again. -/
theorem Directory.Sound.of_keeps (h : d.Sound env) (hkeeps : d.Keeps d' ts)
    (hts : ∀ t ∈ ts, d' t.metaName = none ∨
      ∃ u es, u.metaName = t.metaName ∧ Segment.Describes env d' u es) : d'.Sound env := by
  intro t ht
  by_cases hapart : ∀ u ∈ ts, t.Apart u
  · rw [(hkeeps t hapart).2] at ht
    obtain ⟨v, es, hname, hv⟩ := h t ht
    refine ⟨v, es, hname, hkeeps.describes hv fun u hu => ?_⟩
    rw [apart_iff, hname]
    exact apart_iff.mp (hapart u hu)
  · obtain ⟨u, hu⟩ := not_forall.mp hapart
    obtain ⟨hmem, hsame⟩ := Classical.not_imp.mp hu
    rw [apart_iff, not_not] at hsame
    rcases hts u hmem with hnone | hdesc
    · rw [hsame, hnone] at ht
      cases ht
    · rwa [hsame]

theorem Directory.sound_empty : Directory.empty.Sound env := by
  intro t ht
  cases ht

namespace SegmentLog

/-! ## Closed segments -/

/-- Closed segments with their files, one behind the other and below an index. -/
structure Row (env : StorageEnv) (d : Directory) (closed : List Segment) (bound : ℕ) : Prop where
  files : ∀ t ∈ closed, t.isActive = false ∧ t.firstIndex ≤ t.lastIndex ∧
    ∃ es, t.Describes env d es
  sorted : closed.Pairwise fun t u => t.lastIndex < u.firstIndex
  below : ∀ t ∈ closed, t.lastIndex < bound

namespace Row

variable {closed ts : List Segment} {bound : ℕ}

theorem nil (bound : ℕ) : Row env d [] bound := ⟨by simp, List.Pairwise.nil, by simp⟩

theorem sublist (h : Row env d closed bound) (hsub : ts.Sublist closed) : Row env d ts bound :=
  ⟨fun t ht => h.files t (hsub.subset ht), h.sorted.sublist hsub,
    fun t ht => h.below t (hsub.subset ht)⟩

/-- The first segments lie below those behind them. -/
theorem of_append (h : Row env d (ts ++ u :: us) bound) : Row env d ts u.firstIndex := by
  refine ⟨(h.sublist (List.sublist_append_left _ _)).files,
    (h.sublist (List.sublist_append_left _ _)).sorted, fun t ht => ?_⟩
  exact (List.pairwise_append.mp h.sorted).2.2 t ht u List.mem_cons_self

/-- Another bound. -/
theorem rebound {bound' : ℕ} (h : Row env d closed bound)
    (hbelow : ∀ t ∈ closed, t.lastIndex < bound') : Row env d closed bound' :=
  ⟨h.files, h.sorted, hbelow⟩

theorem snoc {es : List LogEntry} (h : Row env d closed u.firstIndex) (hclosed : u.isActive = false)
    (hne : u.firstIndex ≤ u.lastIndex) (hu : u.Describes env d es) :
    Row env d (closed ++ [u]) (u.lastIndex + 1) := by
  refine ⟨fun t ht => ?_, ?_, fun t ht => ?_⟩
  · rcases List.mem_append.mp ht with ht | ht
    · exact h.files t ht
    · obtain rfl := List.mem_singleton.mp ht
      exact ⟨hclosed, hne, es, hu⟩
  · refine List.pairwise_append.mpr ⟨h.sorted, List.pairwise_singleton _ _, fun t ht v hv => ?_⟩
    obtain rfl := List.mem_singleton.mp hv
    exact h.below t ht
  · rcases List.mem_append.mp ht with ht | ht
    · have := h.below t ht
      omega
    · obtain rfl := List.mem_singleton.mp ht
      exact Nat.lt_succ_self _

/-- Files of other segments do not matter. -/
theorem of_keeps (h : Row env d closed bound) (hkeeps : d.Keeps d' us)
    (hapart : ∀ t ∈ closed, ∀ u ∈ us, t.Apart u) : Row env d' closed bound := by
  refine ⟨fun t ht => ?_, h.sorted, h.below⟩
  obtain ⟨hclosed, hle, es, hes⟩ := h.files t ht
  exact ⟨hclosed, hle, es, hkeeps.describes hes (hapart t ht)⟩

/-- Closed segments are apart from active ones. -/
theorem apart_active (h : Row env d closed bound) {a : Segment} (ha : a.isActive = true) :
    ∀ t ∈ closed, ∀ u ∈ [a], t.Apart u := by
  intro t ht u hu
  obtain rfl := List.mem_singleton.mp hu
  exact (apart_of_kind ha (h.files t ht).1).symm

theorem apart_first (h : Row env d closed bound) (hu : bound ≤ u.firstIndex) :
    ∀ t ∈ closed, t.Apart u := by
  intro t ht
  have hlt := h.below t ht
  have hle := (h.files t ht).2.1
  exact apart_of_first (by omega)

end Row

variable {a : Segment} {es : List LogEntry}

/-- Segments at the end of a row are dropped together with the active one. -/
theorem Row.exists_yields_drop (h : Row env d (ts ++ us) a.firstIndex) (hsound : d.Sound env)
    (hactive : a.isActive = true) (hfiles : a.Describes env d es) (clock : ℕ → ℕ) :
    ∃ ws d', (dropSegments clock 0 (a :: us.reverse) d).Yields ws d' ∧ d'.Sound env ∧
      d' .firstIndex = d .firstIndex ∧ Row env d' ts a.firstIndex := by
  have hkind : ∀ t ∈ ts ++ us, a.Apart t := fun t ht =>
    apart_of_kind hactive (h.files t ht).1
  have hfirst : ∀ t ∈ ts ++ us, ∀ u, t.lastIndex < u.firstIndex → t.Apart u := by
    intro t ht u hlt
    have hle := (h.files t ht).2.1
    exact apart_of_first (by omega)
  obtain ⟨-, hus, hcross⟩ := List.pairwise_append.mp h.sorted
  have hmem : ∀ t ∈ us.reverse, t ∈ ts ++ us := fun t ht =>
    List.mem_append_right ts (List.mem_reverse.mp ht)
  have hdesc : ∀ t ∈ a :: us.reverse, ∃ c, t.Describes env d c := by
    intro t ht
    rcases List.mem_cons.mp ht with rfl | ht
    · exact ⟨es, hfiles⟩
    · exact (h.files t (hmem t ht)).2.2
  have hapart : (a :: us.reverse).Pairwise Segment.Apart := by
    refine List.pairwise_cons.mpr ⟨fun t ht => hkind t (hmem t ht), ?_⟩
    rw [List.pairwise_reverse]
    exact hus.imp_of_mem fun {t u} ht _ hlt =>
      (hfirst t (List.mem_append_right ts ht) u hlt).symm
  obtain ⟨ws, d', hrun, hdrops⟩ := yields_dropSegments clock 0 hdesc hapart
  have hdropped := hdrops.dropped
  have hkeeps := Directory.Keeps.of_dropped hdropped
  refine ⟨ws, d', hrun, hsound.of_keeps hkeeps fun t ht => Or.inl (hdropped.meta_eq t ht),
    hdropped.register (Or.inr (Or.inr rfl)), ?_⟩
  refine (h.sublist (List.sublist_append_left ts us)).of_keeps hkeeps fun t ht u hu => ?_
  rcases List.mem_cons.mp hu with rfl | hu
  · exact (hkind t (List.mem_append_left us ht)).symm
  · exact hfirst t (List.mem_append_left us ht) u (hcross t ht u (List.mem_reverse.mp hu))

/-- A segment of a row is replaced by one that begins where it did and does not end later. -/
theorem Row.replace {t : Segment} (h : Row env d (ts ++ u :: us) bound) (hkeeps : d.Keeps d' [u, t])
    (hclosed : t.isActive = false) (hfirst : t.firstIndex = u.firstIndex)
    (hne : t.firstIndex ≤ t.lastIndex) (hlast : t.lastIndex ≤ u.lastIndex)
    (ht : t.Describes env d' es) : Row env d' (ts ++ t :: us) bound := by
  obtain ⟨hts, huus, hcross⟩ := List.pairwise_append.mp h.sorted
  obtain ⟨hu, hus⟩ := List.pairwise_cons.mp huus
  have hsub : (ts ++ us).Sublist (ts ++ u :: us) :=
    (List.Sublist.refl ts).append (List.sublist_cons_self u us)
  -- the others have another first index
  have hother : ∀ v ∈ ts ++ us, v.firstIndex ≠ u.firstIndex := by
    intro v hv
    have hv' := (h.files v (hsub.subset hv)).2.1
    have hu' := (h.files u (by simp)).2.1
    rcases List.mem_append.mp hv with hv | hv
    · have := hcross v hv u List.mem_cons_self
      omega
    · have := hu v hv
      omega
  have hkept : Row env d' (ts ++ us) bound := by
    refine (h.sublist hsub).of_keeps hkeeps fun v hv w hw => ?_
    rcases List.mem_pair.mp hw with rfl | rfl
    · exact apart_of_first (hother v hv)
    · exact apart_of_first (hfirst ▸ hother v hv)
  refine ⟨fun v hv => ?_, ?_, fun v hv => ?_⟩
  · rcases List.mem_append.mp hv with hv | hv
    · exact hkept.files v (List.mem_append_left us hv)
    · rcases List.mem_cons.mp hv with rfl | hv
      · exact ⟨hclosed, hne, es, ht⟩
      · exact hkept.files v (List.mem_append_right ts hv)
  · refine List.pairwise_append.mpr ⟨hts, List.pairwise_cons.mpr ⟨fun v hv => ?_, hus⟩, ?_⟩
    · exact hlast.trans_lt (hu v hv)
    · intro v hv w hw
      rcases List.mem_cons.mp hw with rfl | hw
      · rw [hfirst]
        exact hcross v hv u List.mem_cons_self
      · exact hcross v hv w (List.mem_cons_of_mem u hw)
  · rcases List.mem_append.mp hv with hv | hv
    · exact hkept.below v (List.mem_append_left us hv)
    · rcases List.mem_cons.mp hv with rfl | hv
      · exact hlast.trans_lt (h.below u (by simp))
      · exact hkept.below v (List.mem_append_right ts hv)

/-- A closed segment of a row is cut. It stays as it is if it ends before. -/
theorem Row.exists_yields_cut {k : ℕ} (h : Row env d (ts ++ u :: us) bound) (hsound : d.Sound env)
    (hk : u.firstIndex ≤ k) :
    ∃ ws d' t, (u.truncateSuffix k d).Yields ws (d', t) ∧ d'.Sound env ∧
      d' .firstIndex = d .firstIndex ∧ Row env d' (ts ++ t :: us) bound ∧ t.firstIndex ≤ k ∧
      t.lastIndex ≤ k ∧ ∀ v : Segment, v.isActive = true → ∀ c, v.Describes env d c →
        v.Describes env d' c := by
  obtain ⟨hclosed, hne, es, hes⟩ := h.files u (by simp)
  by_cases hle : u.lastIndex ≤ k
  · refine ⟨[], d, u, ?_, hsound, rfl, h, hk, hle, fun _ _ _ hc => hc⟩
    rw [Segment.truncateSuffix, if_pos hle]
    exact yields_pure _
  · have hlt := Nat.not_le.mp hle
    obtain ⟨ws, d', t, hrun, -, htclosed, htfirst, htlast, htfiles, hgone, hframe⟩ :=
      exists_yields_truncateSuffix hes hclosed hk hlt.le
    have hkeeps : d.Keeps d' [u, t] := Directory.Keeps.of_frame_pair hframe
    refine ⟨ws, d', t, hrun, hsound.of_keeps hkeeps ?_, ?_, ?_, by omega, htlast.le, ?_⟩
    · intro v hv
      rcases List.mem_pair.mp hv with rfl | rfl
      · by_cases hname : t.metaName = v.metaName
        · exact Or.inr ⟨t, _, hname, htfiles⟩
        · exact Or.inl (hgone hname)
      · exact Or.inr ⟨v, _, rfl, htfiles⟩
    · exact hframe _ u.firstIndex_ne.1 u.firstIndex_ne.2 t.firstIndex_ne.1 t.firstIndex_ne.2
    · exact h.replace hkeeps htclosed htfirst (by omega) (by omega) htfiles
    · intro v hv c hc
      refine hkeeps.describes hc fun w hw => ?_
      rcases List.mem_pair.mp hw with rfl | rfl
      · exact apart_of_kind hv hclosed
      · exact apart_of_kind hv htclosed

/-- The last of the closed segments ends the row. -/
theorem row_of_sorted {closed : List Segment} {last : ℕ}
    (hfiles : ∀ t ∈ closed, t.isActive = false ∧ t.firstIndex ≤ t.lastIndex ∧
      ∃ es, t.Describes env d es)
    (hsorted : closed.Pairwise fun t u => t.lastIndex < u.firstIndex)
    (hlast : ∀ p ∈ closed.getLast?, last = p.lastIndex) : Row env d closed (last + 1) := by
  refine ⟨hfiles, hsorted, fun t ht => ?_⟩
  obtain ⟨p, hp⟩ := Option.isSome_iff_exists.mp
    (List.getLast?_isSome.mpr (List.ne_nil_of_mem ht))
  obtain ⟨ts, rfl⟩ := List.getLast?_eq_some_iff.mp hp
  have hend := hlast p hp
  rcases List.mem_append.mp ht with ht | ht
  · have := (List.pairwise_append.mp hsorted).2.2 t ht p (by simp)
    have := (hfiles p (by simp)).2.1
    omega
  · obtain rfl := List.mem_singleton.mp ht
    omega

/-! ## Opening -/

/-- A number is read from a register, and stays there. -/
structure ReadsNumber (d : Directory) (name : FileName) (initial : ℕ) (x : Directory × ℕ) :
    Prop where
  read : d.number name initial = some x.2
  kept : x.1.number name initial = some x.2
  frame : ∀ n, n ≠ name → n ≠ .tmp name → x.1 n = d n

theorem recoverNumber_sat (name : FileName) (initial : ℕ) (d : Directory) :
    (recoverNumber name initial d).Sat (fun _ => True) (ReadsNumber d name initial)
      fun _ => True := by
  cases hnum : d.number name initial with
  | some n =>
    obtain ⟨ws, d', hrun, hval, hframe⟩ := yields_recoverNumber hnum
    exact hrun.sat (fun _ _ => trivial) ⟨hnum, hval, hframe⟩
  | none =>
    rw [Directory.number] at hnum
    rw [recoverNumber]
    split at hnum
    · cases hnum
    · cases hnum
    · next f hf hfile =>
      rw [hfile]
      split
      · next n heq =>
        exact absurd (Option.some.inj heq) (hf n)
      · exact sat_fail.mpr trivial
      · next heq => cases heq

/-- Opening begins with the three registers. -/
theorem ReadsNumber.keeps {x y z : Directory × ℕ} (hx : ReadsNumber d .currentTerm 0 x)
    (hy : ReadsNumber x.1 .voteFor 0 y) (hz : ReadsNumber y.1 .firstIndex 1 z) :
    d.Keeps z.1 [] ∧ d.number .firstIndex 1 = some z.2 := by
  have hfile : y.1 .firstIndex = d .firstIndex :=
    (hy.frame _ (by simp) (by simp)).trans (hx.frame _ (by simp) (by simp))
  exact ⟨((Directory.Keeps.of_register (Or.inl rfl) hx.frame).trans
    (.of_register (Or.inr (Or.inl rfl)) hy.frame)).trans
      (.of_register (Or.inr (Or.inr rfl)) hz.frame),
    (Directory.number_congr hfile).symm.trans hz.read⟩

/-- What is listed is what has been found. There is at most one active segment. -/
theorem listSegments_sat (names : List FileName) (closed : List Segment)
    (active : Option Segment) :
    (listSegments names closed active).Sat (fun _ => True)
      (fun x => (∀ s, s ∈ x.1 ↔ s ∈ closed ∨ ∃ f l, .closedMeta f l ∈ names ∧
          s = closedSegment f l) ∧
        (x.2 = active ∨ ∃ f, .activeMeta f ∈ names ∧ x.2 = some (activeSegment f)) ∧
        ∀ f, .activeMeta f ∈ names → active = none ∧ x.2 = some (activeSegment f))
      fun _ => True := by
  induction names generalizing closed active with
  | nil => exact sat_pure.mpr ⟨by simp, Or.inl rfl, by simp⟩
  | cons name names ih =>
    cases name with
    | closedMeta f l =>
      refine sat_check_bind (fun _ => trivial) fun hnew => ?_
      refine (ih _ active).imp fun x hx => ⟨fun s => ?_, by simpa using hx.2.1,
        by simpa using hx.2.2⟩
      rw [hx.1, mem_insertSegment hnew]
      constructor
      · rintro ((rfl | hs) | ⟨f', l', hmem, rfl⟩)
        · exact Or.inr ⟨f, l, List.mem_cons_self, rfl⟩
        · exact Or.inl hs
        · exact Or.inr ⟨f', l', List.mem_cons_of_mem _ hmem, rfl⟩
      · rintro (hs | ⟨f', l', hmem, rfl⟩)
        · exact Or.inl (Or.inr hs)
        · rcases List.mem_cons.mp hmem with heq | hmem
          · obtain ⟨rfl, rfl⟩ := FileName.closedMeta.inj heq
            exact Or.inl (Or.inl rfl)
          · exact Or.inr ⟨f', l', hmem, rfl⟩
    | activeMeta f =>
      refine sat_check_bind (fun _ => trivial) fun hnone => ?_
      refine (ih closed _).imp fun x hx => ?_
      -- a second one would have been refused
      have hlast : ∀ g, FileName.activeMeta g ∉ names := fun g hg => by
        cases (hx.2.2 g hg).1
      have hfound : x.2 = some (activeSegment f) :=
        hx.2.1.resolve_right fun ⟨g, hg, _⟩ => hlast g hg
      refine ⟨by simpa using hx.1, Or.inr ⟨f, List.mem_cons_self, hfound⟩, fun g hg => ⟨hnone, ?_⟩⟩
      rcases List.mem_cons.mp hg with heq | hg
      · rw [FileName.activeMeta.inj heq, hfound]
      · exact absurd hg (hlast g)
    | currentTerm => exact (ih closed active).imp fun x hx => by simpa using hx
    | voteFor => exact (ih closed active).imp fun x hx => by simpa using hx
    | firstIndex => exact (ih closed active).imp fun x hx => by simpa using hx
    | activeData f => exact (ih closed active).imp fun x hx => by simpa using hx
    | closedData f l => exact (ih closed active).imp fun x hx => by simpa using hx
    | tmp n => exact (ih closed active).imp fun x hx => by simpa using hx
    | dropped n ts => exact (ih closed active).imp fun x hx => by simpa using hx

/-- Closed segments that are recovered lie one behind the other. -/
theorem recoverClosed_sat {first : ℕ} {ss : List Segment} {prev : Option Segment}
    (hss : ∀ s ∈ ss, ∃ (t : Segment) (es : List LogEntry), s = t.listed ∧ t.isActive = false ∧
      t.Describes env d es) :
    (recoverClosed first ss prev d).Sat (fun _ => True)
      (fun x => x.1 = d ∧ (∀ t ∈ x.2, t.isActive = false ∧ t.firstIndex ≤ t.lastIndex ∧
          ∃ es, t.Describes env d es) ∧
        (x.2.Pairwise fun t u => t.lastIndex < u.firstIndex) ∧
        ∀ p ∈ prev, ∀ t ∈ x.2, p.lastIndex < t.firstIndex) fun _ => True := by
  induction ss generalizing prev with
  | nil => exact sat_pure.mpr ⟨rfl, by simp, List.Pairwise.nil, by simp⟩
  | cons s ss ih =>
    obtain ⟨t, es, rfl, hclosed, hfiles⟩ := hss s List.mem_cons_self
    have ih' := fun prev => @ih prev fun s hs => hss s (List.mem_cons_of_mem _ hs)
    have hlast : t.listed.lastIndex = t.lastIndex := by
      rw [listed, hclosed]
      rfl
    rw [recoverClosed]
    refine sat_check_bind (fun _ => trivial) fun hrange => ?_
    refine sat_check_bind (fun _ => trivial) fun hprev => ?_
    refine sat_check_bind (fun _ => trivial) fun _ => ?_
    rw [hlast] at hrange
    have hrange : t.firstIndex ≤ t.lastIndex := hrange
    have hprev : ∀ p ∈ prev, t.firstIndex = p.lastIndex + 1 := hprev
    split
    · next hskip =>
      refine (ih' none).imp fun x hx => ⟨hx.1, hx.2.1, hx.2.2.1, ?_⟩
      rw [hskip.1]
      simp
    · refine Sat.bind ((yields_recover_closed hfiles).sat (by simp) rfl)
        fun y hy => ?_
      obtain rfl : (d, t) = y := hy
      refine (ih' (some t)).bind fun x hx => sat_pure.mpr ⟨hx.1, ?_, ?_, ?_⟩
      · intro u hu
        rcases List.mem_cons.mp hu with rfl | hu
        · exact ⟨hclosed, hrange, es, hfiles⟩
        · exact hx.2.1 u hu
      · exact List.pairwise_cons.mpr ⟨hx.2.2.2 t rfl, hx.2.2.1⟩
      · intro p hp u hu
        have hp' := hprev p hp
        rcases List.mem_cons.mp hu with rfl | hu
        · omega
        · have := hx.2.2.2 t rfl u hu
          omega

/-- The segments of a directory that is sound can be described when they are listed. -/
theorem exists_described {names : List FileName} (hsound : d.Sound env) (hnames : d.Lists names) :
    (∀ f l, .closedMeta f l ∈ names → ∃ (t : Segment) (es : List LogEntry),
      closedSegment f l = t.listed ∧ t.isActive = false ∧ t.Describes env d es) ∧
    ∀ f, .activeMeta f ∈ names → ∃ (t : Segment) (es : List LogEntry),
      activeSegment f = t.listed ∧ t.isActive = true ∧ t.Describes env d es := by
  constructor
  · intro f l hmem
    obtain ⟨t, es, hname, ht⟩ := hsound (closedSegment f l) ((hnames.closed_iff f l).mp hmem)
    rw [metaName_of_closed (s := closedSegment f l) rfl, metaName] at hname
    split at hname
    · cases hname
    · next hclosed =>
      have hclosed : t.isActive = false := by simpa using hclosed
      obtain ⟨rfl, rfl⟩ := FileName.closedMeta.inj hname
      refine ⟨t, es, ?_, hclosed, ht⟩
      simp [closedSegment, listed, hclosed]
  · intro f hmem
    obtain ⟨t, es, hname, ht⟩ := hsound (activeSegment f) ((hnames.active_iff f).mp hmem)
    rw [metaName_of_active (s := activeSegment f) rfl, metaName] at hname
    split at hname
    · next hactive =>
      obtain rfl := FileName.activeMeta.inj hname
      refine ⟨t, es, ?_, hactive, ht⟩
      simp [activeSegment, listed, hactive]
    · cases hname

end SegmentLog

end Gringofts
