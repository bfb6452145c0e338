import Gringofts.Storage.Sound

/-!
# What opening needs

Opening a directory goes by the names of the meta files. If it succeeds then the segments that reach
the log have their data files, the records of the closed ones end where their names say, and each of
them is preceded by another unless the log begins in it. These are the reasons for which a directory
is refused.

Nothing is left of a log if all segments in its directory lie below the first index. Such a
directory can be opened, and gives an empty log.

## Main definitions

* `Directory.Openable` — what holds of a directory that has been opened
* `Directory.Stale` — all segments lie below an index

## Main results

* `SegmentLog.openable_of_init` — what has been opened was openable
* `Directory.Stale.exists_yields_init` — opening a directory without live segments
-/

namespace Gringofts

open Outcome Directory Segment

variable {env : StorageEnv} {d d' : Directory} {first : ℕ} {names : List FileName} {k : ℕ}

/-! ## Refusals -/

/-- A segment has its data file, and if it is closed its records end at its last index. -/
structure Segment.Opens (d : Directory) (t : Segment) : Prop where
  data : (d t.dataName).isSome = true
  last : t.isActive = false → ∃ r, d t.metaName = some (.records r) ∧
    t.firstIndex + scan r t.firstIndex (r.size / sizeofLogMeta) 0 - 1 = t.lastIndex

/-- What holds of a directory that has been opened with a first index. -/
structure Directory.Openable (d : Directory) (first : ℕ) : Prop where
  once : ∀ f g, (d (.activeMeta f)).isSome = true → (d (.activeMeta g)).isSome = true → f = g
  range : ∀ f l, (d (.closedMeta f l)).isSome = true → f ≤ l
  live : ∀ t : Segment, (d t.metaName).isSome = true → (t.isActive = false → first ≤ t.lastIndex) →
    t.Opens d ∧ (t.firstIndex ≤ first ∨
      ∃ f l, (d (.closedMeta f l)).isSome = true ∧ t.firstIndex = l + 1)

theorem Directory.sat_openData (d : Directory) (name : FileName) :
    (d.openData name).Sat (fun _ => True) (fun _ => (d name).isSome = true) fun _ => True := by
  rw [openData]
  split
  · next r hfile =>
    rw [hfile]
    exact sat_pure.mpr rfl
  · exact sat_fail.mpr trivial

theorem Directory.sat_openMeta (d : Directory) (name : FileName) :
    (d.openMeta name).Sat (fun _ => True) (fun r => d name = some (.records r)) fun _ => True := by
  rw [openMeta]
  split
  · next r hfile => exact sat_pure.mpr hfile
  · exact sat_fail.mpr trivial

/-- Recovery opens the data file. -/
theorem Segment.recover_sat (t : Segment) (m n : ℕ) (d : Directory) :
    (t.recoverActiveOrClosedSegment m n d).Sat (fun _ => True)
      (fun _ => (d t.dataName).isSome = true) fun _ => True := by
  rw [recoverActiveOrClosedSegment]
  exact (d.sat_openData _).bind fun _ h => (sat_trivial _).imp fun _ _ => h

/-- A closed segment that is recovered keeps its last index, and the directory stays as it is. -/
theorem Segment.recover_closed_sat {t : Segment} (hclosed : t.isActive = false) (d : Directory) :
    (t.recoverActiveOrClosedSegment 0 0 d).Sat (fun _ => True)
      (fun x => x.1 = d ∧ x.2.lastIndex = t.lastIndex ∧ t.Opens d) fun _ => True := by
  have hmap : ∀ {α : Type} [Inhabited α] {unit : ℕ} (file : Region α unit → File)
      (name : FileName) (r : Region α unit), mapRegion file name 0 r d = pure (d, r) :=
    fun _ _ _ => if_neg (Nat.not_lt_zero _)
  rw [recoverActiveOrClosedSegment]
  refine (d.sat_openData _).bind fun data hdata => ?_
  rw [hmap]
  refine Sat.bind (sat_pure.mpr rfl) fun x hx => ?_
  obtain rfl : (d, data) = x := hx
  refine (d.sat_openMeta _).bind fun r hr => ?_
  rw [hmap]
  refine Sat.bind (sat_pure.mpr rfl) fun x hx => ?_
  obtain rfl : (d, r) = x := hx
  refine sat_check_bind (fun _ => trivial) fun hlast => ?_
  have hlast := hlast.resolve_left (by simp [hclosed])
  refine sat_check_bind (fun _ => trivial) fun _ => ?_
  refine sat_check_bind (fun _ => trivial) fun _ => ?_
  exact sat_pure.mpr ⟨rfl, hlast, hdata, fun _ => ⟨r, hr, hlast⟩⟩

namespace SegmentLog

/-- What the loop over the closed segments needs of them. -/
theorem recoverClosed_needs {ss : List Segment} {prev : Option Segment}
    (hss : ∀ s ∈ ss, s.isActive = false) :
    (recoverClosed first ss prev d).Sat (fun _ => True)
      (fun x => x.1 = d ∧ (∀ p ∈ x.2, ∃ u ∈ ss, u.lastIndex = p.lastIndex) ∧
        ∀ t ∈ ss, t.firstIndex ≤ t.lastIndex ∧ (first ≤ t.lastIndex → t.Opens d ∧
          (t.firstIndex ≤ first ∨
            ∃ u, (u ∈ prev ∨ u ∈ ss) ∧ t.firstIndex = u.lastIndex + 1))) fun _ => True := by
  induction ss generalizing prev with
  | nil => exact sat_pure.mpr ⟨rfl, by simp, by simp⟩
  | cons s ss ih =>
    have ih' := fun prev => @ih prev fun s hs => hss s (List.mem_cons_of_mem _ hs)
    rw [recoverClosed]
    refine sat_check_bind (fun _ => trivial) fun hrange => ?_
    refine sat_check_bind (fun _ => trivial) fun hprev => ?_
    refine sat_check_bind (fun _ => trivial) fun hbegin => ?_
    split
    · next hskip =>
      refine (ih' none).imp fun x hx => ⟨hx.1, fun p hp => ?_, fun t ht => ?_⟩
      · obtain ⟨u, hu, hlast⟩ := hx.2.1 p hp
        exact ⟨u, List.mem_cons_of_mem _ hu, hlast⟩
      · rcases List.mem_cons.mp ht with rfl | ht
        · exact ⟨hrange, fun hlive => absurd hskip.2 (Nat.not_lt.mpr hlive)⟩
        · refine (hx.2.2 t ht).imp_right fun hopens hlive => (hopens hlive).imp_right
            (Or.imp_right ?_)
          rintro ⟨u, hu | hu, hfirst⟩
          · cases hu
          · exact ⟨u, Or.inr (List.mem_cons_of_mem _ hu), hfirst⟩
    · refine (recover_closed_sat (hss s List.mem_cons_self) d).bind fun y hy => ?_
      obtain ⟨d₁, s'⟩ := y
      obtain ⟨rfl, hlast, hopens⟩ := hy
      refine (ih' (some s')).bind fun x hx => sat_pure.mpr ⟨hx.1, fun p hp => ?_,
        fun t ht => ?_⟩
      · rcases List.mem_cons.mp hp with rfl | hp
        · exact ⟨s, List.mem_cons_self, hlast.symm⟩
        · obtain ⟨u, hu, hlast⟩ := hx.2.1 p hp
          exact ⟨u, List.mem_cons_of_mem _ hu, hlast⟩
      · rcases List.mem_cons.mp ht with rfl | ht
        · refine ⟨hrange, fun _ => ⟨hopens, hbegin.symm.imp_right fun hsome => ?_⟩⟩
          obtain ⟨p, hp⟩ := Option.isSome_iff_exists.mp hsome
          exact ⟨p, Or.inl hp, hprev p hp⟩
        · refine (hx.2.2 t ht).imp_right fun hopens hlive => (hopens hlive).imp_right
            (Or.imp_right ?_)
          rintro ⟨u, hu | hu, hfirst⟩
          · obtain rfl : s' = u := by simpa using hu
            exact ⟨s, Or.inr List.mem_cons_self, hlast ▸ hfirst⟩
          · exact ⟨u, Or.inr (List.mem_cons_of_mem _ hu), hfirst⟩

/-- What the active segment needs. -/
theorem recoverActive_needs (limits : SegmentLimits) (prev active : Option Segment) :
    (recoverActive limits first prev active d).Sat (fun _ => True)
      (fun _ => ∀ a ∈ active, (d a.dataName).isSome = true ∧
        (a.firstIndex ≤ first ∨ ∃ p ∈ prev, a.firstIndex = p.lastIndex + 1)) fun _ => True := by
  cases active with
  | none => exact sat_pure.mpr (by simp)
  | some a =>
    rw [recoverActive]
    refine sat_check_bind (fun _ => trivial) fun hbegin => ?_
    refine sat_check_bind (fun _ => trivial) fun hprev => ?_
    refine (recover_sat _ _ _ _).bind fun x hx => sat_pure.mpr fun b hb => ?_
    obtain rfl : a = b := Option.some.inj hb
    refine ⟨hx, hbegin.symm.imp_right fun hsome => ?_⟩
    obtain ⟨p, hp⟩ := Option.isSome_iff_exists.mp hsome
    exact ⟨p, hp, hprev p hp⟩

/-- **What has been opened was openable**, and the first index comes from its file. -/
theorem openable_of_init {limits : SegmentLimits} {s : SegmentLog}
    (hnum : d.number .firstIndex 1 = some first) (hnames : d.Lists names)
    (hrun : (init limits names d).result = .ok s) : s.firstIndex = first ∧ d.Openable first := by
  have hsat : (init limits names d).Sat (fun _ => True)
      (fun s => s.firstIndex = first ∧ d.Openable first) fun _ => True := by
    rw [init]
    refine (recoverNumber_sat _ _ _).bind fun x₁ hx₁ => ?_
    refine (recoverNumber_sat _ _ _).bind fun x₂ hx₂ => ?_
    refine (recoverNumber_sat _ _ _).bind fun x₃ hx₃ => ?_
    obtain ⟨hkeeps, hread⟩ := hx₁.keeps hx₂ hx₃
    obtain ⟨d₃, first'⟩ := x₃
    obtain rfl : first' = first := Option.some.inj (hread.symm.trans hnum)
    refine (listSegments_sat _ _ _).bind fun y hy => ?_
    obtain ⟨ss, active⟩ := y
    obtain ⟨hss, -, hactive⟩ := hy
    have hmem : ∀ f l, closedSegment f l ∈ ss ↔ (d (.closedMeta f l)).isSome = true := by
      intro f l
      rw [hss, ← hnames.closed_iff]
      simp [closedSegment]
    have hkind : ∀ s ∈ ss, s = closedSegment s.firstIndex s.lastIndex := by
      intro s hs
      obtain ⟨f, l, -, rfl⟩ := ((hss s).mp hs).resolve_left (by simp)
      rfl
    refine (recoverClosed_needs fun s hs => by rw [hkind s hs]; rfl).bind fun z hz => ?_
    obtain ⟨d', closed⟩ := z
    obtain ⟨rfl, hlast, hneeds⟩ := hz
    have hbefore : ∀ u ∈ ss, (d (.closedMeta u.firstIndex u.lastIndex)).isSome = true :=
      fun u hu => (hmem _ _).mp (hkind u hu ▸ hu)
    refine (recoverActive_needs limits _ active).bind fun w hw => ?_
    have hfound : ∀ f, (d (.activeMeta f)).isSome = true → active = some (activeSegment f) :=
      fun f hf => (hactive f ((hnames.active_iff f).mpr hf)).2
    have hopenable : d.Openable first' := by
      refine ⟨fun f g hf hg => ?_, fun f l hf => (hneeds _ ((hmem f l).mpr hf)).1,
        fun t ht hreach => ?_⟩
      · exact congrArg Segment.firstIndex (Option.some.inj ((hfound f hf).symm.trans (hfound g hg)))
      · cases hkind : t.isActive with
        | false =>
          rw [metaName_of_closed hkind] at ht
          obtain ⟨hopens, hfirst⟩ := (hneeds _ ((hmem _ _).mpr ht)).2 (hreach hkind)
          refine ⟨⟨?_, fun _ => ?_⟩, hfirst.imp_right ?_⟩
          · rw [← (hkeeps t (by simp)).1, dataName_of_closed hkind]
            exact hopens.data
          · rw [← (hkeeps t (by simp)).2, metaName_of_closed hkind]
            exact hopens.last rfl
          · rintro ⟨u, hu | hu, heq⟩
            · cases hu
            · exact ⟨_, _, hbefore u hu, heq⟩
        | true =>
          rw [metaName_of_active hkind] at ht
          obtain ⟨hdata, hfirst⟩ := hw _ (hfound _ ht)
          refine ⟨⟨?_, fun hclosed => ?_⟩, hfirst.imp_right ?_⟩
          · rw [← (hkeeps t (by simp)).1, dataName_of_active hkind]
            exact hdata
          · rw [hkind] at hclosed
            cases hclosed
          · rintro ⟨p, hp, heq⟩
            obtain ⟨u, hu, hul⟩ := hlast p (List.mem_of_getLast? hp)
            exact ⟨_, _, hbefore u hu, hul ▸ heq⟩
    obtain ⟨d₄, active'⟩ := w
    cases active' with
    | some a => exact sat_pure.mpr ⟨rfl, hopenable⟩
    | none => exact (sat_trivial _).bind fun _ _ => sat_pure.mpr ⟨rfl, hopenable⟩
  exact hsat.of_result hrun

end SegmentLog

/-! ## A log without segments -/

/-- All segments lie below an index. There may be an active one among them. -/
structure Directory.Stale (env : StorageEnv) (d : Directory) (first : ℕ) : Prop where
  active : ∀ f, (d (.activeMeta f)).isSome = true → ∃ (a : Segment) (es : List LogEntry),
    a.isActive = true ∧ a.firstIndex = f ∧ a.Describes env d es ∧ a.lastIndex < first
  active_once : ∀ f g, (d (.activeMeta f)).isSome = true → (d (.activeMeta g)).isSome = true → f = g
  closed : ∀ f l, (d (.closedMeta f l)).isSome = true → f ≤ l ∧ l < first
  closed_once : ∀ f l l', (d (.closedMeta f l)).isSome = true →
    (d (.closedMeta f l')).isSome = true → l = l'

namespace Directory.Stale

theorem exists_lists (h : d.Stale env first) : ∃ names, d.Lists names := by
  refine @Directory.exists_lists d (first + 1) (fun f hf => ?_) fun f l hf => ?_
  · obtain ⟨a, es, -, rfl, hfiles, hlt⟩ := h.active f hf
    have := hfiles.last_eq
    omega
  · exact ⟨(h.closed f l hf).1, (h.closed f l hf).2.trans (Nat.lt_succ_self _)⟩

end Directory.Stale

/-- A log that ends below an index. -/
theorem Layout.stale {base : ℕ} {closed : List Segment} {active : Option Segment}
    {ces tail : List LogEntry} (h : Layout env d first base closed active ces tail)
    (hk : base + ces.length + tail.length ≤ k) : d.Stale env k := by
  refine ⟨fun f hf => ?_, fun f g hf hg => ?_, fun f l hf => ?_, h.closed_once⟩
  · obtain ⟨a, ha, rfl⟩ := h.active_only f hf
    obtain ⟨hactive, hfirst, hfiles⟩ := h.active_files a ha
    have := hfiles.last_eq
    exact ⟨a, tail, hactive, rfl, hfiles, by omega⟩
  · obtain ⟨a, ha, rfl⟩ := h.active_only f hf
    obtain ⟨b, hb, rfl⟩ := h.active_only g hg
    rw [Option.mem_unique ha hb]
  · rcases h.closed_only f l hf with ⟨t, ht, rfl, rfl⟩ | ⟨hle, hlt⟩
    · have := h.chain.bounds ht
      exact ⟨this.2.2.1, by omega⟩
    · exact ⟨hle, by omega⟩

namespace Directory.Stale

/-- The data file of an active segment is emptied. There was nothing in it. -/
theorem setData (h : d.Stale env first) (hk : first ≤ k ∨ d (.activeMeta k) = none)
    (r : DataRegion) : (d.set (.activeData k) (.data r)).Stale env first := by
  have hframe : ∀ name : FileName, name ≠ .activeData k →
      d.set (.activeData k) (.data r) name = d name := fun _ hne => set_of_ne hne
  refine ⟨fun f hf => ?_, fun f g hf hg => ?_, fun f l hf => ?_, fun f l l' hl hl' => ?_⟩
  · rw [hframe _ (by simp)] at hf
    obtain ⟨a, es, ha, rfl, hfiles, hlt⟩ := h.active f hf
    have hmeta : d.set (.activeData k) (.data r) a.metaName = d a.metaName :=
      hframe _ (by rw [metaName_of_active ha]; simp)
    by_cases hsame : a.firstIndex = k
    · subst hsame
      obtain rfl : es = [] := by
        rcases hk with hle | hnone
        · have := hfiles.last_eq
          exact List.length_eq_zero_iff.mp (by omega)
        · rw [hnone] at hf
          cases hf
      obtain ⟨data, records, -, hrecords, -, hsize, hcontent⟩ := hfiles.files
      refine ⟨{ a with dataSizeLimit := r.size }, [], ha, rfl, ⟨hfiles.first_pos, hfiles.last_eq,
        hfiles.dataOffset_eq, hfiles.metaOffset_eq, r, records, ?_, hmeta.trans hrecords, rfl,
        hsize, Content.nil fun j => hcontent.clean j (Nat.zero_le j)⟩, hlt⟩
      rw [dataName_of_active (by exact ha)]
      exact set_self
    · refine ⟨a, es, ha, rfl, hfiles.congr (hframe _ ?_) hmeta, hlt⟩
      rw [dataName_of_active ha]
      simpa using hsame
  · rw [hframe _ (by simp)] at hf hg
    exact h.active_once f g hf hg
  · rw [hframe _ (by simp)] at hf
    exact h.closed f l hf
  · rw [hframe _ (by simp)] at hl hl'
    exact h.closed_once f l l' hl hl'

/-- An active segment is created below the index, where there was none or an empty one. -/
theorem create (h : d.Stale env first) (hpos : 1 ≤ k) (hk : k ≤ first)
    (hone : ∀ f, (d (.activeMeta f)).isSome = true → f = k) (m n : ℕ) :
    (created m n k d).Stale env first := by
  have honly : ∀ f, (created m n k d (.activeMeta f)).isSome = true → f = k := by
    intro f hf
    by_contra hne
    rw [created_of_ne k (by simp) (by simpa using hne)] at hf
    exact hne (hone f hf)
  refine ⟨fun f hf => ?_, fun f g hf hg => ?_, fun f l hf => ?_, fun f l l' hl hl' => ?_⟩
  · obtain rfl := honly f hf
    refine ⟨_, [], rfl, rfl, describes_fresh_created f hpos d, ?_⟩
    show f - 1 < first
    omega
  · rw [honly f hf, honly g hg]
  · rw [created_of_ne k (by simp) (by simp)] at hf
    exact h.closed f l hf
  · rw [created_of_ne k (by simp) (by simp)] at hl hl'
    exact h.closed_once f l l' hl hl'

/-- **Opening a directory without live segments** gives an empty log. -/
theorem exists_yields_init {l : Log} (h : d.Stale env l.firstIndex) (hreg : d.Registers l)
    (limits : SegmentLimits) (hnames : d.Lists names) :
    ∃ ws s, (SegmentLog.init limits names d).Yields ws s ∧ s.firstIndex = l.firstIndex ∧
      s.lastIndex = l.firstIndex - 1 := by
  obtain ⟨ws₁, ws₂, ws₃, d₁, d₂, d₃, hrun₁, hrun₂, hrun₃, -, hframe⟩ :=
    SegmentLog.yields_registers hreg
  obtain ⟨ss, active, hlist, -, hmem, hactive, hnone⟩ :=
    SegmentLog.yields_listSegments hnames.nodup (List.Pairwise.nil : SegmentLog.Ordered [])
      (fun f l l' hl hl' =>
        h.closed_once f l l' ((hnames.closed_iff f l).mp hl) ((hnames.closed_iff f l').mp hl'))
      (by simp) (fun f hf => ⟨rfl, fun g hg =>
        h.active_once g f ((hnames.active_iff g).mp hg) ((hnames.active_iff f).mp hf)⟩)
  have hclosed : (SegmentLog.recoverClosed l.firstIndex (ss ++ []) none d₃).Yields [] (d₃, []) := by
    refine SegmentLog.yields_recoverClosed_retained (fun s hs => ?_) (yields_pure _)
    obtain ⟨f, l, hf, rfl⟩ := ((hmem s).mp hs).resolve_left (by simp)
    exact h.closed f l ((hnames.closed_iff f l).mp hf)
  rw [List.append_nil] at hclosed
  -- the active segment is ignored
  obtain ⟨ws₄, d₄, hrun₄⟩ : ∃ ws₄ d₄,
      (SegmentLog.recoverActive limits l.firstIndex none active d₃).Yields ws₄ (d₄, none) := by
    by_cases hex : ∃ f, .activeMeta f ∈ names
    · obtain ⟨f, hf⟩ := hex
      obtain ⟨a, es, ha, rfl, hfiles, hlt⟩ := h.active f ((hnames.active_iff f).mp hf)
      have hfiles₃ : a.Describes env d₃ es := hfiles.congr
        (hframe _ a.dataName_not_register a.dataName_ne_tmp)
        (hframe _ a.metaName_not_register a.metaName_ne_tmp)
      obtain ⟨ws, d', hrun, -⟩ := yields_recover hfiles₃
        (Or.inr ⟨limits.data_pos, limits.data_aligned⟩)
        (Or.inr ⟨limits.meta_pos, limits.meta_aligned⟩)
      have hle : a.firstIndex ≤ l.firstIndex := by
        have := hfiles.last_eq
        omega
      have hlisted : SegmentLog.activeSegment a.firstIndex = a.listed := by
        simp [SegmentLog.activeSegment, listed, ha]
      refine ⟨ws ++ [], d', ?_⟩
      rw [hactive _ hf, hlisted]
      refine (yields_check (Or.inr hle)).bind_nil ?_
      refine (yields_check (by simp)).bind_nil (hrun.bind ?_)
      exact (yields_pure _).congr rfl (congrArg (Prod.mk d') (if_pos hlt))
    · rw [hnone fun f hf => hex ⟨f, hf⟩]
      exact ⟨[], d₃, yields_pure _⟩
  exact ⟨_, _, hrun₁.bind (hrun₂.bind (hrun₃.bind (hlist.bind_nil (hclosed.bind_nil (hrun₄.bind
    ((yields_createActiveSegment _ _ _).bind (yields_pure _))))))), rfl, rfl⟩

end Directory.Stale

end Gringofts
