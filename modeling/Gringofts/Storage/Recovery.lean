import Gringofts.Storage.Layout

/-!
# Opening a log

A directory holds a log when its live segments are laid out and its registers have the right
values; the registers of a directory that has never been opened are missing and have their initial
values. Opening such a directory succeeds, whatever the order in which the files are listed, and
gives an object that represents the log.

## Main definitions

* `Directory.Holds` — a directory holds a log
* `SegmentLog.Represents` — an object represents a log
* `Directory.Lists` — a listing of a directory

## Main results

* `SegmentLog.exists_yields_init` — opening a directory that holds a log
-/

namespace Gringofts

open Outcome Directory Segment

variable {env : StorageEnv} {d d' : Directory} {s : SegmentLog} {l : Log} {a : Segment}
  {base first initial n last : ℕ} {closed ss : List Segment} {active : Option Segment}
  {ces tail : List LogEntry} {name : FileName} {names : List FileName}

/-! ## Registers -/

/-- The number in a file, or its initial value if there is no file. -/
def Directory.number (d : Directory) (name : FileName) (initial : ℕ) : Option ℕ :=
  match d name with
  | none => some initial
  | some (.number n) => some n
  | some _ => none

/-- The registers have the values of a log. -/
structure Directory.Registers (d : Directory) (l : Log) : Prop where
  term_eq : d.number .currentTerm 0 = some l.currentTerm
  vote_eq : d.number .voteFor 0 = some l.voteFor
  first_eq : d.number .firstIndex 1 = some l.firstIndex

/-- A directory holds a log. -/
def Directory.Holds (env : StorageEnv) (d : Directory) (l : Log) : Prop :=
  d.Registers l ∧ ∃ base closed active ces tail,
    Layout env d l.firstIndex base closed active ces tail ∧
      l.entries = (ces ++ tail).drop (l.firstIndex - base)

/-- An object represents a log. -/
structure SegmentLog.Represents (env : StorageEnv) (s : SegmentLog) (l : Log) : Prop where
  registers : s.dir.Registers l
  firstIndex_eq : s.firstIndex = l.firstIndex
  lastIndex_eq : s.lastIndex = l.lastIndex
  currentTerm_eq : s.currentTerm = l.currentTerm
  voteFor_eq : s.voteFor = l.voteFor
  layout : ∃ base a ces tail, s.active = some a ∧
    Layout env s.dir l.firstIndex base s.closed (some a) ces tail ∧
    l.entries = (ces ++ tail).drop (l.firstIndex - base) ∧
    s.limits.dataSize ≤ a.dataSizeLimit ∧ s.limits.metaSize ≤ a.metaSizeLimit

/-- The active segment is the one that the object has. -/
theorem SegmentLog.Represents.layout_of_active (h : s.Represents env l) (ha : s.active = some a) :
    ∃ base ces tail, Layout env s.dir l.firstIndex base s.closed (some a) ces tail ∧
      l.entries = (ces ++ tail).drop (l.firstIndex - base) ∧
      s.limits.dataSize ≤ a.dataSizeLimit ∧ s.limits.metaSize ≤ a.metaSizeLimit := by
  obtain ⟨base, a', ces, tail, ha', hrest⟩ := h.layout
  obtain rfl : a = a' := Option.some.inj (ha.symm.trans ha')
  exact ⟨base, ces, tail, hrest⟩

theorem SegmentLog.Represents.holds (h : s.Represents env l) : s.dir.Holds env l := by
  obtain ⟨base, a, ces, tail, -, hlayout, hentries, -, -⟩ := h.layout
  exact ⟨h.registers, base, s.closed, some a, ces, tail, hlayout, hentries⟩

/-- The end of a log in its layout. -/
theorem Layout.lastIndex_eq (h : Layout env d l.firstIndex base closed active ces tail)
    (hentries : l.entries = (ces ++ tail).drop (l.firstIndex - base)) :
    l.lastIndex + 1 = base + ces.length + tail.length := by
  have h1 := l.lastIndex_add_one
  have h2 := h.first_le
  have h3 := h.base_le
  rw [hentries, List.length_drop, List.length_append] at h1
  omega

/-- A file that is no segment file. -/
def FileName.IsRegister (name : FileName) : Prop :=
  name = .currentTerm ∨ name = .voteFor ∨ name = .firstIndex

/-- Registers and temporary files do not matter for the layout. -/
theorem Layout.congr_register (h : Layout env d first base closed active ces tail)
    (hname : name.IsRegister) (hframe : ∀ n, n ≠ name → n ≠ .tmp name → d' n = d n) :
    Layout env d' first base closed active ces tail := by
  refine h.congr ?_ ?_ ?_ ?_ <;> intros <;> refine hframe _ ?_ (by simp) <;>
    rcases hname with rfl | rfl | rfl <;> simp

/-- The active segment lies below the log only if there is nothing at all. -/
theorem Layout.eq_nil_of_lt (h : Layout env d first base closed (some a) ces tail)
    (hlt : a.lastIndex < first) : closed = [] ∧ tail = [] := by
  obtain ⟨-, hfirst, hfiles⟩ := h.active_files a rfl
  have hlast := hfiles.last_eq
  have hnil : closed = [] := by
    by_contra hne
    obtain ⟨s, hs⟩ := List.exists_mem_of_ne_nil closed hne
    have := h.reach s hs
    have := (h.chain.bounds hs).2.2.2
    omega
  refine ⟨hnil, ?_⟩
  rcases h.reach_active hnil with ⟨htail, -⟩ | hreach
  · exact htail
  · omega

/-- The active segment follows the closed ones. -/
theorem Layout.active_follows (h : Layout env d first base closed (some a) ces tail) :
    (closed.getLast?.isSome = true ∨ a.listed.firstIndex ≤ first) ∧
      ∀ p ∈ closed.getLast?, a.listed.firstIndex = p.lastIndex + 1 := by
  obtain ⟨-, hfirst, -⟩ := h.active_files a rfl
  constructor
  · by_cases hnil : closed = []
    · refine Or.inr (show a.firstIndex ≤ first from ?_)
      rw [hfirst, h.chain.eq_nil_iff.mp hnil]
      exact h.base_le
    · exact Or.inl (List.getLast?_isSome.mpr hnil)
  · intro p hp
    rw [h.chain.lastIndex_getLast hp]
    exact hfirst

theorem Segment.dataName_ne_register (s : Segment) (h : name.IsRegister) : s.dataName ≠ name := by
  rw [dataName]
  rcases h with rfl | rfl | rfl <;> split <;> simp

theorem Segment.metaName_ne_register (s : Segment) (h : name.IsRegister) : s.metaName ≠ name := by
  rw [metaName]
  rcases h with rfl | rfl | rfl <;> split <;> simp

theorem Segment.dataName_not_register (s : Segment) : ¬ s.dataName.IsRegister :=
  fun h => s.dataName_ne_register h rfl

theorem Segment.metaName_not_register (s : Segment) : ¬ s.metaName.IsRegister :=
  fun h => s.metaName_ne_register h rfl

theorem Segment.dataName_ne_tmp (s : Segment) (n : FileName) : s.dataName ≠ .tmp n := by
  rw [dataName]
  split <;> simp

theorem Segment.metaName_ne_tmp (s : Segment) (n : FileName) : s.metaName ≠ .tmp n := by
  rw [metaName]
  split <;> simp

theorem Directory.number_congr (h : d' name = d name) :
    d'.number name initial = d.number name initial := by
  rw [number, number, h]

theorem Directory.number_of_eq (h : d name = some (.number n)) :
    d.number name initial = some n := by
  rw [number, h]

/-- Only the register files matter. -/
theorem Directory.Registers.congr (h : d.Registers l)
    (hd : ∀ name : FileName, name.IsRegister → d' name = d name) : d'.Registers l where
  term_eq := (number_congr (hd _ (Or.inl rfl))).trans h.term_eq
  vote_eq := (number_congr (hd _ (Or.inr (Or.inl rfl)))).trans h.vote_eq
  first_eq := (number_congr (hd _ (Or.inr (Or.inr rfl)))).trans h.first_eq

/-- The files of an active segment are not registers. -/
theorem Directory.Registers.setData (h : d.Registers l) (k : ℕ) (r : DataRegion) :
    (d.set (.activeData k) (.data r)).Registers l :=
  h.congr fun name hname => set_of_ne (by rcases hname with rfl | rfl | rfl <;> simp)

theorem Directory.Registers.created (h : d.Registers l) (m n k : ℕ) :
    (created m n k d).Registers l := by
  refine h.congr fun name hname => created_of_ne k ?_ ?_ <;>
    rcases hname with rfl | rfl | rfl <;> simp

/-- The entries of a log are not in a register. -/
theorem Directory.Registers.of_log {l' : Log} (h : d.Registers l)
    (hterm : l'.currentTerm = l.currentTerm) (hvote : l'.voteFor = l.voteFor)
    (hfirst : l'.firstIndex = l.firstIndex) : d.Registers l' where
  term_eq := by rw [hterm, h.term_eq]
  vote_eq := by rw [hvote, h.vote_eq]
  first_eq := by rw [hfirst, h.first_eq]

/-- `setFileContentWithSync` writes a temporary file and renames it. -/
theorem Directory.yields_setFileContentWithSync (d : Directory) (name : FileName) (n : ℕ) :
    ∃ d₁ d₂ : Directory, (d.setFileContentWithSync name n).Yields [d₁, d₂] d₂ ∧
      (∀ m, m ≠ .tmp name → d₁ m = d m) ∧ d₂ name = some (.number n) ∧
      ∀ m, m ≠ name → m ≠ .tmp name → d₂ m = d m := by
  have hne : name ≠ .tmp name := by
    intro heq
    have := congrArg sizeOf heq
    simp at this
  refine ⟨d.set (.tmp name) (.number n), (d.set (.tmp name) (.number n)).move (.tmp name) name,
    yields_put.bind_cons (yields_rename ?_), ?_, ?_, ?_⟩
  · rw [set_self]
    rfl
  · exact fun m hm => set_of_ne hm
  · rw [move_dst hne, set_self]
  · intro m hm hm'
    rw [move_of_ne hm' hm, set_of_ne hm']

/-- A temporary file does not matter. -/
theorem Directory.Holds.of_tmp (h : d.Holds env l) (hd : ∀ m, m ≠ .tmp name → d' m = d m) :
    d'.Holds env l := by
  obtain ⟨hreg, base, closed, active, ces, tail, hlayout, hentries⟩ := h
  refine ⟨hreg.congr fun m hm => hd m ?_, base, closed, active, ces, tail, ?_, hentries⟩
  · rcases hm with rfl | rfl | rfl <;> simp
  · refine hlayout.congr ?_ ?_ ?_ ?_ <;> intros <;> exact hd _ (by simp)

/-- A register is read, and written if it is not there. -/
theorem SegmentLog.yields_recoverNumber (h : d.number name initial = some n) :
    ∃ ws d', (recoverNumber name initial d).Yields ws (d', n) ∧
      d'.number name initial = some n ∧ ∀ m, m ≠ name → m ≠ .tmp name → d' m = d m := by
  rw [recoverNumber]
  cases hfile : d name with
  | none =>
    obtain rfl : initial = n := by
      rw [Directory.number, hfile] at h
      exact Option.some.inj h
    obtain ⟨d₁, d₂, hrun, -, hval, hframe⟩ := d.yields_setFileContentWithSync name initial
    exact ⟨_, d₂, hrun.bind (yields_pure _), number_of_eq hval, hframe⟩
  | some f =>
    cases f with
    | number k =>
      obtain rfl : k = n := by
        rw [Directory.number, hfile] at h
        exact Option.some.inj h
      exact ⟨_, _, yields_pure _, h, fun _ _ _ => rfl⟩
    | data r =>
      rw [Directory.number, hfile] at h
      cases h
    | records r =>
      rw [Directory.number, hfile] at h
      cases h

/-! ## Listing -/

/-- A listing of a directory has each meta file of a segment once. Other files are ignored. -/
structure Directory.Lists (d : Directory) (names : List FileName) : Prop where
  nodup : names.Nodup
  active_iff : ∀ f, .activeMeta f ∈ names ↔ (d (.activeMeta f)).isSome = true
  closed_iff : ∀ f l, .closedMeta f l ∈ names ↔ (d (.closedMeta f l)).isSome = true

theorem Directory.lists_empty : Directory.empty.Lists [] where
  nodup := List.nodup_nil
  active_iff f := by simp [Directory.empty]
  closed_iff f l := by simp [Directory.empty]

/-- Only the names of the meta files matter. -/
theorem Directory.Lists.congr (h : d.Lists names)
    (hactive : ∀ f, d' (.activeMeta f) = d (.activeMeta f))
    (hclosed : ∀ f l, d' (.closedMeta f l) = d (.closedMeta f l)) : d'.Lists names where
  nodup := h.nodup
  active_iff f := by rw [hactive, h.active_iff]
  closed_iff f l := by rw [hclosed, h.closed_iff]

/-- A directory can be listed if there is a bound on the indices of its segments. -/
theorem Directory.exists_lists {bound : ℕ}
    (hactive : ∀ f, (d (.activeMeta f)).isSome = true → f < bound)
    (hclosed : ∀ f l, (d (.closedMeta f l)).isSome = true → f ≤ l ∧ l < bound) :
    ∃ names, d.Lists names := by
  let closedNames := ((List.range bound).product (List.range bound)).map fun p =>
    FileName.closedMeta p.1 p.2
  let activeNames := (List.range bound).map FileName.activeMeta
  refine ⟨(closedNames ++ activeNames).filter fun n => (d n).isSome, ?_, ?_, ?_⟩
  · refine (List.nodup_append.mpr ⟨?_, ?_, ?_⟩).filter _
    · refine (List.nodup_range.product List.nodup_range).map fun p q hpq => ?_
      injection hpq with h1 h2
      exact Prod.ext h1 h2
    · refine List.nodup_range.map fun f g hfg => ?_
      injection hfg
    · intro n hn n' hn' heq
      obtain ⟨p, -, rfl⟩ := List.mem_map.mp hn
      obtain ⟨f, -, rfl⟩ := List.mem_map.mp hn'
      cases heq
  · intro f
    rw [List.mem_filter, List.mem_append]
    refine ⟨fun hf => hf.2, fun hf => ⟨Or.inr (List.mem_map.mpr ⟨f, ?_, rfl⟩), hf⟩⟩
    exact List.mem_range.mpr (hactive f hf)
  · intro f l
    rw [List.mem_filter, List.mem_append]
    refine ⟨fun hf => hf.2, fun hf => ⟨Or.inl (List.mem_map.mpr ⟨(f, l), ?_, rfl⟩), hf⟩⟩
    obtain ⟨hle, hlt⟩ := hclosed f l hf
    rw [List.pair_mem_product, List.mem_range, List.mem_range]
    exact ⟨hle.trans_lt hlt, hlt⟩

/-- A directory in which a log is laid out can be listed: its segments have indices up to that of
the active one. -/
theorem Layout.exists_lists (h : Layout env d first base closed active ces tail) :
    ∃ names, d.Lists names := by
  refine @Directory.exists_lists d (base + ces.length + 1) (fun f hf => ?_) fun f l hf => ?_
  · obtain ⟨a, ha, rfl⟩ := h.active_only f hf
    rw [(h.active_files a ha).2.1]
    exact Nat.lt_succ_self _
  · rcases h.closed_only f l hf with ⟨s, hs, rfl, rfl⟩ | hlow
    · have := h.chain.bounds hs
      exact ⟨this.2.2.1, by omega⟩
    · exact ⟨hlow.1, by omega⟩

theorem Directory.Holds.exists_lists (h : d.Holds env l) : ∃ names, d.Lists names := by
  obtain ⟨-, base, closed, active, ces, tail, hlayout, -⟩ := h
  exact hlayout.exists_lists

namespace SegmentLog

/-- The object for a closed segment that has been found. -/
def closedSegment (f l : ℕ) : Segment := { isActive := false, firstIndex := f, lastIndex := l }

/-- The object for an active segment that has been found. -/
def activeSegment (f : ℕ) : Segment := { isActive := true, firstIndex := f, lastIndex := f - 1 }

/-- Segments in the order of their first index. -/
def Ordered (ss : List Segment) : Prop := ss.Pairwise fun s t => s.firstIndex < t.firstIndex

section Insert

variable {s : Segment} {ss : List Segment} (hnew : ∀ t ∈ ss, t.firstIndex ≠ s.firstIndex)
include hnew

theorem filter_ne : (ss.filter fun t => decide (t.firstIndex ≠ s.firstIndex)) = ss :=
  List.filter_eq_self.mpr fun t ht => decide_eq_true (hnew t ht)

theorem mem_insertSegment {t : Segment} : t ∈ insertSegment s ss ↔ t = s ∨ t ∈ ss := by
  rw [insertSegment, filter_ne hnew, List.mem_orderedInsert]

theorem ordered_insertSegment (h : Ordered ss) : Ordered (insertSegment s ss) := by
  rw [insertSegment, filter_ne hnew]
  induction ss with
  | nil => exact List.pairwise_singleton _ _
  | cons t ts ih =>
    obtain ⟨hhead, htail⟩ := List.pairwise_cons.mp h
    have hne := hnew t List.mem_cons_self
    have hrest := fun u hu => hnew u (List.mem_cons_of_mem _ hu)
    rw [List.orderedInsert_cons]
    split
    · next hle =>
      refine List.pairwise_cons.mpr ⟨fun u hu => ?_, h⟩
      rcases List.mem_cons.mp hu with rfl | hu
      · omega
      · have := hhead u hu
        omega
    · next hlt =>
      refine List.pairwise_cons.mpr ⟨fun u hu => ?_, ih hrest htail⟩
      rcases (List.mem_orderedInsert _).mp hu with rfl | hu
      · omega
      · exact hhead u hu

/-- A segment behind all others goes to the end. -/
theorem insertSegment_last (hlast : ∀ t ∈ ss, t.firstIndex < s.firstIndex) :
    insertSegment s ss = ss ++ [s] := by
  rw [insertSegment, filter_ne hnew]
  induction ss with
  | nil => rfl
  | cons t ts ih =>
    rw [List.orderedInsert_cons, if_neg (Nat.not_le.mpr (hlast t List.mem_cons_self)),
      ih (fun u hu => hnew u (List.mem_cons_of_mem _ hu))
        (fun u hu => hlast u (List.mem_cons_of_mem _ hu))]
    rfl

end Insert

/-- **Listing** finds each segment, in whatever order the files come. -/
theorem yields_listSegments (hnodup : names.Nodup) (hordered : Ordered closed)
    (honce : ∀ f l l', .closedMeta f l ∈ names → .closedMeta f l' ∈ names → l = l')
    (hnew : ∀ f l, .closedMeta f l ∈ names → ∀ s ∈ closed, s.firstIndex ≠ f)
    (hactive : ∀ f, .activeMeta f ∈ names →
      active = none ∧ ∀ f', .activeMeta f' ∈ names → f' = f) :
    ∃ ss a, (listSegments names closed active).Yields [] (ss, a) ∧ Ordered ss ∧
      (∀ s, s ∈ ss ↔ s ∈ closed ∨ ∃ f l, .closedMeta f l ∈ names ∧ s = closedSegment f l) ∧
      (∀ f, .activeMeta f ∈ names → a = some (activeSegment f)) ∧
      ((∀ f, .activeMeta f ∉ names) → a = active) := by
  induction names generalizing closed active with
  | nil => exact ⟨closed, active, yields_pure _, hordered, by simp, by simp, fun _ => rfl⟩
  | cons name names ih =>
    obtain ⟨hfresh, hrest⟩ := List.nodup_cons.mp hnodup
    have honce' : ∀ f l l', FileName.closedMeta f l ∈ names → .closedMeta f l' ∈ names → l = l' :=
      fun f l l' hl hl' => honce f l l' (List.mem_cons_of_mem _ hl) (List.mem_cons_of_mem _ hl')
    -- a file that is ignored
    have hskip : (∀ f l, name ≠ .closedMeta f l) → (∀ f, name ≠ .activeMeta f) →
        listSegments (name :: names) closed active = listSegments names closed active →
        ∃ ss a, (listSegments (name :: names) closed active).Yields [] (ss, a) ∧ Ordered ss ∧
          (∀ s, s ∈ ss ↔ s ∈ closed ∨ ∃ f l, .closedMeta f l ∈ name :: names ∧
            s = closedSegment f l) ∧
          (∀ f, .activeMeta f ∈ name :: names → a = some (activeSegment f)) ∧
          ((∀ f, .activeMeta f ∉ name :: names) → a = active) := by
      intro hc ha heq
      have hmemc : ∀ f l, FileName.closedMeta f l ∈ name :: names ↔ .closedMeta f l ∈ names :=
        fun f l => by simp [List.mem_cons, (hc f l).symm]
      have hmema : ∀ f, FileName.activeMeta f ∈ name :: names ↔ .activeMeta f ∈ names :=
        fun f => by simp [List.mem_cons, (ha f).symm]
      simp only [hmemc, hmema] at hnew hactive ⊢
      rw [heq]
      exact ih hrest hordered honce' hnew hactive
    cases name with
    | closedMeta f l =>
      have hf := hnew f l List.mem_cons_self
      obtain ⟨ss, a, hrun, hord, hmem, hact, hnone⟩ := @ih
        (insertSegment (closedSegment f l) closed) active hrest
        (ordered_insertSegment hf hordered) honce'
        (by
          intro f' l' hf' s hs
          rcases (mem_insertSegment hf).mp hs with rfl | hs
          · rintro rfl
            rw [honce f l l' List.mem_cons_self (List.mem_cons_of_mem _ hf')] at hfresh
            exact hfresh hf'
          · exact hnew f' l' (List.mem_cons_of_mem _ hf') s hs)
        (by simpa using hactive)
      refine ⟨ss, a, (yields_check hf).bind_nil hrun, hord, ?_, by simpa using hact,
        by simpa using hnone⟩
      intro s
      rw [hmem, mem_insertSegment hf]
      constructor
      · rintro ((rfl | hs) | ⟨f', l', hf', rfl⟩)
        · exact Or.inr ⟨f, l, List.mem_cons_self, rfl⟩
        · exact Or.inl hs
        · exact Or.inr ⟨f', l', List.mem_cons_of_mem _ hf', rfl⟩
      · rintro (hs | ⟨f', l', hf', rfl⟩)
        · exact Or.inl (Or.inr hs)
        · rcases List.mem_cons.mp hf' with heq | hf'
          · injection heq with h1 h2
            subst h1 h2
            exact Or.inl (Or.inl rfl)
          · exact Or.inr ⟨f', l', hf', rfl⟩
    | activeMeta f =>
      obtain ⟨rfl, honly⟩ := hactive f List.mem_cons_self
      have hnomore : ∀ f', FileName.activeMeta f' ∉ names := by
        intro f' hf'
        obtain rfl := honly f' (List.mem_cons_of_mem _ hf')
        exact hfresh hf'
      obtain ⟨ss, a, hrun, hord, hmem, -, hnone⟩ := @ih closed (some (activeSegment f)) hrest
        hordered honce'
        (by simpa using hnew) (fun f' hf' => absurd hf' (hnomore f'))
      have ha := hnone hnomore
      refine ⟨ss, a, (yields_check rfl).bind_nil hrun, hord, by simpa using hmem, ?_, ?_⟩
      · intro f' hf'
        rw [ha, honly f' hf']
      · intro hno
        exact absurd List.mem_cons_self (hno f)
    | currentTerm => exact hskip (by simp) (by simp) rfl
    | voteFor => exact hskip (by simp) (by simp) rfl
    | firstIndex => exact hskip (by simp) (by simp) rfl
    | activeData f => exact hskip (by simp) (by simp) rfl
    | closedData f l => exact hskip (by simp) (by simp) rfl
    | tmp n => exact hskip (by simp) (by simp) rfl
    | dropped n ts => exact hskip (by simp) (by simp) rfl

/-! ## Segments -/

/-- The closed segments that a listing finds: files that have been left behind come first. -/
theorem exists_retained (h : Layout env d first base closed active ces tail)
    (hnames : d.Lists names) (hordered : Ordered ss)
    (hmem : ∀ s, s ∈ ss ↔ ∃ f l, .closedMeta f l ∈ names ∧ s = closedSegment f l) :
    ∃ retained : List Segment, ss = retained ++ closed.map listed ∧
      ∀ s ∈ retained, s.firstIndex ≤ s.lastIndex ∧ s.lastIndex < base := by
  have hlisted : ∀ s ∈ closed, s.listed = closedSegment s.firstIndex s.lastIndex := by
    intro s hs
    simp [listed, closedSegment, (h.chain.bounds hs).1]
  have hkept : ∀ s, s ∈ closed.map listed → s ∈ ss ∧ base ≤ s.lastIndex := by
    intro s hs
    obtain ⟨t, ht, rfl⟩ := List.mem_map.mp hs
    obtain ⟨hclosed, hbounds⟩ := h.chain.bounds ht
    obtain ⟨ss₁, ss₂, rfl⟩ := List.append_of_mem ht
    obtain ⟨es₁, es₂, -, -, hsuffix⟩ := h.chain.of_append
    rw [hlisted t ht]
    refine ⟨(hmem _).mpr ⟨_, _, ?_, rfl⟩, show base ≤ t.lastIndex by omega⟩
    cases hsuffix with
    | cons _ _ _ hfiles _ =>
      rw [hnames.closed_iff, ← metaName_of_closed hclosed]
      exact hfiles.isSome_meta
  have hsplit : ∀ s ∈ ss, s ∈ closed.map listed ∨
      s.firstIndex ≤ s.lastIndex ∧ s.lastIndex < base := by
    intro s hs
    obtain ⟨f, l, hfile, rfl⟩ := (hmem s).mp hs
    rcases h.closed_only f l ((hnames.closed_iff f l).mp hfile) with ⟨t, ht, rfl, rfl⟩ | hlow
    · exact Or.inl (List.mem_map.mpr ⟨t, ht, hlisted t ht⟩)
    · exact Or.inr hlow
  have hretained : ∀ s ∈ ss.filter (fun s => decide (s.lastIndex < base)),
      s.firstIndex ≤ s.lastIndex ∧ s.lastIndex < base := by
    intro s hs
    obtain ⟨hs, hlow⟩ := List.mem_filter.mp hs
    have hlow := of_decide_eq_true hlow
    rcases hsplit s hs with hkeep | hlow
    · exact absurd (hkept s hkeep).2 (Nat.not_le.mpr hlow)
    · exact hlow
  refine ⟨ss.filter fun s => decide (s.lastIndex < base), ?_, hretained⟩
  -- both sides are ordered and have the same elements
  have hordered' : Ordered (ss.filter (fun s => decide (s.lastIndex < base)) ++
      closed.map listed) := by
    refine List.pairwise_append.mpr ⟨hordered.filter _, ?_, ?_⟩
    · refine List.pairwise_map.mpr (h.chain.pairwise.imp_of_mem fun {s t} hs _ hlt => ?_)
      exact (h.chain.bounds hs).2.2.1.trans_lt hlt
    · intro s hs t ht
      obtain ⟨u, hu, rfl⟩ := List.mem_map.mp ht
      have hfirst : base ≤ u.listed.firstIndex := (h.chain.bounds hu).2.1
      have := hretained s hs
      omega
  have hnodup : ∀ {us : List Segment}, Ordered us → us.Nodup := fun hus =>
    hus.imp fun hlt heq => by
      rw [heq] at hlt
      exact lt_irrefl _ hlt
  refine List.Perm.eq_of_pairwise (fun s t _ _ h1 h2 => absurd h1 h2.asymm) hordered hordered' ?_
  refine (List.perm_ext_iff_of_nodup (hnodup hordered) (hnodup hordered')).mpr fun s => ?_
  rw [List.mem_append, List.mem_filter]
  constructor
  · intro hs
    rcases hsplit s hs with hkeep | hlow
    · exact Or.inr hkeep
    · exact Or.inl ⟨hs, decide_eq_true hlow.2⟩
  · rintro (⟨hs, -⟩ | hs)
    · exact hs
    · exact (hkept s hs).1

/-- Files that have been left behind are ignored. -/
theorem yields_recoverClosed_retained {retained : List Segment} {ws : List Directory}
    {x : Directory × List Segment}
    (hretained : ∀ s ∈ retained, s.firstIndex ≤ s.lastIndex ∧ s.lastIndex < first)
    (hrest : (recoverClosed first ss none d).Yields ws x) :
    (recoverClosed first (retained ++ ss) none d).Yields ws x := by
  induction retained with
  | nil => exact hrest
  | cons s retained ih =>
    obtain ⟨h1, h2⟩ := hretained s List.mem_cons_self
    rw [List.cons_append, recoverClosed, if_pos ⟨rfl, h2⟩]
    refine (yields_check h1).bind_nil ?_
    refine (yields_check (by simp)).bind_nil ?_
    refine (yields_check (Or.inr (by omega))).bind_nil ?_
    exact ih fun t ht => hretained t (List.mem_cons_of_mem _ ht)

/-- The segments of a chain are recovered as they were. -/
theorem yields_recoverClosed_chain {es : List LogEntry} {prev : Option Segment}
    (h : Chain env d base ss es) (hreach : ∀ s ∈ ss, first ≤ s.lastIndex)
    (hprev : ∀ p ∈ prev, base = p.lastIndex + 1) (hfirst : prev.isSome = true ∨ base ≤ first) :
    (recoverClosed first (ss.map listed) prev d).Yields [] (d, ss) := by
  induction h generalizing prev with
  | nil base => exact yields_pure _
  | @cons base s c es ss hclosed hbase hne hfiles hrest ih =>
    have hlen := List.length_pos_iff.mpr hne
    have hend := hfiles.last_eq
    have hlast : s.listed.lastIndex = s.lastIndex := by simp [listed, hclosed]
    have hfirst' : s.listed.firstIndex = base := hbase
    have hlive := hreach s List.mem_cons_self
    rw [List.map_cons, recoverClosed, hlast, hfirst',
      if_neg fun hskip => Nat.not_lt.mpr hlive hskip.2]
    refine (yields_check (by omega)).bind_nil ?_
    refine (yields_check hprev).bind_nil ?_
    refine (yields_check hfirst).bind_nil ?_
    refine (yields_recover_closed hfiles).bind_nil ?_
    refine Yields.bind_nil (ih (fun t ht => hreach t (List.mem_cons_of_mem _ ht)) ?_
      (Or.inl rfl)) (yields_pure _)
    intro p hp
    obtain rfl : s = p := by simpa using hp
    omega

/-- The active segment is recovered as it was, with files that may be larger. -/
theorem yields_recoverActive (limits : SegmentLimits)
    (h : Layout env d first base closed (some a) ces tail) :
    ∃ ws d', (recoverActive limits first closed.getLast? (some a.listed) d).Yields ws
        (d', if a.lastIndex < first then none
          else some (a.enlarge limits.dataSize limits.metaSize)) ∧
      Layout env d' first base closed (some (a.enlarge limits.dataSize limits.metaSize)) ces tail ∧
      ∀ name, name ≠ a.dataName → name ≠ a.metaName → d' name = d name := by
  obtain ⟨hactive, hfirst, hfiles⟩ := h.active_files a rfl
  obtain ⟨ws, d', hrun, hfiles', hframe, -⟩ := yields_recover hfiles
    (Or.inr ⟨limits.data_pos, limits.data_aligned⟩) (Or.inr ⟨limits.meta_pos, limits.meta_aligned⟩)
  obtain ⟨hbegin, hcontiguous⟩ := h.active_follows
  have hrun' : (recoverActive limits first closed.getLast? (some a.listed) d).Yields (ws ++ [])
      (d', if a.lastIndex < first then none
        else some (a.enlarge limits.dataSize limits.metaSize)) := by
    refine (yields_check hbegin).bind_nil ?_
    refine (yields_check hcontiguous).bind_nil ?_
    exact hrun.bind (yields_pure _)
  refine ⟨_, d', hrun', ?_, hframe⟩
  refine h.setActive hactive hfirst hfiles' ?_ h.reach_active
  intro name hdata hmeta
  refine hframe name ?_ ?_
  · rwa [dataName_of_active hactive]
  · rwa [metaName_of_active hactive]

/-- What opening finds out when the registers have been read: the segments. The closed ones are
recovered from any directory that has their files. -/
theorem yields_segments (h : Layout env d first base closed active ces tail)
    (hnames : d.Lists names) :
    ∃ ss, (listSegments names [] none).Yields [] (ss, active.map listed) ∧
      ∀ d', Chain env d' base closed ces →
        (recoverClosed first ss none d').Yields [] (d', closed) := by
  have honly : ∀ f, .activeMeta f ∈ names →
      (none : Option Segment) = none ∧ ∀ f', .activeMeta f' ∈ names → f' = f := by
    refine fun f hf => ⟨rfl, fun f' hf' => ?_⟩
    obtain ⟨b, hb, rfl⟩ := h.active_only f ((hnames.active_iff f).mp hf)
    obtain ⟨b', hb', rfl⟩ := h.active_only f' ((hnames.active_iff f').mp hf')
    rw [Option.mem_unique hb hb']
  obtain ⟨ss, a, hrun, hordered, hmem, hactive, hnone⟩ := yields_listSegments hnames.nodup
    (List.Pairwise.nil : Ordered [])
    (fun f l l' hl hl' =>
      h.closed_once f l l' ((hnames.closed_iff f l).mp hl) ((hnames.closed_iff f l').mp hl'))
    (by simp) honly
  have ha : a = active.map listed := by
    cases active with
    | none =>
      refine hnone fun f hf => ?_
      obtain ⟨b, hb, -⟩ := h.active_only f ((hnames.active_iff f).mp hf)
      cases hb
    | some b =>
      obtain ⟨hb, -, hfiles⟩ := h.active_files b rfl
      have hfile := hfiles.isSome_meta
      rw [metaName_of_active hb] at hfile
      rw [hactive b.firstIndex ((hnames.active_iff _).mpr hfile)]
      simp [listed, activeSegment, hb]
  obtain ⟨retained, rfl, hretained⟩ := exists_retained h hnames hordered (by simpa using hmem)
  refine ⟨_, ha ▸ hrun, fun d' hchain => yields_recoverClosed_retained (fun s hs => ?_)
    (yields_recoverClosed_chain hchain h.reach (by simp) (Or.inr h.base_le))⟩
  exact ⟨(hretained s hs).1, (hretained s hs).2.trans_le h.base_le⟩

/-- The registers are read, one after the other. -/
theorem yields_registers (h : d.Registers l) :
    ∃ ws₁ ws₂ ws₃ d₁ d₂ d₃, (recoverNumber .currentTerm 0 d).Yields ws₁ (d₁, l.currentTerm) ∧
      (recoverNumber .voteFor 0 d₁).Yields ws₂ (d₂, l.voteFor) ∧
      (recoverNumber .firstIndex 1 d₂).Yields ws₃ (d₃, l.firstIndex) ∧ d₃.Registers l ∧
      ∀ name, ¬ name.IsRegister → (∀ n, name ≠ .tmp n) → d₃ name = d name := by
  obtain ⟨ws₁, d₁, hrun₁, hval₁, hframe₁⟩ := yields_recoverNumber h.term_eq
  have hvote : d₁.number .voteFor 0 = some l.voteFor :=
    (number_congr (hframe₁ _ (by simp) (by simp))).trans h.vote_eq
  obtain ⟨ws₂, d₂, hrun₂, hval₂, hframe₂⟩ := yields_recoverNumber hvote
  have hfirst : d₂.number .firstIndex 1 = some l.firstIndex :=
    (number_congr ((hframe₂ _ (by simp) (by simp)).trans
      (hframe₁ _ (by simp) (by simp)))).trans h.first_eq
  obtain ⟨ws₃, d₃, hrun₃, hval₃, hframe₃⟩ := yields_recoverNumber hfirst
  refine ⟨ws₁, ws₂, ws₃, d₁, d₂, d₃, hrun₁, hrun₂, hrun₃, ⟨?_, ?_, hval₃⟩, ?_⟩
  · rw [number_congr ((hframe₃ _ (by simp) (by simp)).trans
      (hframe₂ _ (by simp) (by simp))), hval₁]
  · rw [number_congr (hframe₃ _ (by simp) (by simp)), hval₂]
  · intro name hname htmp
    simp only [FileName.IsRegister, not_or] at hname
    rw [hframe₃ _ hname.2.2 (htmp _), hframe₂ _ hname.2.1 (htmp _), hframe₁ _ hname.1 (htmp _)]

/-- The last index that is found when there is no active segment. -/
theorem lastIndex_found (h : Layout env d first base closed active ces [])
    (hsome : ∀ s, closed.getLast? = some s → last = s.lastIndex)
    (hnone : closed.getLast? = none → last = 0) :
    (if last = 0 then first - 1 else last) + 1 = base + ces.length := by
  have hpos := h.base_pos
  cases hget : closed.getLast? with
  | none =>
    have hnil : closed = [] := List.getLast?_eq_none_iff.mp hget
    have hbase := h.first_eq_of_nil hnil
    rw [if_pos (hnone hget), h.chain.eq_nil_iff.mp hnil, List.length_nil]
    omega
  | some s =>
    have hlast := hsome s hget
    have hend := h.chain.lastIndex_getLast hget
    have hbound := h.chain.bounds (List.mem_of_getLast? hget)
    rw [if_neg (by omega), hlast, hend]

/-- The object that is put together when there is no active segment represents the log. -/
theorem represents_created (limits : SegmentLimits) (hreg : d.Registers l)
    (h : Layout env d l.firstIndex base closed active ces [])
    (hentries : l.entries = (ces ++ []).drop (l.firstIndex - base))
    (hlast : last + 1 = base + ces.length) :
    Represents env ⟨created limits.dataSize limits.metaSize (last + 1) d, limits,
      l.firstIndex, last, l.currentTerm, l.voteFor, closed,
      some (fresh limits.dataSize limits.metaSize (last + 1))⟩ l := by
  have hend := h.lastIndex_eq hentries
  refine ⟨hreg.created _ _ _, rfl, ?_, rfl, rfl, ?_⟩
  · show last = l.lastIndex
    rw [List.length_nil] at hend
    omega
  · refine ⟨base, _, ces, [], rfl, ?_, hentries, le_rfl, le_rfl⟩
    show Layout env (created _ _ (last + 1) d) _ _ _ _ _ _
    rw [hlast]
    exact h.create

/-- The directory holds the log all the time while the active segment is created. -/
theorem holds_creating (limits : SegmentLimits) (hreg : d.Registers l)
    (h : Layout env d l.firstIndex base closed none ces [])
    (hentries : l.entries = (ces ++ []).drop (l.firstIndex - base))
    (hlast : last + 1 = base + ces.length) :
    ∀ w ∈ d :: creating limits (last + 1) d, w.Holds env l :=
  forall_creating limits (last + 1) ⟨hreg, base, closed, none, ces, [], h, hentries⟩
    (fun r => ⟨hreg.setData _ r, base, closed, none, ces, [], h.setData _ _, hentries⟩)
    fun m n => ⟨hreg.created m n _, base, closed, _, ces, [], hlast ▸ h.create, hentries⟩

/-- **Opening a directory that holds a log** gives an object that represents it, whatever the order
in which the files are listed and whatever the limits. -/
theorem exists_yields_init (h : d.Holds env l) (limits : SegmentLimits) (hnames : d.Lists names) :
    ∃ ws s, (init limits names d).Yields ws s ∧ s.Represents env l ∧ s.limits = limits := by
  obtain ⟨hreg, base, closed, active, ces, tail, hlayout, hentries⟩ := h
  obtain ⟨ws₁, ws₂, ws₃, d₁, d₂, d₃, hrun₁, hrun₂, hrun₃, hreg₃, hframe₃⟩ := yields_registers hreg
  have hlayout₃ : Layout env d₃ l.firstIndex base closed active ces tail := by
    refine hlayout.congr ?_ ?_ ?_ ?_ <;> intros <;>
      exact hframe₃ _ (by simp [FileName.IsRegister]) (by simp)
  have hnames₃ : d₃.Lists names := by
    refine hnames.congr ?_ ?_ <;> intros <;>
      exact hframe₃ _ (by simp [FileName.IsRegister]) (by simp)
  obtain ⟨ss, hlist, hclosed⟩ := yields_segments hlayout₃ hnames₃
  -- what all cases begin with
  have hbegin : ∀ {ws : List Directory} {s : SegmentLog}, _ → (init limits names d).Yields
      (ws₁ ++ (ws₂ ++ (ws₃ ++ ws))) s := fun hrest =>
    hrun₁.bind (hrun₂.bind (hrun₃.bind (hlist.bind_nil ((hclosed d₃ hlayout₃.chain).bind_nil
      hrest))))
  cases active with
  | none =>
    obtain rfl := hlayout.no_active rfl
    exact ⟨_, _, hbegin (Yields.bind_nil (yields_pure _)
      ((yields_createActiveSegment _ _ _).bind (yields_pure _))),
      represents_created limits hreg₃ hlayout₃ hentries
        (lastIndex_found hlayout₃ (fun s hs => by rw [hs]) (fun hs => by rw [hs])), rfl⟩
  | some a =>
    obtain ⟨ws₄, d₄, hactive, hlayout₄, hframe₄⟩ := yields_recoverActive limits hlayout₃
    have hreg₄ : d₄.Registers l := hreg₃.congr fun name hname => by
      refine hframe₄ name ?_ ?_
      · exact (a.dataName_ne_register hname).symm
      · exact (a.metaName_ne_register hname).symm
    by_cases hlt : a.lastIndex < l.firstIndex
    · obtain ⟨-, rfl⟩ := hlayout.eq_nil_of_lt hlt
      rw [if_pos hlt] at hactive
      exact ⟨_, _, hbegin (hactive.bind
        ((yields_createActiveSegment _ _ _).bind (yields_pure _))),
        represents_created limits hreg₄ hlayout₄ hentries
          (lastIndex_found hlayout₄ (fun s hs => by rw [hs]) (fun hs => by rw [hs])), rfl⟩
    · rw [if_neg hlt] at hactive
      refine ⟨_, _, hbegin (hactive.bind (yields_pure _)), ⟨hreg₄, rfl, ?_, rfl, rfl, ?_⟩,
        rfl⟩
      · have hend := hlayout.lastIndex_eq hentries
        obtain ⟨-, hfirst, hfiles⟩ := hlayout.active_files a rfl
        have hlast := hfiles.last_eq
        have hpos := l.first_pos
        show (if a.lastIndex = 0 then l.firstIndex - 1 else a.lastIndex) = l.lastIndex
        rw [if_neg (by omega)]
        omega
      · exact ⟨base, _, ces, tail, rfl, hlayout₄, hentries, le_max_right _ _, le_max_right _ _⟩

end SegmentLog

end Gringofts
