import Gringofts.Storage.Layout

/-!
# Truncating a suffix

The segment with the new last index is cut, and the ones behind it are dropped, the active segment
first and the closed ones from the back. While that goes on the directory is not the layout of a
log: there is a gap, or a file without its partner. What is shown here is what the directory is like
after each call, and when it is over.

## Main definitions

* `Dropped` — the files of some segments have been dropped
* `Dropping`, `Drops` — the directory while segments are dropped, and all the calls
* `Directory.Keeps` — the files of all but some segments are as before

## Main results

* `SegmentLog.yields_dropSegments` — what dropping does
* `Layout.cut`, `Layout.clear` — the layout when the segments behind an index have been dropped
-/

namespace Gringofts

open Directory Segment

variable {env : StorageEnv} {d d' : Directory} {s t s' : Segment} {ts ss₁ ss₂ : List Segment}
  {d₁ : Directory}

section Split

variable {α : Type} {p : α → Bool} {xs ys : List α} {x : α}

/-- What is kept of a list whose end satisfies `p`. -/
theorem rdropWhile_append_cons (hx : ¬ p x) (hys : ∀ y ∈ ys, p y = true) :
    (xs ++ x :: ys).rdropWhile p = xs ++ [x] := by
  rw [List.rdropWhile, List.reverse_append, List.reverse_cons, List.append_assoc,
    List.dropWhile_append_of_pos (fun y hy => hys y (List.mem_reverse.mp hy)),
    List.singleton_append, List.dropWhile_cons_of_neg hx, List.reverse_cons, List.reverse_reverse]

/-- What is kept ends with something that does not satisfy `p`. -/
theorem not_of_getLast?_rdropWhile (h : (xs.rdropWhile p).getLast? = some x) : ¬ p x := by
  obtain ⟨zs, hkept⟩ := List.getLast?_eq_some_iff.mp h
  have hne : xs.rdropWhile p ≠ [] := List.ne_nil_of_mem (List.mem_of_getLast? h)
  have hnot := List.rdropWhile_last_not p xs hne
  simp only [hkept, List.getLast_concat] at hnot
  exact hnot

/-- What is dropped. -/
theorem rtakeWhile_append_cons (hx : ¬ p x) (hys : ∀ y ∈ ys, p y = true) :
    (xs ++ x :: ys).rtakeWhile p = ys := by
  rw [List.rtakeWhile, List.reverse_append, List.reverse_cons, List.append_assoc,
    List.takeWhile_append_of_pos (fun y hy => hys y (List.mem_reverse.mp hy)),
    List.singleton_append, List.takeWhile_cons_of_neg hx, List.append_nil, List.reverse_reverse]

end Split

/-- The files of segments have been renamed away, and nothing else has changed. -/
structure Dropped (ts : List Segment) (d d' : Directory) : Prop where
  data_eq : ∀ t ∈ ts, d' t.dataName = none
  meta_eq : ∀ t ∈ ts, d' t.metaName = none
  frame : ∀ name, (∀ n ts, name ≠ .dropped n ts) →
    (∀ t ∈ ts, name ≠ t.dataName ∧ name ≠ t.metaName) → d' name = d name

/-- Two segments do not share a file. -/
def Segment.Apart (s t : Segment) : Prop :=
  s.dataName ≠ t.dataName ∧ s.metaName ≠ t.metaName

theorem Segment.Apart.symm (h : s.Apart t) : t.Apart s := ⟨h.1.symm, h.2.symm⟩

theorem Segment.apart_of_first (h : s.firstIndex ≠ t.firstIndex) : s.Apart t := by
  rw [Apart, dataName, dataName, metaName, metaName]
  constructor <;> split <;> split <;> simp [h]

theorem Segment.apart_of_kind (h : s.isActive = true) (h' : t.isActive = false) : s.Apart t := by
  rw [Apart, dataName_of_active h, dataName_of_closed h', metaName_of_active h,
    metaName_of_closed h']
  simp

theorem Segment.closedMeta_ne_dataName (f l : ℕ) (s : Segment) :
    FileName.closedMeta f l ≠ s.dataName := by
  rw [dataName]
  split <;> simp

theorem Segment.activeMeta_ne_dataName (f : ℕ) (s : Segment) :
    FileName.activeMeta f ≠ s.dataName := by
  rw [dataName]
  split <;> simp

theorem Segment.dataName_ne_dropped (s : Segment) (n : FileName) (ts : ℕ) :
    s.dataName ≠ .dropped n ts := by
  rw [dataName]
  split <;> simp

theorem Segment.metaName_ne_dropped (s : Segment) (n : FileName) (ts : ℕ) :
    s.metaName ≠ .dropped n ts := by
  rw [metaName]
  split <;> simp

/-- The files of segments that share none with the given ones are as before. -/
def Directory.Keeps (d d' : Directory) (ts : List Segment) : Prop :=
  ∀ t : Segment, (∀ u ∈ ts, t.Apart u) → d' t.dataName = d t.dataName ∧ d' t.metaName = d t.metaName

namespace Directory.Keeps

variable {d₁ : Directory} {ts us : List Segment} {s s' : Segment}

theorem trans (h : d.Keeps d₁ ts) (h' : d₁.Keeps d' us) : d.Keeps d' (ts ++ us) := by
  intro t ht
  obtain ⟨h1, h2⟩ := h t fun u hu => ht u (List.mem_append_left us hu)
  obtain ⟨h3, h4⟩ := h' t fun u hu => ht u (List.mem_append_right ts hu)
  exact ⟨h3.trans h1, h4.trans h2⟩

/-- Only the files of two segments have changed. -/
theorem of_frame_pair (h : ∀ name, name ≠ s.dataName → name ≠ s.metaName → name ≠ s'.dataName →
    name ≠ s'.metaName → d' name = d name) : d.Keeps d' [s, s'] := by
  intro t ht
  obtain ⟨hdata, hmeta⟩ := ht s (by simp)
  obtain ⟨hdata', hmeta'⟩ := ht s' (by simp)
  have hdm := fun u v : Segment => dataName_ne_metaName u v
  exact ⟨h _ hdata (hdm t s) hdata' (hdm t s'),
    h _ (hdm s t).symm hmeta (hdm s' t).symm hmeta'⟩

/-- Only the files of one segment have changed. -/
theorem of_frame (h : ∀ name, name ≠ s.dataName → name ≠ s.metaName → d' name = d name) :
    d.Keeps d' [s] := by
  intro t ht
  obtain ⟨hdata, hmeta⟩ := ht s (List.mem_singleton_self s)
  exact ⟨h _ hdata (dataName_ne_metaName t s),
    h _ (dataName_ne_metaName s t).symm hmeta⟩

theorem of_dropped (h : Dropped ts d d') : d.Keeps d' ts := by
  intro t ht
  refine ⟨h.frame _ t.dataName_ne_dropped fun u hu => ⟨(ht u hu).1, ?_⟩,
    h.frame _ t.metaName_ne_dropped fun u hu => ⟨?_, (ht u hu).2⟩⟩
  · exact dataName_ne_metaName t u
  · exact (dataName_ne_metaName u t).symm

theorem describes (h : d.Keeps d' ts) {es : List LogEntry} (ht : t.Describes env d es)
    (hapart : ∀ u ∈ ts, t.Apart u) : t.Describes env d' es :=
  ht.congr (h t hapart).1 (h t hapart).2

end Directory.Keeps

/-- One more segment has been dropped before. -/
theorem Dropped.cons (h : Dropped [t] d d₁) (h' : Dropped ts d₁ d') (hapart : ∀ u ∈ ts, t.Apart u) :
    Dropped (t :: ts) d d' := by
  have hdm := fun u v : Segment => dataName_ne_metaName u v
  have hdata := h.data_eq t (List.mem_singleton_self t)
  have hmeta := h.meta_eq t (List.mem_singleton_self t)
  refine ⟨fun u hu => ?_, fun u hu => ?_, fun name hname hne => ?_⟩
  · rcases List.mem_cons.mp hu with rfl | hu
    · rwa [h'.frame _ (dataName_ne_dropped u) fun v hv => ⟨(hapart v hv).1, hdm _ _⟩]
    · exact h'.data_eq u hu
  · rcases List.mem_cons.mp hu with rfl | hu
    · rwa [h'.frame _ (metaName_ne_dropped u) fun v hv =>
        ⟨(hdm _ _).symm, (hapart v hv).2⟩]
    · exact h'.meta_eq u hu
  · rw [h'.frame name hname fun v hv => hne v (List.mem_cons_of_mem _ hv)]
    refine h.frame name hname fun v hv => ?_
    rw [List.mem_singleton.mp hv]
    exact hne t List.mem_cons_self

/-- The directory after `n` calls, while segments are dropped: some of them are gone, and the next
one may have lost its data file. -/
def Dropping (ts : List Segment) (d : Directory) (n : ℕ) (w : Directory) : Prop :=
  ∃ ts₁ ts₂, ts = ts₁ ++ ts₂ ∧ (n = 2 * ts₁.length ∧ Dropped ts₁ d w ∨
    n = 2 * ts₁.length + 1 ∧ w .firstIndex = d .firstIndex ∧
      ∃ t ∈ ts₂.head?, w t.dataName = none ∧ (w t.metaName).isSome = true)

/-- The calls `ws` drop segments. -/
structure Drops (ts : List Segment) (d : Directory) (ws : List Directory) (d' : Directory) :
    Prop where
  trail : Trail d ws d'
  dropped : Dropped ts d d'
  length_eq : ws.length = 2 * ts.length
  point : ∀ n w, (d :: ws)[n]? = some w → Dropping ts d n w

/-- **Dropping** renames the files of the segments, one after the other. -/
theorem SegmentLog.yields_dropSegments (clock : ℕ → ℕ) (j : ℕ)
    (hfiles : ∀ t ∈ ts, ∃ c, t.Describes env d c) (hapart : ts.Pairwise Segment.Apart) :
    ∃ ws d', (dropSegments clock j ts d).Yields ws d' ∧ Drops ts d ws d' := by
  induction ts generalizing d j with
  | nil =>
    have hnone : Dropped [] d d := ⟨by simp, by simp, fun _ _ _ => rfl⟩
    refine ⟨_, _, Outcome.yields_pure _, rfl, hnone, rfl, fun n w hw => ⟨[], [], rfl, Or.inl ?_⟩⟩
    obtain ⟨hn, rfl⟩ := List.getElem?_eq_some_iff.mp hw
    exact ⟨Nat.lt_one_iff.mp hn, by simpa [Nat.lt_one_iff.mp hn] using hnone⟩
  | cons t ts ih =>
    obtain ⟨htail, hpair⟩ := List.pairwise_cons.mp hapart
    obtain ⟨c, hc⟩ := hfiles t List.mem_cons_self
    have hrun := yields_dropSegment hc (clock j)
    have hdm := fun u v : Segment => dataName_ne_metaName u v
    -- after the first one
    have hone : Dropped [t] d (d.relocate t.dataName t.metaName (.dropped t.dataName (clock j))
        (.dropped t.metaName (clock j))) := by
      refine ⟨?_, ?_, ?_⟩
      · intro u hu
        obtain rfl := List.mem_singleton.mp hu
        exact relocate_data (hdm _ _) (u.dataName_ne_dropped _ _)
      · intro u hu
        obtain rfl := List.mem_singleton.mp hu
        exact relocate_records
      · intro name hname hne
        obtain ⟨h1, h2⟩ := hne t (List.mem_singleton_self t)
        exact relocate_of_ne h1 h2 (hname _ _) (hname _ _)
    obtain ⟨ws, d', hrun', hrest⟩ := ih (j + 1)
      (fun u hu => by
        obtain ⟨c', hc'⟩ := hfiles u (List.mem_cons_of_mem _ hu)
        refine ⟨c', (Keeps.of_dropped hone).describes hc' fun v hv => ?_⟩
        rw [List.mem_singleton.mp hv]
        exact (htail u hu).symm)
      hpair
    refine ⟨_, d', hrun.bind hrun', Trail.append rfl hrest.trail, hone.cons hrest.dropped htail, ?_,
      ?_⟩
    · rw [List.length_append, hrest.length_eq, List.length_cons, List.length_cons, List.length_cons,
        List.length_nil]
      omega
    · intro n w hw
      match n, hw with
      | 0, hw =>
        obtain rfl : d = w := Option.some.inj hw
        exact ⟨[], t :: ts, rfl, Or.inl ⟨rfl, by simp, by simp, fun _ _ _ => rfl⟩⟩
      | 1, hw =>
        obtain rfl : d.move t.dataName (.dropped t.dataName (clock j)) = w := Option.some.inj hw
        refine ⟨[], t :: ts, rfl, Or.inr ⟨rfl, ?_, t, rfl, move_src, ?_⟩⟩
        · refine move_of_ne ?_ (by simp)
          rw [dataName]
          split <;> simp
        · rw [move_of_ne (hdm _ _).symm (t.metaName_ne_dropped _ _)]
          exact hc.isSome_meta
      | n + 2, hw =>
        obtain ⟨ts₁, ts₂, rfl, ⟨rfl, hgone⟩ | ⟨rfl, hreg, hnext⟩⟩ := hrest.point n w hw
        · refine ⟨t :: ts₁, ts₂, rfl, Or.inl ⟨?_, hone.cons hgone fun u hu => ?_⟩⟩
          · rw [List.length_cons]
            omega
          · exact htail u (List.mem_append_left _ hu)
        · refine ⟨t :: ts₁, ts₂, rfl, Or.inr ⟨?_, hreg.trans (hone.frame _ (by simp) ?_), hnext⟩⟩
          · rw [List.length_cons]
            omega
          · intro u _
            rw [dataName, metaName]
            constructor <;> split <;> simp

/-! ## The layout -/

namespace Layout

variable {first base : ℕ} {closed : List Segment} {a : Segment} {ces tail : List LogEntry}

/-- The closed segments behind an index and the active one have no file in common. -/
theorem pairwise_apart (h : Layout env d first base closed (some a) ces tail) :
    (a :: closed.reverse).Pairwise Segment.Apart := by
  refine List.pairwise_cons.mpr ⟨fun s hs => ?_, ?_⟩
  · have hactive := (h.active_files a rfl).1
    exact apart_of_kind hactive (h.chain.bounds (List.mem_reverse.mp hs)).1
  · rw [List.pairwise_reverse]
    refine h.chain.pairwise.imp_of_mem fun {s t} hs ht hlt => ?_
    refine apart_of_first ?_
    have := (h.chain.bounds hs).2.2.1
    omega

theorem describes_mem (h : Layout env d first base closed (some a) ces tail)
    (hs : s ∈ a :: closed) : ∃ c, s.Describes env d c := by
  rcases List.mem_cons.mp hs with rfl | hs
  · exact ⟨tail, (h.active_files s rfl).2.2⟩
  · obtain ⟨ss₁, ss₂, rfl⟩ := List.append_of_mem hs
    obtain ⟨es₁, es₂, -, -, h2⟩ := h.chain.of_append
    cases h2 with
    | @cons _ _ c _ _ _ _ _ hfiles _ => exact ⟨c, hfiles⟩

/-- **All segments have been dropped.** -/
theorem clear (h : Layout env d first base closed (some a) ces tail) (hdropped : Dropped ts d d')
    (hts : ∀ s, s ∈ ts ↔ s ∈ a :: closed) : Layout env d' first first [] none [] [] := by
  have hactive := (h.active_files a rfl).1
  have hgone : ∀ s ∈ a :: closed, d' s.metaName = none := fun s hs =>
    hdropped.meta_eq s ((hts s).mpr hs)
  -- a meta file that is left was there before
  have hleft : ∀ name, (∀ n ts, name ≠ .dropped n ts) → (∀ s : Segment, name ≠ s.dataName) →
      (d' name).isSome = true → (d name).isSome = true ∧ ∀ s ∈ a :: closed, name ≠ s.metaName := by
    intro name hname hdata hsome
    have hne : ∀ s ∈ a :: closed, name ≠ s.metaName := by
      rintro s hs rfl
      rw [hgone s hs] at hsome
      cases hsome
    refine ⟨?_, hne⟩
    rwa [hdropped.frame name hname fun t ht => ⟨hdata t, hne t ((hts t).mp ht)⟩] at hsome
  have hlow : ∀ f l, (d' (.closedMeta f l)).isSome = true → f ≤ l ∧ l < first := by
    intro f l hf
    obtain ⟨hold, hne⟩ := hleft _ (by simp) (closedMeta_ne_dataName f l) hf
    rcases h.closed_only f l hold with ⟨s, hs, rfl, rfl⟩ | hlow
    · refine absurd ?_ (hne s (List.mem_cons_of_mem _ hs))
      rw [metaName_of_closed (h.chain.bounds hs).1]
    · exact ⟨hlow.1, hlow.2.trans_le h.base_le⟩
  refine ⟨h.base_pos.trans h.base_le, le_rfl, .nil _, by simp, fun _ => rfl, by simp,
    fun _ => Or.inl ⟨rfl, rfl⟩, ?_, fun f l hf => Or.inr (hlow f l hf), ?_⟩
  · intro f hf
    obtain ⟨hold, hne⟩ := hleft _ (by simp) (activeMeta_ne_dataName f) hf
    obtain ⟨b, hb, rfl⟩ := h.active_only f hold
    obtain rfl : a = b := by simpa using hb
    refine absurd ?_ (hne a List.mem_cons_self)
    rw [metaName_of_active hactive]
  · intro f l l' hl hl'
    have h1 := (hleft _ (by simp) (closedMeta_ne_dataName f l) hl).1
    have h2 := (hleft _ (by simp) (closedMeta_ne_dataName f l') hl').1
    exact h.closed_once f l l' h1 h2

/-- The segments before one begin elsewhere. -/
theorem first_ne_before (h : Layout env d first base (ss₁ ++ s :: ss₂) (some a) ces tail)
    (ht : t ∈ ss₁) : t.firstIndex ≠ s.firstIndex := by
  have hlt := (List.pairwise_append.mp h.chain.pairwise).2.2 t ht s List.mem_cons_self
  have := (h.chain.bounds (List.mem_append_left _ ht)).2.2.1
  omega

/-- And so do those behind it. -/
theorem first_ne_behind {u : Segment}
    (h : Layout env d first base (ss₁ ++ s :: ss₂) (some a) ces tail) (ht : t ∈ ss₂)
    (hu : u ∈ ss₁ ++ [s]) : t.firstIndex ≠ u.firstIndex := by
  have hpair := List.pairwise_append.mp h.chain.pairwise
  have hlt : u.lastIndex < t.firstIndex := by
    rcases List.mem_append.mp hu with hu | hu
    · exact hpair.2.2 u hu t (List.mem_cons_of_mem _ ht)
    · rw [List.mem_singleton.mp hu]
      exact (List.pairwise_cons.mp hpair.2.1).1 t ht
  have hmem : u ∈ ss₁ ++ s :: ss₂ := by
    rcases List.mem_append.mp hu with hu | hu
    · simp [hu]
    · simp [List.mem_singleton.mp hu]
  have := (h.chain.bounds hmem).2.2.1
  omega

/-- **What is left of the closed segments**, when one has been cut and those behind it have been
dropped: a meta file is that of the cut segment, or was there before, and belongs to none that is
gone. -/
theorem closedMeta_of_cut {f l : ℕ}
    (h : Layout env d first base (ss₁ ++ s :: ss₂) (some a) ces tail)
    (hclosed : s'.isActive = false) (hold : s'.metaName ≠ s.metaName → d₁ s.metaName = none)
    (hframe : ∀ name, name ≠ s.dataName → name ≠ s.metaName → name ≠ s'.dataName →
      name ≠ s'.metaName → d₁ name = d name) (hdropped : Dropped ts d₁ d') (hts : ∀ t ∈ ss₂, t ∈ ts)
    (hf : (d' (.closedMeta f l)).isSome = true) :
    f = s'.firstIndex ∧ l = s'.lastIndex ∨
      (d (.closedMeta f l)).isSome = true ∧ f ≠ s.firstIndex ∧
        ∀ t ∈ ss₂, f ≠ t.firstIndex ∨ l ≠ t.lastIndex := by
  have hsclosed : s.isActive = false := (h.chain.bounds (by simp)).1
  have hnotdata := closedMeta_ne_dataName f l
  have hnotdropped : ∀ t ∈ ts, FileName.closedMeta f l ≠ t.metaName := by
    intro t ht heq
    rw [heq, hdropped.meta_eq t ht] at hf
    cases hf
  rw [hdropped.frame _ (by simp) fun t ht => ⟨hnotdata t, hnotdropped t ht⟩] at hf
  by_cases hs' : FileName.closedMeta f l = s'.metaName
  · rw [metaName_of_closed hclosed] at hs'
    injection hs' with h1 h2
    exact Or.inl ⟨h1, h2⟩
  · refine Or.inr ?_
    have hs : FileName.closedMeta f l ≠ s.metaName := by
      intro heq
      rw [heq] at hf hs'
      rw [hold (Ne.symm hs')] at hf
      cases hf
    rw [hframe _ (hnotdata s) hs (hnotdata s') hs'] at hf
    refine ⟨hf, ?_, fun t ht => ?_⟩
    · rintro rfl
      have hsome : (d (.closedMeta s.firstIndex s.lastIndex)).isSome = true := by
        obtain ⟨c, hc⟩ := h.describes_mem (s := s) (by simp)
        rw [← metaName_of_closed hsclosed]
        exact hc.isSome_meta
      rw [h.closed_once _ _ _ hf hsome, metaName_of_closed hsclosed] at hs
      exact hs rfl
    · have hname := hnotdropped t (hts t ht)
      rw [metaName_of_closed (h.chain.bounds (by simp [ht])).1] at hname
      by_contra hcon
      simp only [not_or, not_not] at hcon
      exact hname (by rw [hcon.1, hcon.2])

/-- **The segments behind one have been dropped**, and that one is the last. It may have been cut
before: `d₁` is the directory after that, in which its files may have another name. -/
theorem cut {es₁ c' : List LogEntry}
    (h : Layout env d first base (ss₁ ++ s :: ss₂) (some a) ces tail)
    (hchain : Chain env d base ss₁ es₁) (hfirst : s.firstIndex = base + es₁.length)
    (hclosed : s'.isActive = false) (hfirst' : s'.firstIndex = s.firstIndex) (hne : c' ≠ [])
    (hfiles : s'.Describes env d₁ c') (hreach : first ≤ s'.lastIndex)
    (hold : s'.metaName ≠ s.metaName → d₁ s.metaName = none)
    (hframe : ∀ name, name ≠ s.dataName → name ≠ s.metaName → name ≠ s'.dataName →
      name ≠ s'.metaName → d₁ name = d name) (hdropped : Dropped ts d₁ d')
    (hts : ∀ t, t ∈ ts ↔ t ∈ a :: ss₂) :
    Layout env d' first base (ss₁ ++ [s']) none (es₁ ++ c') [] := by
  have hactive := (h.active_files a rfl).1
  have hsclosed : s.isActive = false := (h.chain.bounds (by simp)).1
  have hkept : ∀ u : Segment, u.isActive = false → (∃ v ∈ ss₁ ++ [s], v.firstIndex = u.firstIndex) →
      ∀ t ∈ ts, u.Apart t := by
    rintro u hu ⟨v, hv, hvu⟩ t ht
    rcases List.mem_cons.mp ((hts t).mp ht) with rfl | ht
    · exact (apart_of_kind hactive hu).symm
    · refine apart_of_first ?_
      rw [← hvu]
      exact (h.first_ne_behind ht hv).symm
  have hleft := fun f l => h.closedMeta_of_cut (f := f) (l := l) hclosed hold hframe hdropped
    fun t ht => (hts t).mpr (List.mem_cons_of_mem _ ht)
  refine ⟨h.base_pos, h.base_le, ?_, by simp, fun _ => rfl, ?_, by simp, ?_, ?_, ?_⟩
  · refine Chain.append (hchain.congr fun t ht => ?_) ?_
    · have htc := (hchain.bounds ht).1
      have hbefore := h.first_ne_before ht
      refine ((Keeps.of_frame_pair hframe).trans (.of_dropped hdropped)) t fun u hu => ?_
      rcases List.mem_append.mp hu with hu | hu
      · rcases List.mem_pair.mp hu with rfl | rfl
        · exact apart_of_first hbefore
        · exact apart_of_first (by rw [hfirst']; exact hbefore)
      · exact hkept t htc ⟨t, by simp [ht], rfl⟩ u hu
    · rw [← hfirst, ← hfirst']
      refine Chain.singleton hclosed hne ((Keeps.of_dropped hdropped).describes hfiles ?_)
      exact hkept s' hclosed ⟨s, by simp, hfirst'.symm⟩
  · intro t ht
    rcases List.mem_append.mp ht with ht | ht
    · exact h.reach t (List.mem_append_left _ ht)
    · rwa [List.mem_singleton.mp ht]
  · intro f hf
    have hnotdata := activeMeta_ne_dataName f
    have hnotdropped : ∀ t ∈ ts, FileName.activeMeta f ≠ t.metaName := by
      intro t ht heq
      rw [heq, hdropped.meta_eq t ht] at hf
      cases hf
    rw [hdropped.frame _ (by simp) fun t ht => ⟨hnotdata t, hnotdropped t ht⟩,
      hframe _ (hnotdata s) (by rw [metaName_of_closed hsclosed]; simp) (hnotdata s')
        (by rw [metaName_of_closed hclosed]; simp)] at hf
    obtain ⟨b, hb, rfl⟩ := h.active_only f hf
    obtain rfl : a = b := by simpa using hb
    refine absurd ?_ (hnotdropped a ((hts a).mpr List.mem_cons_self))
    rw [metaName_of_active hactive]
  · intro f l hf
    rcases hleft f l hf with ⟨rfl, rfl⟩ | ⟨hsome, hns, hbeh⟩
    · exact Or.inl ⟨s', by simp, rfl, rfl⟩
    · rcases h.closed_only f l hsome with ⟨t, ht, rfl, rfl⟩ | hlow
      · rcases List.mem_append.mp ht with ht | ht
        · exact Or.inl ⟨t, by simp [ht], rfl, rfl⟩
        · rcases List.mem_cons.mp ht with rfl | ht
          · exact absurd rfl hns
          · rcases hbeh t ht with hcon | hcon
            · exact absurd rfl hcon
            · exact absurd rfl hcon
      · exact Or.inr hlow
  · intro f l l' hl hl'
    rcases hleft f l hl with ⟨h1, h2⟩ | ⟨h1, h2, -⟩
    · rcases hleft f l' hl' with ⟨h3, h4⟩ | ⟨-, h4, -⟩
      · rw [h2, h4]
      · exact absurd (h1.trans hfirst') h4
    · rcases hleft f l' hl' with ⟨h3, -⟩ | ⟨h3, -, -⟩
      · exact absurd (h3.trans hfirst') h2
      · exact h.closed_once f l l' h1 h3

end Layout

end Gringofts
