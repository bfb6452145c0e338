import Gringofts.Storage.SegmentLog
import Gringofts.Storage.SegmentSpec

/-!
# The layout of a log in its directory

The live closed segments form a chain: each begins where the one before ends. The active segment
follows. What lies below the first index is not part of the log, but the first live segment may
reach below it, and the files of segments that lie below it altogether stay in the directory.

## Main definitions

* `Chain` — closed segments in a row, and the entries they hold
* `Layout` — the live segments of a directory, and that nothing else is mistaken for one

## Main results

* `Chain.append`, `Chain.of_append` — chains are put together and taken apart
* `Layout.congr` — files that are not of a segment do not matter
-/

namespace Gringofts

open Directory Segment

variable {env : StorageEnv} {d d' : Directory} {s a : Segment} {k f : ℕ} {tail : List LogEntry}

/-- Closed segments in a row, from an index on, and the entries they hold. None is empty. -/
inductive Chain (env : StorageEnv) (d : Directory) : ℕ → List Segment → List LogEntry → Prop
  | nil (first : ℕ) : Chain env d first [] []
  | cons {first : ℕ} {s : Segment} {c es : List LogEntry} {ss : List Segment}
      (hclosed : s.isActive = false) (hfirst : s.firstIndex = first) (hne : c ≠ [])
      (hfiles : s.Describes env d c) (hrest : Chain env d (first + c.length) ss es) :
      Chain env d first (s :: ss) (c ++ es)

namespace Chain

variable {first : ℕ} {ss ts : List Segment} {es fs : List LogEntry}

/-- A closed segment by itself. -/
theorem singleton {c : List LogEntry} (hclosed : s.isActive = false) (hne : c ≠ [])
    (hfiles : s.Describes env d c) : Chain env d s.firstIndex [s] c := by
  have := Chain.cons hclosed rfl hne hfiles (.nil _)
  rwa [List.append_nil] at this

/-- Segments lie in the range of the chain. -/
theorem bounds (h : Chain env d first ss es) (hs : s ∈ ss) :
    s.isActive = false ∧ first ≤ s.firstIndex ∧ s.firstIndex ≤ s.lastIndex ∧
      s.lastIndex < first + es.length := by
  induction h with
  | nil first => cases hs
  | @cons first t c es ss hclosed hfirst hne hfiles hrest ih =>
    have hlen := List.length_pos_iff.mpr hne
    have hlast := hfiles.last_eq
    rw [List.length_append]
    rcases List.mem_cons.mp hs with rfl | hs
    · exact ⟨hclosed, hfirst.ge, by omega, by omega⟩
    · obtain ⟨h1, h2, h3, h4⟩ := ih hs
      exact ⟨h1, by omega, h3, by omega⟩

/-- Each segment lies below the ones behind it. -/
theorem pairwise (h : Chain env d first ss es) :
    ss.Pairwise fun s t => s.lastIndex < t.firstIndex := by
  induction h with
  | nil first => exact List.Pairwise.nil
  | @cons first t c es ss hclosed hfirst hne hfiles hrest ih =>
    refine List.Pairwise.cons (fun s hs => ?_) ih
    have := (hrest.bounds hs).2.1
    have := hfiles.last_eq
    omega

/-- Only the files of the segments matter. -/
theorem congr (h : Chain env d first ss es)
    (hd : ∀ s ∈ ss, d' s.dataName = d s.dataName ∧ d' s.metaName = d s.metaName) :
    Chain env d' first ss es := by
  induction h with
  | nil first => exact .nil first
  | @cons first t c es ss hclosed hfirst hne hfiles hrest ih =>
    obtain ⟨hdata, hmeta⟩ := hd t List.mem_cons_self
    exact .cons hclosed hfirst hne (hfiles.congr hdata hmeta)
      (ih fun s hs => hd s (List.mem_cons_of_mem _ hs))

/-- **Chains are put together.** -/
theorem append (h : Chain env d first ss es) (h' : Chain env d (first + es.length) ts fs) :
    Chain env d first (ss ++ ts) (es ++ fs) := by
  induction h with
  | nil first => exact h'
  | @cons first t c es ss hclosed hfirst hne hfiles hrest ih =>
    rw [List.append_assoc]
    refine .cons hclosed hfirst hne hfiles (ih ?_)
    rwa [Nat.add_assoc, ← List.length_append]

/-- **Chains are taken apart.** -/
theorem of_append (h : Chain env d first (ss ++ ts) es) :
    ∃ es₁ es₂, es = es₁ ++ es₂ ∧ Chain env d first ss es₁ ∧
      Chain env d (first + es₁.length) ts es₂ := by
  induction ss generalizing first es with
  | nil => exact ⟨[], es, rfl, .nil first, h⟩
  | cons s ss ih =>
    cases h with
    | @cons _ _ c es _ hclosed hfirst hne hfiles hrest =>
      obtain ⟨es₁, es₂, rfl, h1, h2⟩ := ih hrest
      refine ⟨c ++ es₁, es₂, (List.append_assoc ..).symm, .cons hclosed hfirst hne hfiles h1, ?_⟩
      rwa [List.length_append, ← Nat.add_assoc]

/-- A chain without segments has no entries, and the other way round. -/
theorem eq_nil_iff (h : Chain env d first ss es) : ss = [] ↔ es = [] := by
  cases h with
  | nil => simp
  | cons _ _ hne _ _ => simp [hne]

/-- The last segment ends the chain. -/
theorem lastIndex_getLast (h : Chain env d first ss es) (hs : ss.getLast? = some s) :
    s.lastIndex + 1 = first + es.length := by
  obtain ⟨init, rfl⟩ := List.getLast?_eq_some_iff.mp hs
  obtain ⟨es₁, es₂, rfl, -, h2⟩ := h.of_append
  cases h2 with
  | @cons _ _ c es _ _ hfirst _ hfiles hrest =>
    obtain rfl : es = [] := hrest.eq_nil_iff.mp rfl
    rw [hfiles.last_eq, hfirst, List.append_nil, List.length_append, Nat.add_assoc]

/-- The segment of an index splits the chain. -/
theorem split (h : Chain env d first ss es) (hk : first ≤ k) (hk' : k < first + es.length) :
    ∃ ss₁ s ss₂ es₁ c es₂, ss = ss₁ ++ s :: ss₂ ∧ es = es₁ ++ (c ++ es₂) ∧
      Chain env d first ss₁ es₁ ∧ s.isActive = false ∧ s.firstIndex = first + es₁.length ∧ c ≠ [] ∧
      s.Describes env d c ∧ Chain env d (first + es₁.length + c.length) ss₂ es₂ ∧
      s.firstIndex ≤ k ∧ k ≤ s.lastIndex := by
  induction h with
  | nil first => simp at hk'; omega
  | @cons first t c es ss hclosed hfirst hne hfiles hrest ih =>
    have hlast := hfiles.last_eq
    rw [List.length_append] at hk'
    by_cases hlt : k < first + c.length
    · exact ⟨[], t, ss, [], c, es, rfl, rfl, .nil first, hclosed, hfirst, hne, hfiles, hrest,
        by omega, by omega⟩
    · obtain ⟨ss₁, s, ss₂, es₁, c', es₂, rfl, rfl, h1, h2, h3, h4, h5, h6, h7⟩ :=
        ih (Nat.not_lt.mp hlt) (by omega)
      refine ⟨t :: ss₁, s, ss₂, c ++ es₁, c', es₂, rfl, (List.append_assoc ..).symm,
        .cons hclosed hfirst hne hfiles h1, h2, ?_, h4, h5, ?_, h7⟩
      · rw [h3, List.length_append, Nat.add_assoc]
      · rwa [List.length_append, ← Nat.add_assoc]

end Chain

/-- The live segments of a directory: closed ones with the entries `ces` from `base` on, and then an
active one with the entries `tail`, if there is one. The log begins at `first`. -/
structure Layout (env : StorageEnv) (d : Directory) (first base : ℕ) (closed : List Segment)
    (active : Option Segment) (ces tail : List LogEntry) : Prop where
  base_pos : 1 ≤ base
  base_le : base ≤ first
  chain : Chain env d base closed ces
  active_files : ∀ a ∈ active, a.isActive = true ∧ a.firstIndex = base + ces.length ∧
    a.Describes env d tail
  no_active : active = none → tail = []
  /-- Every closed segment that is live reaches the log. -/
  reach : ∀ s ∈ closed, first ≤ s.lastIndex
  /-- So does the active segment, if it is the only one; or it is empty and begins with the
  log. -/
  reach_active : closed = [] → tail = [] ∧ first = base ∨ first < base + tail.length
  /-- There is no other active segment. -/
  active_only : ∀ f, (d (.activeMeta f)).isSome = true → ∃ a ∈ active, a.firstIndex = f
  /-- Other closed segments lie below. -/
  closed_only : ∀ f l, (d (.closedMeta f l)).isSome = true →
    (∃ s ∈ closed, s.firstIndex = f ∧ s.lastIndex = l) ∨ f ≤ l ∧ l < base
  closed_once : ∀ f l l', (d (.closedMeta f l)).isSome = true →
    (d (.closedMeta f l')).isSome = true → l = l'

namespace Layout

variable {first base : ℕ} {closed : List Segment} {active : Option Segment}
  {ces tail : List LogEntry}

/-- An empty directory is the layout of an empty log. -/
theorem empty : Layout env Directory.empty 1 1 [] none [] [] where
  base_pos := le_rfl
  base_le := le_rfl
  chain := .nil 1
  active_files := by simp
  no_active := fun _ => rfl
  reach := by simp
  reach_active := fun _ => Or.inl ⟨rfl, rfl⟩
  active_only := by simp [Directory.empty]
  closed_only := by simp [Directory.empty]
  closed_once := by simp [Directory.empty]

variable (h : Layout env d first base closed active ces tail)
include h

theorem first_le : first ≤ base + ces.length + tail.length := by
  by_cases hnil : closed = []
  · have hces : ces = [] := h.chain.eq_nil_iff.mp hnil
    rcases h.reach_active hnil with ⟨-, heq⟩ | hlt
    · omega
    · rw [hces, List.length_nil]
      omega
  · obtain ⟨s, hs⟩ := List.exists_mem_of_ne_nil closed hnil
    have := h.reach s hs
    have := (h.chain.bounds hs).2.2.2
    omega

/-- Every segment that is active begins behind the closed ones. -/
theorem lt_active (ha : a ∈ active) (hs : s ∈ closed) : s.lastIndex < a.firstIndex := by
  rw [(h.active_files a ha).2.1]
  exact (h.chain.bounds hs).2.2.2

/-- A live segment is the only closed one that ends where it does. -/
theorem metaName_eq (hs : s ∈ closed) (hf : (d (.closedMeta f s.lastIndex)).isSome = true) :
    s.metaName = .closedMeta f s.lastIndex := by
  have hnodup : (closed.map lastIndex).Nodup :=
    List.pairwise_map.mpr (h.chain.pairwise.imp_of_mem fun _ hu hlt => by
      have := (h.chain.bounds hu).2.2.1
      omega)
  have hbounds := h.chain.bounds hs
  rcases h.closed_only f _ hf with ⟨t, ht, rfl, hlast⟩ | hlow
  · obtain rfl := List.inj_on_of_nodup_map hnodup ht hs hlast
    exact metaName_of_closed hbounds.1
  · omega

/-- **Only the files of segments matter**: the meta files, the data files of closed segments and the
data file of the active one. -/
theorem congr (hactive : ∀ f, d' (.activeMeta f) = d (.activeMeta f))
    (hmeta : ∀ f l, d' (.closedMeta f l) = d (.closedMeta f l))
    (hdata : ∀ f l, d' (.closedData f l) = d (.closedData f l))
    (hlive : ∀ a ∈ active, d' (.activeData a.firstIndex) = d (.activeData a.firstIndex)) :
    Layout env d' first base closed active ces tail where
  base_pos := h.base_pos
  base_le := h.base_le
  chain := h.chain.congr fun s hs => by
    have hclosed := (h.chain.bounds hs).1
    rw [dataName_of_closed hclosed, metaName_of_closed hclosed]
    exact ⟨hdata _ _, hmeta _ _⟩
  active_files := fun a ha => by
    obtain ⟨h1, h2, h3⟩ := h.active_files a ha
    refine ⟨h1, h2, h3.congr ?_ ?_⟩
    · rw [dataName_of_active h1]
      exact hlive a ha
    · rw [metaName_of_active h1]
      exact hactive _
  no_active := h.no_active
  reach := h.reach
  reach_active := h.reach_active
  active_only := fun f hf => h.active_only f (by rwa [hactive] at hf)
  closed_only := fun f l hf => h.closed_only f l (by rwa [hmeta] at hf)
  closed_once := fun f l l' hl hl' =>
    h.closed_once f l l' (by rwa [hmeta] at hl) (by rwa [hmeta] at hl')

/-- **Another active segment** in the place of the old one, if there was one. -/
theorem setActive {tail' : List LogEntry} (hactive : a.isActive = true)
    (hfirst : a.firstIndex = base + ces.length) (hfiles : a.Describes env d' tail')
    (hframe : ∀ name, name ≠ .activeData a.firstIndex → name ≠ .activeMeta a.firstIndex →
      d' name = d name)
    (hreach : closed = [] → tail' = [] ∧ first = base ∨ first < base + tail'.length) :
    Layout env d' first base closed (some a) ces tail' := by
  have hmeta : ∀ f l, d' (.closedMeta f l) = d (.closedMeta f l) := fun f l =>
    hframe _ (by simp) (by simp)
  have hdata : ∀ f l, d' (.closedData f l) = d (.closedData f l) := fun f l =>
    hframe _ (by simp) (by simp)
  refine ⟨h.base_pos, h.base_le, ?_, ?_, by simp, h.reach, hreach, ?_, ?_, ?_⟩
  · refine h.chain.congr fun s hs => ?_
    have hclosed := (h.chain.bounds hs).1
    rw [dataName_of_closed hclosed, metaName_of_closed hclosed]
    exact ⟨hdata _ _, hmeta _ _⟩
  · intro b hb
    obtain rfl : a = b := by simpa using hb
    exact ⟨hactive, hfirst, hfiles⟩
  · intro f hf
    refine ⟨a, rfl, ?_⟩
    by_contra hne
    rw [hframe _ (by simp) (by simpa using Ne.symm hne)] at hf
    obtain ⟨b, hb, rfl⟩ := h.active_only f hf
    exact hne (hfirst.trans (h.active_files b hb).2.1.symm)
  · intro f l hf
    exact h.closed_only f l (by rwa [hmeta] at hf)
  · intro f l l' hl hl'
    exact h.closed_once f l l' (by rwa [hmeta] at hl) (by rwa [hmeta] at hl')

end Layout

namespace Layout

variable {first base : ℕ} {closed : List Segment} {active : Option Segment}
  {ces : List LogEntry} {m n : ℕ}

/-- The active segment is empty, and nothing lies above the closed ones. -/
theorem first_eq_of_nil (h : Layout env d first base closed active ces []) (hnil : closed = []) :
    first = base := by
  rcases h.reach_active hnil with ⟨-, heq⟩ | hlt
  · exact heq
  · have := h.base_le
    simp only [List.length_nil, Nat.add_zero] at hlt
    omega

/-- **A new active segment**, also in the place of one that is empty. -/
theorem create (h : Layout env d first base closed active ces []) :
    Layout env (created m n (base + ces.length) d) first base closed
      (some (fresh m n (base + ces.length))) ces [] := by
  have hpos : 1 ≤ base + ces.length := h.base_pos.trans (Nat.le_add_right _ _)
  refine h.setActive rfl rfl (describes_fresh_created _ hpos d) ?_ ?_
  · exact fun name hd hm => created_of_ne _ hd hm
  · exact fun hnil => Or.inl ⟨rfl, h.first_eq_of_nil hnil⟩

/-- A data file alone is not mistaken for a segment. -/
theorem setData (h : Layout env d first base closed none ces []) (f : ℕ) (data : File) :
    Layout env (d.set (.activeData f) data) first base closed none ces [] :=
  h.congr (fun _ => set_of_ne (by simp)) (fun _ _ => set_of_ne (by simp))
    (fun _ _ => set_of_ne (by simp)) (by simp)

/-- An active segment that is not empty reaches the log. -/
theorem first_le_lastIndex (h : Layout env d first base closed (some a) ces tail)
    (hne : tail ≠ []) : first ≤ a.lastIndex := by
  obtain ⟨-, hfirst, hfiles⟩ := h.active_files a rfl
  have hlast := hfiles.last_eq
  have hlen := List.length_pos_iff.mpr hne
  by_cases hnil : closed = []
  · rcases h.reach_active hnil with ⟨hnil', -⟩ | hlt
    · exact absurd hnil' hne
    · have hces := h.chain.eq_nil_iff.mp hnil
      rw [hces, List.length_nil] at hfirst
      omega
  · obtain ⟨s, hs⟩ := List.exists_mem_of_ne_nil closed hnil
    have hreach := h.reach s hs
    have hbound := (h.chain.bounds hs).2.2.2
    omega

/-- Closing a segment leaves the files of other closed segments as they are. -/
theorem relocate_close_closed (hactive : a.isActive = true) (l : ℕ) (hf : f ≠ a.firstIndex) :
    d.relocate a.dataName a.metaName a.close.dataName a.close.metaName (.closedMeta f l) =
        d (.closedMeta f l) ∧
      d.relocate a.dataName a.metaName a.close.dataName a.close.metaName (.closedData f l) =
        d (.closedData f l) := by
  constructor <;>
    refine relocate_of_ne ?_ ?_ ?_ ?_ <;>
    simp [dataName, metaName, hactive, close, hf]

/-- It leaves those of other active segments as they are, too. -/
theorem relocate_close_active (hactive : a.isActive = true) (hf : f ≠ a.firstIndex) :
    d.relocate a.dataName a.metaName a.close.dataName a.close.metaName (.activeMeta f) =
      d (.activeMeta f) := by
  refine relocate_of_ne ?_ ?_ ?_ ?_ <;>
    simp [dataName, metaName, hactive, close, hf]

/-- Of the closed segments with its first index only the segment itself is there afterwards. -/
theorem eq_lastIndex_of_close (h : Layout env d first base closed (some a) ces tail) {l : ℕ}
    (hl : (d.relocate a.dataName a.metaName a.close.dataName a.close.metaName
      (.closedMeta a.firstIndex l)).isSome = true) : l = a.lastIndex := by
  obtain ⟨hactive, hfirst, -⟩ := h.active_files a rfl
  by_contra hne
  rw [relocate_of_ne (by simp [dataName, hactive])
    (by simp [metaName, hactive]) (by simp [dataName, close])
    (by simp [metaName, close, hne])] at hl
  rcases h.closed_only _ _ hl with ⟨s, hs, hsf, -⟩ | ⟨hle, hlt⟩
  · have hbound := (h.chain.bounds hs).2.2
    omega
  · omega

/-- **The active segment is closed.** -/
theorem close (h : Layout env d first base closed (some a) ces tail) (hne : tail ≠ []) :
    Layout env (d.relocate a.dataName a.metaName a.close.dataName a.close.metaName) first base
      (closed ++ [a.close]) none (ces ++ tail) [] := by
  obtain ⟨hactive, hfirst, hfiles⟩ := h.active_files a rfl
  have hclosed := hfiles.close hactive
  refine ⟨h.base_pos, h.base_le, ?_, by simp, fun _ => rfl, ?_, by simp, ?_, ?_, ?_⟩
  · refine Chain.append (h.chain.congr fun s hs => ?_) ?_
    · obtain ⟨hsc, hbounds⟩ := h.chain.bounds hs
      rw [dataName_of_closed hsc, metaName_of_closed hsc]
      obtain ⟨hmeta, hdata⟩ := relocate_close_closed (d := d) hactive s.lastIndex
        (f := s.firstIndex) (by omega)
      exact ⟨hdata, hmeta⟩
    · rw [← hfirst]
      exact Chain.singleton rfl hne hclosed
  · intro s hs
    rcases List.mem_append.mp hs with hs | hs
    · exact h.reach s hs
    · obtain rfl := List.mem_singleton.mp hs
      exact h.first_le_lastIndex hne
  · intro f hf
    by_cases hfa : f = a.firstIndex
    · subst hfa
      rw [← metaName_of_active hactive, relocate_records] at hf
      cases hf
    · rw [relocate_close_active hactive hfa] at hf
      obtain ⟨b, hb, rfl⟩ := h.active_only f hf
      obtain rfl : a = b := by simpa using hb
      exact absurd rfl hfa
  · intro f l hf
    by_cases hfa : f = a.firstIndex
    · subst hfa
      exact Or.inl ⟨a.close, by simp, rfl, (h.eq_lastIndex_of_close hf).symm⟩
    · rw [(relocate_close_closed hactive l hfa).1] at hf
      rcases h.closed_only f l hf with ⟨s, hs, hsf⟩ | hlow
      · exact Or.inl ⟨s, by simp [hs], hsf⟩
      · exact Or.inr hlow
  · intro f l l' hl hl'
    by_cases hfa : f = a.firstIndex
    · subst hfa
      rw [h.eq_lastIndex_of_close hl, h.eq_lastIndex_of_close hl']
    · rw [(relocate_close_closed hactive l hfa).1] at hl
      rw [(relocate_close_closed hactive l' hfa).1] at hl'
      exact h.closed_once f l l' hl hl'

/-- **A later first index.** Closed segments below it are forgotten. -/
theorem advance (h : Layout env d first base closed (some a) ces tail) (hk : first ≤ k)
    (hk' : k < base + ces.length + tail.length) :
    ∃ base' ces₁ ces₂, ces = ces₁ ++ ces₂ ∧ base' = base + ces₁.length ∧
      Layout env d k base' (closed.dropWhile fun t => t.lastIndex < k) (some a) ces₂ tail ∧
      ((closed.dropWhile fun t => t.lastIndex < k) = [] → k ≤ a.lastIndex) := by
  obtain ⟨hactive, hfirst, hfiles⟩ := h.active_files a rfl
  have hlast := hfiles.last_eq
  have hsplit :=
    List.takeWhile_append_dropWhile (p := fun t : Segment => t.lastIndex < k) (l := closed)
  have hchain := h.chain
  rw [← hsplit] at hchain
  obtain ⟨ces₁, ces₂, rfl, h1, h2⟩ := hchain.of_append
  rw [List.length_append] at hk' hfirst
  -- what is forgotten lies below
  have hbase : base + ces₁.length ≤ k := by
    by_cases hnil : (closed.takeWhile fun t => t.lastIndex < k) = []
    · rw [h1.eq_nil_iff.mp hnil, List.length_nil]
      exact h.base_le.trans hk
    · obtain ⟨s, hs⟩ := List.getLast?_isSome.mpr hnil |> Option.isSome_iff_exists.mp
      have := h1.lastIndex_getLast hs
      have hmem := List.mem_of_getLast? hs
      have := List.mem_takeWhile_imp hmem
      simp only [decide_eq_true_eq] at this
      omega
  -- and what is kept reaches the new first index
  have hreach : ∀ s ∈ closed.dropWhile (fun t => t.lastIndex < k), k ≤ s.lastIndex := by
    cases hdrop : closed.dropWhile (fun t => t.lastIndex < k) with
    | nil => simp
    | cons t ts =>
      have ht : ¬ t.lastIndex < k := by
        have hhead := List.head_dropWhile_not (fun t : Segment => decide (t.lastIndex < k))
          (show closed.dropWhile (fun t => decide (t.lastIndex < k)) ≠ [] by rw [hdrop]; simp)
        simpa [hdrop] using hhead
      have hpair := h2.pairwise
      rw [hdrop] at hpair h2
      intro s hs
      rcases List.mem_cons.mp hs with rfl | hs
      · exact Nat.not_lt.mp ht
      · have := (List.pairwise_cons.mp hpair).1 s hs
        have := (h2.bounds (List.mem_cons_of_mem _ hs)).2.2.1
        omega
  refine ⟨base + ces₁.length, ces₁, ces₂, rfl, rfl, ⟨?_, hbase, h2, ?_, by simp, hreach, ?_,
    h.active_only, ?_, h.closed_once⟩, ?_⟩
  · exact h.base_pos.trans (Nat.le_add_right _ _)
  · intro b hb
    obtain ⟨hb1, hb2, hb3⟩ := h.active_files b hb
    rw [List.length_append] at hb2
    exact ⟨hb1, by omega, hb3⟩
  · intro hnil
    rw [h2.eq_nil_iff.mp hnil, List.length_nil] at hk'
    exact Or.inr (by omega)
  · intro f l hf
    rcases h.closed_only f l hf with ⟨s, hs, rfl, rfl⟩ | hlow
    · rw [← hsplit] at hs
      rcases List.mem_append.mp hs with hs | hs
      · have := h1.bounds hs
        exact Or.inr ⟨this.2.2.1, this.2.2.2⟩
      · exact Or.inl ⟨s, hs, rfl, rfl⟩
    · exact Or.inr ⟨hlow.1, hlow.2.trans_le (Nat.le_add_right _ _)⟩
  · intro hnil
    rw [h2.eq_nil_iff.mp hnil, List.length_nil] at hk'
    rw [h2.eq_nil_iff.mp hnil, List.length_nil] at hfirst
    omega

end Layout

end Gringofts
