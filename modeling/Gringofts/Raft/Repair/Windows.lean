import Gringofts.Raft.Safety

/-!
# Two windows

What an accepted request does to the log of a follower, told by the windows of the leader and the
follower alone: what the follower has up to where the request starts is kept, from there on it has
what the leader has, and above the request its own tail survives only if nothing was in conflict.

## Main definitions

* `Log.Matching`, `Log.AgreesUpTo` — log matching, and agreement up to an index
* `Log.Takes` — what an accepted request leaves

## Main results

* `Node.applyEntries_takes`
-/

namespace Gringofts

open Outcome

namespace Log

variable {l l' L : Log} {j k : ℕ} {e : LogEntry}

/-! ## Agreement -/

/-- The logs agree wherever both retain an index up to `k`. -/
def AgreesUpTo (L l : Log) (k : ℕ) : Prop :=
  ∀ j ≤ k, ∀ e f, L.getEntry j = some e → l.getEntry j = some f → e = f

instance : Decidable (L.AgreesUpTo l k) :=
  decidable_of_iff (∀ j ≤ k, ∀ e ∈ L.getEntry j, ∀ f ∈ l.getEntry j, e = f)
    ⟨fun h j hj e f he hf => h j hj e he f hf, fun h j hj e he f hf => h j hj e f he hf⟩

/-- **Log matching**: where the logs have the same term, they agree up to there. -/
def Matching (L l : Log) : Prop :=
  ∀ i e f, L.getEntry i = some e → l.getEntry i = some f → e.term = f.term → L.AgreesUpTo l i

instance : Decidable (L.Matching l) :=
  decidable_of_iff (∀ i ≤ L.lastIndex, ∀ e ∈ L.getEntry i, ∀ f ∈ l.getEntry i, e.term = f.term →
      L.AgreesUpTo l i)
    ⟨fun h i e f he hf => h i (last_ge_of_getEntry he) e he f hf,
      fun h i _ e he f hf => h i e f he hf⟩

theorem AgreesUpTo.mono {i : ℕ} (h : L.AgreesUpTo l k) (hi : i ≤ k) : L.AgreesUpTo l i :=
  fun j hj => h j (hj.trans hi)

/-- The entries are the ones of the window that follow index `k`. -/
def Slice (L : Log) (k : ℕ) (es : List LogEntry) : Prop :=
  ∀ j e, es[j]? = some e → L.getEntry (k + j + 1) = some e

theorem slice_nil (L : Log) (k : ℕ) : L.Slice k [] := by
  intro j e he
  simp at he

theorem Slice.tail {es : List LogEntry} (h : L.Slice k (e :: es)) : L.Slice (k + 1) es := by
  intro j e' he
  have := h (j + 1) e' (by simpa using he)
  rwa [show k + (j + 1) + 1 = k + 1 + j + 1 by omega] at this

theorem slice_of_isPrefix {es : List LogEntry} (hfirst : L.firstIndex ≤ k + 1)
    (h : es <+: L.entries.drop (k + 1 - L.firstIndex)) : L.Slice k es := by
  intro j e he
  obtain ⟨rest, hrest⟩ := h
  have hget : (es ++ rest)[j]? = some e := by
    rw [List.getElem?_append_left (List.getElem?_eq_some_iff.mp he).1, he]
  rw [hrest, List.getElem?_drop] at hget
  rw [getEntry, if_pos (by omega), ← hget]
  congr 1
  omega

/-- What a request with `n` entries after index `k` leaves of the log `l`, when it is accepted. -/
structure Takes (L l : Log) (k n : ℕ) (l' : Log) : Prop where
  first_eq : l'.firstIndex = l.firstIndex
  le_last : k + n ≤ l'.lastIndex
  kept : ∀ j ≤ k, l'.getEntry j = l.getEntry j
  taken : ∀ j, k < j → j ≤ k + n → l.firstIndex ≤ j → l'.getEntry j = L.getEntry j
  tail : (∀ j, l'.getEntry j = l.getEntry j) ∨ (l'.lastIndex = k + n ∧ 0 < n)

namespace Takes

variable {n : ℕ} (h : L.Takes l k n l')
include h

theorem agrees (hk : L.AgreesUpTo l k) : L.AgreesUpTo l' (k + n) := by
  intro j hj e f he hf
  rcases Nat.lt_or_ge k j with hlt | hle
  · have hfirst := h.first_eq ▸ first_le_of_getEntry hf
    rw [h.taken j hlt hj hfirst, he] at hf
    exact Option.some.inj hf
  · rw [h.kept j hle] at hf
    exact hk j hle e f he hf

/-- Where something lies above the request, everything is as before. -/
theorem eq_of_getEntry (he : l'.getEntry j = some e) (hj : k + n < j) (i : ℕ) :
    l'.getEntry i = l.getEntry i := by
  rcases h.tail with heq | hlast
  · exact heq i
  · have := last_ge_of_getEntry he
    omega

theorem agrees_of_agrees {c : ℕ} (hk : L.AgreesUpTo l k) (hc : L.AgreesUpTo l c) :
    L.AgreesUpTo l' c := by
  intro j hj e f he hf
  rcases Nat.lt_or_ge (k + n) j with hlt | hle
  · rw [h.eq_of_getEntry hf hlt j] at hf
    exact hc j hj e f he hf
  · exact h.agrees hk j hle e f he hf

theorem matching (hk : L.AgreesUpTo l k) (hm : L.Matching l) : L.Matching l' := by
  intro i e f he hf ht
  rcases Nat.lt_or_ge (k + n) i with hlt | hle
  · have heq := h.eq_of_getEntry hf hlt
    rw [heq i] at hf
    intro j hj e' f' he' hf'
    rw [heq j] at hf'
    exact hm i e f he hf ht j hj e' f' he' hf'
  · exact (h.agrees hk).mono hle

end Takes

end Log

/-! ## Taking the entries of a request -/

section Merge

variable {L l : Log} {c k : ℕ} {es : List LogEntry}

theorem Log.Slice.index_eq (h : L.Slice k es) (j : ℕ) (e : LogEntry) (he : es[j]? = some e) :
    e.index = k + j + 1 :=
  Log.index_of_getEntry (h j e he)

/-- Entries that carry the next indices are appended one after the other. -/
theorem appendAll_sat (hes : ∀ j e, es[j]? = some e → e.index = l.lastIndex + j + 1) :
    (appendAll l es).Sat (fun _ => True) (fun l' => l'.firstIndex = l.firstIndex ∧
      l'.entries = l.entries ++ es) fun _ => False := by
  induction es generalizing l with
  | nil => exact sat_pure.mpr ⟨rfl, (List.append_nil _).symm⟩
  | cons e es ih =>
    have hidx : e.index = l.lastIndex + 1 := hes 0 e rfl
    rw [appendAll, dif_pos hidx]
    refine sat_persist_bind trivial
      fun _ => (ih (l := l.appendEntry e hidx) fun j e' he' => ?_).imp fun l' hl' => ?_
    · have hlast := l.lastIndex_appendEntry hidx
      rw [hlast, hes (j + 1) e' (by simpa using he')]
      omega
    · exact ⟨hl'.1, by rw [hl'.2]; simp [Log.appendEntry]⟩

/-- What the loop over the entries leaves: the log up to `m`, and the entries that follow there. -/
structure Log.Merges (L l : Log) (k upTo : ℕ) (l' : Log) (rest : List LogEntry) (m : ℕ) : Prop where
  first_eq : l'.firstIndex = l.firstIndex
  le : k ≤ m
  le_last : m ≤ l'.lastIndex
  length_eq : m + rest.length = upTo
  slice : L.Slice m rest
  kept : ∀ j ≤ m, l'.getEntry j = l.getEntry j
  same : ∀ j, k < j → j ≤ m → l.firstIndex ≤ j → l.getEntry j = L.getEntry j
  tail : (rest = [] ∧ l' = l) ∨ l'.lastIndex = m

/-- **The loop over the entries.** It fails no assertion: what is in conflict is not committed. -/
theorem Node.mergeEntries_merges (hes : L.Slice k es) (hlast : k ≤ l.lastIndex)
    (hm : L.Matching l) (hc : L.AgreesUpTo l c) :
    (Node.mergeEntries c k es l).Sat (fun _ => True)
      (fun x => ∃ m, L.Merges l k (k + es.length) x.1 x.2 m) fun _ => False := by
  induction es generalizing k with
  | nil =>
    exact sat_pure.mpr ⟨k, rfl, Nat.le_refl _, hlast, rfl, nofun, fun _ _ => rfl,
      fun j h1 h2 => by omega, Or.inl ⟨rfl, rfl⟩⟩
  | cons e es ih =>
    have he : L.getEntry (k + 1) = some e := hes 0 e rfl
    have hidx : e.index = k + 1 := Log.index_of_getEntry he
    have hlen : k + (e :: es).length = k + 1 + es.length := by simp; omega
    rcases Nat.lt_or_ge k l.lastIndex with hlt | hge
    swap
    · -- the entry lies above the log
      rw [Node.mergeEntries_of_last_le hes.index_eq hge]
      exact sat_pure.mpr ⟨k, rfl, Nat.le_refl _, hlast, rfl, hes, fun _ _ => rfl,
        fun j h1 h2 => by omega, Or.inr (Nat.le_antisymm hge hlast)⟩
    have hskip : (l.firstIndex ≤ k + 1 → l.getEntry (k + 1) = some e) →
        (Node.mergeEntries c (k + 1) es l).Sat (fun _ => True)
          (fun x => ∃ m, L.Merges l k (k + (e :: es).length) x.1 x.2 m) fun _ => False := by
      intro hsame
      refine (ih hes.tail hlt).imp ?_
      rintro x ⟨m, hx⟩
      refine ⟨m, { hx with
        le := Nat.le_of_succ_le hx.le, length_eq := hlen ▸ hx.length_eq,
        same := fun j h1 h2 h3 => ?_ }⟩
      rcases Nat.eq_or_lt_of_le (Nat.succ_le_of_lt h1) with rfl | h1
      · rw [hsame h3, he]
      · exact hx.same j h1 h2 h3
    by_cases hsame : ∀ f, l.getEntry (k + 1) = some f → f.term = e.term
    · rw [Node.mergeEntries_skip hidx hlt hsame]
      refine hskip fun hfirst => ?_
      obtain ⟨f, hf⟩ := l.exists_getEntry hfirst hlt
      rw [hf, hm (k + 1) e f he hf (hsame f hf).symm (k + 1) (Nat.le_refl _) e f he hf]
    · obtain ⟨f, hf, hne⟩ : ∃ f, l.getEntry (k + 1) = some f ∧ f.term ≠ e.term := by
        simpa using hsame
      have hfirst := Log.first_le_of_getEntry hf
      -- a conflict lies above what is committed
      have hcommit : c < k + 1 := by
        by_contra hcon
        exact hne (by rw [hc (k + 1) (by omega) e f he hf])
      have hcut := Log.lastIndex_truncateSuffix (l := l) (k := k) hfirst hlt.le
      rw [Node.mergeEntries_cut hes.index_eq hf hne]
      refine sat_check_bind (absurd hcommit) fun _ => ?_
      exact sat_persist_bind trivial fun _ => sat_pure.mpr
        ⟨k, Log.truncateSuffix_firstIndex hfirst, Nat.le_refl _, hcut.ge, rfl, hes,
          fun j hj => Log.getEntry_truncateSuffix hfirst hj, fun j h1 h2 => by omega,
          Or.inr hcut⟩

/-- What the loop has left over is appended, and not refused. -/
theorem Log.Merges.appendEntries_sat {l' : Log} {rest : List LogEntry} {m n : ℕ}
    (h : L.Merges l k (k + n) l' rest m) (hn : 0 < n) :
    (l'.appendEntries rest).Sat (fun _ => True) (fun x => x.2 = true ∧ L.Takes l k n x.1)
      fun _ => False := by
  have hlen := h.length_eq
  have hle := h.le
  cases rest with
  | nil =>
    have hm : m = k + n := by simpa using hlen
    refine sat_pure.mpr ⟨rfl, h.first_eq, hm ▸ h.le_last,
      fun j hj => h.kept j (hj.trans hle), fun j h1 h2 h3 => ?_, ?_⟩
    · rw [h.kept j (by omega), h.same j h1 (by omega) h3]
    · refine h.tail.imp (fun heq j => ?_) fun hlast => ⟨hlast.trans hm, hn⟩
      rw [heq.2]
  | cons e es =>
    have hlast : l'.lastIndex = m := h.tail.resolve_left fun h => by cases h.1
    have hidx := h.slice.index_eq
    have happ : (appendAll l' (e :: es)).Sat (fun _ => True) _ fun _ => False :=
      appendAll_sat fun j e' he' => by rw [hlast, hidx j e' he']
    rw [Log.appendEntries, if_neg (not_not.mpr (by rw [hidx 0 e rfl, hlast]))]
    refine happ.bind fun x hx => sat_pure.mpr ⟨rfl, ?_⟩
    obtain ⟨hfirst, hentries⟩ := hx
    have hend : x.lastIndex = k + n := by
      have h1 := x.lastIndex_add_one
      have h2 := l'.lastIndex_add_one
      rw [hfirst, hentries, List.length_append] at h1
      omega
    refine ⟨hfirst.trans h.first_eq, hend.ge, fun j hj => ?_, fun j h1 h2 h3 => ?_,
      Or.inr ⟨hend, hn⟩⟩
    · rw [Log.getEntry_eq_of_entries hfirst hentries (by omega), h.kept j (by omega)]
    · rcases Nat.lt_or_ge m j with hlt | hge
      · obtain ⟨i, rfl⟩ := Nat.exists_eq_add_of_lt hlt
        obtain ⟨f, hf⟩ : ∃ f, (e :: es)[i]? = some f :=
          ⟨_, List.getElem?_eq_getElem (by omega)⟩
        rw [h.slice i f hf, ← hf, ← hlast]
        exact Log.getEntry_append hfirst hentries i
      · rw [Log.getEntry_eq_of_entries hfirst hentries (by omega), h.kept j hge,
          h.same j h1 hge h3]

/-- **An accepted request**: the follower takes what the leader has, and fails no assertion. -/
theorem Node.applyEntries_takes {n : Node} {r : AppendEntriesRequest}
    (hes : L.Slice r.prevLogIndex r.entries) (hlast : r.prevLogIndex ≤ n.log.lastIndex)
    (hm : L.Matching n.log) (hc : L.AgreesUpTo n.log n.commitIndex) :
    (n.applyEntries r).Sat (fun _ => True)
      (fun m => ∃ l', L.Takes n.log r.prevLogIndex r.entries.length l' ∧ m = { n with log := l' })
      fun _ => False := by
  by_cases hnil : r.entries = []
  · -- a heartbeat or a probe
    have hpure : n.applyEntries r = pure n := by
      rw [Node.applyEntries, hnil]
      rfl
    rw [hpure, hnil]
    exact sat_pure.mpr ⟨n.log, ⟨rfl, hlast, fun _ _ => rfl,
      fun j h1 h2 => absurd h2 (Nat.not_le.mpr h1), Or.inl fun _ => rfl⟩, rfl⟩
  rw [Node.applyEntries]
  refine (Node.mergeEntries_merges hes hlast hm hc).bind ?_
  rintro x ⟨m, hx⟩
  refine (hx.appendEntries_sat (List.length_pos_iff.mpr hnil)).bind fun y hy => ?_
  refine sat_check_bind (absurd hy.1) fun _ => ?_
  exact sat_pure.mpr ⟨y.1, hy.2, rfl⟩

end Merge

end Gringofts
