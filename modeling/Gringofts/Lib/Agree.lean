import Mathlib.Data.List.Basic
import Mathlib.Tactic.ByContra
import Mathlib.Data.List.Infix

/-!
# Logs that agree up to an index

A replicated log is a list whose entries are counted from `1`. Everything a replication protocol
says about two logs is said up to an index: they *agree* there when both reach that far and are
equal on everything up to it.

`Agree l m i` is that relation. It is symmetric and transitive at a fixed `i`, it only weakens
when `i` gets smaller, and it does not see what either log holds above `i`. The last point is
what makes it usable along a run: appending to a log never destroys an agreement, and cutting a
log back destroys only those above the cut.

## Main results

* `Agree.symm`, `Agree.trans`, `Agree.mono` — the relation itself
* `Agree.append_right`, `Agree.take_left` — what changes above `i`
* `Agree.succ` — one more entry
* `termAt` — the term at an index, `0` where there is no entry
-/

namespace Gringofts

variable {α : Type} {i : ℕ}

/-! ## Entries by index -/

/-- The entry at index `i`, counted from `1`. -/
def entryAt (l : List α) : ℕ → Option α
  | 0 => none
  | i + 1 => l[i]?

@[simp] theorem entryAt_zero (l : List α) : entryAt l 0 = none := rfl

@[simp] theorem entryAt_succ (l : List α) (i : ℕ) : entryAt l (i + 1) = l[i]? := rfl

@[simp] theorem entryAt_nil (i : ℕ) : entryAt ([] : List α) i = none := by
  cases i <;> simp

theorem entryAt_eq_some_iff {l : List α} {a : α} :
    entryAt l i = some a ↔ 1 ≤ i ∧ l[i - 1]? = some a := by
  cases i <;> simp

theorem exists_entryAt {l : List α} (h1 : 1 ≤ i) (hi : i ≤ l.length) :
    ∃ a, entryAt l i = some a := by
  obtain ⟨i, rfl⟩ := Nat.exists_eq_add_of_le' h1
  exact ⟨l[i], by simp⟩

theorem le_length_of_entryAt {l : List α} {a : α} (h : entryAt l i = some a) :
    1 ≤ i ∧ i ≤ l.length := by
  cases i with
  | zero => simp at h
  | succ i =>
    obtain ⟨hi, -⟩ := List.getElem?_eq_some_iff.mp h
    omega

theorem entryAt_mem {l : List α} {a : α} (h : entryAt l i = some a) : a ∈ l := by
  cases i with
  | zero => simp at h
  | succ i => exact List.mem_of_getElem? h

theorem entryAt_append_left {l m : List α} (hi : i ≤ l.length) :
    entryAt (l ++ m) i = entryAt l i := by
  cases i with
  | zero => rfl
  | succ i => simp [List.getElem?_append_left (show i < l.length by omega)]

theorem entryAt_of_isPrefix {l m : List α} {a : α} (h : l <+: m) (he : entryAt l i = some a) :
    entryAt m i = some a := by
  obtain ⟨x, rfl⟩ := h
  rw [entryAt_append_left (le_length_of_entryAt he).2, he]

/-- A list whose entries are all in another one, at the same indices, is a prefix of it. -/
theorem isPrefix_of_entryAt {l m : List α}
    (h : ∀ i a, entryAt l i = some a → entryAt m i = some a) : l <+: m := by
  rw [List.prefix_iff_getElem?]
  intro i hi
  exact h (i + 1) l[i] (List.getElem?_eq_getElem hi)

/-- The term at an index, read off the entry there; `0` where there is none. -/
def termAt (term : α → ℕ) (l : List α) (i : ℕ) : ℕ := (entryAt l i).elim 0 term

@[simp] theorem termAt_zero (term : α → ℕ) (l : List α) : termAt term l 0 = 0 := rfl

theorem termAt_of_entryAt {term : α → ℕ} {l : List α} {a : α} (h : entryAt l i = some a) :
    termAt term l i = term a := by
  simp [termAt, h]

/-! ## Agreement -/

/-- Both logs reach index `i` and hold the same entries up to it. -/
def Agree (l m : List α) (i : ℕ) : Prop :=
  i ≤ l.length ∧ i ≤ m.length ∧ l.take i = m.take i

variable {l m n x : List α} {i j : ℕ}

theorem Agree.le_left (h : Agree l m i) : i ≤ l.length := h.1

theorem Agree.le_right (h : Agree l m i) : i ≤ m.length := h.2.1

theorem Agree.refl (hi : i ≤ l.length) : Agree l l i := ⟨hi, hi, rfl⟩

theorem agree_zero (l m : List α) : Agree l m 0 := ⟨Nat.zero_le _, Nat.zero_le _, rfl⟩

theorem Agree.symm (h : Agree l m i) : Agree m l i := ⟨h.2.1, h.1, h.2.2.symm⟩

theorem Agree.trans (h : Agree l m i) (h' : Agree m n i) : Agree l n i :=
  ⟨h.1, h'.2.1, h.2.2.trans h'.2.2⟩

theorem Agree.mono (h : Agree l m i) (hj : j ≤ i) : Agree l m j := by
  refine ⟨hj.trans h.1, hj.trans h.2.1, ?_⟩
  have hl : l.take j = (l.take i).take j := by rw [List.take_take, Nat.min_eq_left hj]
  have hm : m.take j = (m.take i).take j := by rw [List.take_take, Nat.min_eq_left hj]
  rw [hl, hm, h.2.2]

theorem Agree.append_right (h : Agree l m i) : Agree l (m ++ x) i := by
  refine ⟨h.1, ?_, ?_⟩
  · rw [List.length_append]
    exact Nat.le_add_right_of_le h.2.1
  · rw [List.take_append_of_le_length h.2.1, h.2.2]

theorem Agree.append_left (h : Agree l m i) : Agree (l ++ x) m i :=
  h.symm.append_right.symm

theorem Agree.take_left (h : Agree l m i) (hj : i ≤ j) : Agree (l.take j) m i := by
  refine ⟨?_, h.2.1, ?_⟩
  · rw [List.length_take]
    exact Nat.le_min.mpr ⟨hj, h.1⟩
  · rw [List.take_take, Nat.min_eq_left hj, h.2.2]

theorem agree_of_isPrefix (h : l <+: m) (hi : i ≤ l.length) : Agree l m i := by
  obtain ⟨x, rfl⟩ := h
  exact (Agree.refl hi).append_right

theorem Agree.isPrefix (h : Agree l m l.length) : l <+: m := by
  have := h.2.2
  rw [List.take_length] at this
  rw [this]
  exact List.take_prefix _ _

theorem Agree.getElem?_eq (h : Agree l m i) (hj : j < i) : l[j]? = m[j]? := by
  rw [← List.getElem?_take_of_lt hj, h.2.2, List.getElem?_take_of_lt hj]

theorem Agree.entryAt_eq (h : Agree l m i) (hj : j ≤ i) : entryAt l j = entryAt m j := by
  cases j with
  | zero => rfl
  | succ j => exact h.getElem?_eq (by omega)

theorem Agree.le_of_entryAt_ne (h : Agree l m i)
    (hne : entryAt l (j + 1) ≠ entryAt m (j + 1)) : i ≤ j := by
  by_contra hlt
  exact hne (h.entryAt_eq (by omega))

theorem Agree.termAt_eq {term : α → ℕ} (h : Agree l m i) (hj : j ≤ i) :
    termAt term l j = termAt term m j := by
  rw [termAt, termAt, h.entryAt_eq hj]

/-- One more entry: agreement up to `i` and the same entry right after it. -/
theorem Agree.succ {a : α} (h : Agree l m i) (hl : entryAt l (i + 1) = some a)
    (hm : entryAt m (i + 1) = some a) : Agree l m (i + 1) := by
  refine ⟨(le_length_of_entryAt hl).2, (le_length_of_entryAt hm).2, ?_⟩
  rw [entryAt_succ] at hl hm
  rw [List.take_add_one, List.take_add_one, hl, hm, h.2.2]

end Gringofts
