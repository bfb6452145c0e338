import Mathlib.Data.List.Sort
import Mathlib.Data.List.Perm.Basic

/-!
# Majorities by counting

Facts about lists that quorums rest on: predicates that each hold of so many elements that the
numbers add up to more than the length hold together somewhere, and the element in the middle of a
list in decreasing order is the largest number that more than half of the list reach.

## Main results

* `exists_of_length_lt_countP_add` — two majorities meet
* `length_lt_countP_iff_le_middle` — the middle is the largest number that a majority reaches
-/

namespace Gringofts

variable {α : Type} {xs : List ℕ} {m i : ℕ}

/-- What is counted twice is in both. -/
theorem countP_add_le (p q : α → Bool) (l : List α) :
    l.countP p + l.countP q ≤ l.length + l.countP fun x => p x && q x := by
  induction l with
  | nil => simp
  | cons x l ih =>
    simp only [List.countP_cons, List.length_cons]
    cases p x <;> cases q x <;> simp <;> omega

/-- **Two majorities meet.** -/
theorem exists_of_length_lt_countP_add {p q : α → Bool} {l : List α}
    (h : l.length < l.countP p + l.countP q) : ∃ x ∈ l, p x = true ∧ q x = true := by
  have hpos : 0 < l.countP fun x => p x && q x := by
    have := countP_add_le p q l
    omega
  obtain ⟨x, hx, hpq⟩ := List.countP_pos_iff.mp hpos
  exact ⟨x, hx, by simpa using hpq⟩

/-- Counting by cases. -/
theorem countP_eq_add {p q r : α → Bool} {l : List α}
    (h : ∀ x ∈ l, p x = (q x || r x) ∧ (q x && r x) = false) :
    l.countP p = l.countP q + l.countP r := by
  induction l with
  | nil => simp
  | cons x l ih =>
    have hx := h x List.mem_cons_self
    have ih := ih fun y hy => h y (List.mem_cons_of_mem x hy)
    simp only [List.countP_cons, ih, hx.1]
    cases hq : q x <;> cases hr : r x <;> simp_all <;> omega

/-- In a list in decreasing order, more than `k` elements are at least `i` exactly if the one at
position `k` is. -/
theorem lt_countP_iff_of_sorted (hs : xs.Pairwise (· ≥ ·)) {k : ℕ} (hk : xs[k]? = some m) :
    (k < xs.countP fun x => decide (i ≤ x)) ↔ i ≤ m := by
  induction xs generalizing k with
  | nil => simp at hk
  | cons x xs ih =>
    obtain ⟨hx, hxs⟩ := List.pairwise_cons.mp hs
    cases k with
    | zero =>
      obtain rfl : x = m := by simpa using hk
      rw [List.countP_pos_iff]
      constructor
      · rintro ⟨y, hy, hiy⟩
        have hyx : y ≤ x := by
          rcases List.mem_cons.mp hy with rfl | hy
          · exact Nat.le_refl y
          · exact hx y hy
        exact Nat.le_trans (of_decide_eq_true hiy) hyx
      · intro hix
        exact ⟨x, List.mem_cons_self, decide_eq_true hix⟩
    | succ k =>
      have hk' : xs[k]? = some m := by simpa using hk
      have ih := ih hxs hk'
      have hmx : m ≤ x := hx m (List.mem_of_getElem? hk')
      rw [List.countP_cons]
      by_cases hix : i ≤ x
      · rw [if_pos (decide_eq_true hix), Nat.add_lt_add_iff_right, ih]
      · -- then nothing behind `x` is as large as `i` either
        have him : ¬ i ≤ m := fun him => hix (Nat.le_trans him hmx)
        have hnot := mt ih.mp him
        rw [if_neg (by simpa using hix)]
        exact iff_of_false (by omega) him

/-- **The middle is the largest number that a majority reaches.** -/
theorem length_lt_countP_iff_le_middle (h : (xs.insertionSort (· ≥ ·))[xs.length / 2]? = some m) :
    (xs.length / 2 < xs.countP fun x => decide (i ≤ x)) ↔ i ≤ m := by
  have hs : (xs.insertionSort (· ≥ ·)).Pairwise (· ≥ ·) := List.pairwise_insertionSort _ xs
  rw [← lt_countP_iff_of_sorted hs h, (List.perm_insertionSort _ xs).countP_eq]

/-- A list that is not empty has a middle. -/
theorem exists_middle (h : xs ≠ []) :
    ∃ m, (xs.insertionSort (· ≥ ·))[xs.length / 2]? = some m ∧ m ∈ xs := by
  have hpos : 0 < xs.length := List.length_pos_iff.mpr h
  have hlt : xs.length / 2 < (xs.insertionSort (· ≥ ·)).length := by
    rw [List.length_insertionSort]
    omega
  refine ⟨(xs.insertionSort (· ≥ ·))[xs.length / 2], List.getElem?_eq_getElem hlt, ?_⟩
  exact (List.mem_insertionSort _).mp (List.getElem_mem hlt)

end Gringofts
