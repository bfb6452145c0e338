import Mathlib.Data.List.Basic
import Mathlib.Order.Nat
import Mathlib.Tactic.Push

/-!
# The first maximum of a list

A loop that looks for the largest element keeps the best one so far and replaces it only by a
strictly better one. So of several largest elements it finds the one that comes first.

## Main definitions

* `pickMax` — the loop

## Main results

* `pickMax_eq_find?` — what it finds, if the largest key is known
* `mem_of_pickMax` — what it finds is largest
* `pickMax_insert_of_lt`, `pickMax_insert_of_le` — what one more element changes
-/

namespace Gringofts

variable {α : Type} (key : α → ℕ)

/-- The loop that keeps the best so far. -/
def pickMax : List α → Option α → Option α
  | [], best => best
  | x :: xs, best => pickMax xs (if ∀ b ∈ best, key b < key x then some x else best)

variable {key}

/-- The loop, from any best so far: it is kept if it is a largest one. -/
theorem pickMax_eq {m : ℕ} {xs : List α} {best : Option α} (hle : ∀ x ∈ xs, key x ≤ m)
    (hbest : ∀ b ∈ best, key b ≤ m)
    (hm : (∃ b ∈ best, key b = m) ∨ ∃ x ∈ xs, key x = m) :
    pickMax key xs best = (best.filter fun b => key b = m).or (xs.find? fun x => key x = m) := by
  induction xs generalizing best with
  | nil =>
    obtain ⟨b, hb, hkey⟩ := hm.resolve_right (by simp)
    obtain rfl : best = some b := hb
    simp [pickMax, Option.filter, hkey]
  | cons x xs ih =>
    obtain ⟨hx, hxs⟩ := List.forall_mem_cons.mp hle
    rw [pickMax]
    split
    · next hbetter =>
      -- the best so far is no largest one
      have hnone : best.filter (fun b => key b = m) = none := by
        refine Option.filter_eq_none_iff.mpr fun b hb => ?_
        have hlt := hbetter b hb
        simpa using (by omega : key b ≠ m)
      have hm' : (∃ b ∈ some x, key b = m) ∨ ∃ y ∈ xs, key y = m := by
        rcases hm with ⟨b, hb, hkey⟩ | ⟨y, hy, hkey⟩
        · have hlt := hbetter b hb
          omega
        · rcases List.mem_cons.mp hy with rfl | hy
          · exact Or.inl ⟨y, rfl, hkey⟩
          · exact Or.inr ⟨y, hy, hkey⟩
      rw [ih hxs (fun b hb => Option.some.inj hb ▸ hx) hm', hnone]
      by_cases hkey : key x = m
      · simp [Option.filter, hkey]
      · simp [Option.filter, hkey]
    · next hworse =>
      push Not at hworse
      obtain ⟨b, hb, hge⟩ := hworse
      obtain rfl : best = some b := hb
      have hbm := hbest b rfl
      have hm' : (∃ b' ∈ some b, key b' = m) ∨ ∃ y ∈ xs, key y = m := by
        rcases hm with hm | ⟨y, hy, hkey⟩
        · exact Or.inl hm
        · rcases List.mem_cons.mp hy with rfl | hy
          · exact Or.inl ⟨b, rfl, by omega⟩
          · exact Or.inr ⟨y, hy, hkey⟩
      rw [ih hxs hbest hm']
      by_cases hkey : key b = m
      · simp [Option.filter, hkey]
      · have hne : key x ≠ m := by omega
        simp [Option.filter, hkey, hne]

/-- **The loop finds the first of the largest.** -/
theorem pickMax_eq_find? {m : ℕ} {xs : List α} (hle : ∀ x ∈ xs, key x ≤ m)
    (hm : ∃ x ∈ xs, key x = m) : pickMax key xs none = xs.find? fun x => key x = m := by
  rw [pickMax_eq hle (by simp) (Or.inr hm)]
  rfl

/-- A list that is not empty has a largest key. -/
theorem exists_max_key (key : α → ℕ) {xs : List α} (h : xs ≠ []) :
    ∃ m, (∀ x ∈ xs, key x ≤ m) ∧ ∃ x ∈ xs, key x = m := by
  induction xs with
  | nil => exact absurd rfl h
  | cons x xs ih =>
    by_cases hnil : xs = []
    · subst hnil
      exact ⟨key x, by simp, x, by simp, rfl⟩
    · obtain ⟨m, hle, y, hy, hkey⟩ := ih hnil
      by_cases hx : key x ≤ m
      · exact ⟨m, List.forall_mem_cons.mpr ⟨hx, hle⟩, y, List.mem_cons_of_mem x hy, hkey⟩
      · refine ⟨key x, List.forall_mem_cons.mpr ⟨le_rfl, fun z hz => ?_⟩, x,
          List.mem_cons_self, rfl⟩
        have hz' := hle z hz
        omega

/-- What is found is in the list, and nothing in the list is larger. -/
theorem mem_of_pickMax {xs : List α} {x : α} (h : pickMax key xs none = some x) :
    x ∈ xs ∧ ∀ y ∈ xs, key y ≤ key x := by
  have hne : xs ≠ [] := by
    rintro rfl
    cases h
  obtain ⟨m, hle, hm⟩ := exists_max_key key hne
  rw [pickMax_eq_find? hle hm] at h
  have hkey : key x = m := by simpa using List.find?_some h
  exact ⟨List.mem_of_find?_eq_some h, hkey ▸ hle⟩

section insert

variable {front back : List α} {x : α}

/-- An element that is outranked changes nothing. -/
theorem pickMax_insert_of_lt (h : ∃ y ∈ front ++ back, key x < key y) :
    pickMax key (front ++ x :: back) none = pickMax key (front ++ back) none := by
  obtain ⟨y, hy, hlt⟩ := h
  obtain ⟨m, hle, hm⟩ := exists_max_key key (List.ne_nil_of_mem hy)
  have hxm : key x < m := hlt.trans_le (hle y hy)
  have hle' : ∀ z ∈ front ++ x :: back, key z ≤ m := by
    intro z hz
    rcases List.mem_append.mp hz with hz | hz
    · exact hle z (List.mem_append_left _ hz)
    · rcases List.mem_cons.mp hz with rfl | hz
      · exact hxm.le
      · exact hle z (List.mem_append_right _ hz)
  have hm' : ∃ z ∈ front ++ x :: back, key z = m := by
    obtain ⟨z, hz, hkey⟩ := hm
    refine ⟨z, ?_, hkey⟩
    rcases List.mem_append.mp hz with hz | hz
    · exact List.mem_append_left _ hz
    · exact List.mem_append_right _ (List.mem_cons_of_mem x hz)
  rw [pickMax_eq_find? hle hm, pickMax_eq_find? hle' hm', List.find?_append, List.find?_append,
    List.find?_cons_of_neg]
  simpa using hxm.ne

/-- Otherwise it is found, unless another with its key comes before it. -/
theorem pickMax_insert_of_le (h : ∀ y ∈ front ++ back, key y ≤ key x) :
    pickMax key (front ++ x :: back) none =
      some ((front.find? fun y => key y = key x).getD x) := by
  have hle : ∀ y ∈ front ++ x :: back, key y ≤ key x := by
    intro y hy
    rcases List.mem_append.mp hy with hy | hy
    · exact h y (List.mem_append_left _ hy)
    · rcases List.mem_cons.mp hy with rfl | hy
      · exact le_rfl
      · exact h y (List.mem_append_right _ hy)
  rw [pickMax_eq_find? hle ⟨x, by simp, rfl⟩, List.find?_append]
  cases front.find? fun y => decide (key y = key x) with
  | none => simp
  | some y => rfl

/-- An element in front of the place is found before as well as after. -/
theorem pickMax_of_front {y : α} (h : ∀ z ∈ front ++ back, key z ≤ key x)
    (hy : (front.find? fun z => key z = key x) = some y) :
    pickMax key (front ++ back) none = some y := by
  have hkey : key y = key x := by simpa using List.find?_some hy
  have hmem : y ∈ front ++ back := List.mem_append_left _ (List.mem_of_find?_eq_some hy)
  rw [pickMax_eq_find? h ⟨y, hmem, hkey⟩, List.find?_append, hy]
  rfl

end insert

end Gringofts
