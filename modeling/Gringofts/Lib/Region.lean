import Mathlib.Data.List.Basic

/-!
# Regions

A region is the content of a file that is mapped into memory: a size in bytes, and cells of a fixed
number of bytes each. Cells are read and written through the mapping, and a cell that does not lie
in the file is blank. So a file that grows is filled up with blank cells.

## Main definitions

* `Region` — a size and its cells
* `Region.read`, `Region.write`, `Region.clear`, `Region.grow`

## Main results

* `Region.read_write`, `Region.read_write_of_le` — what is written is read, and nothing below it
  changes
* `Region.cell_write_of_lt`, `Region.cell_write_of_le` — nothing else changes
-/

namespace Gringofts

variable {p : ℕ → Bool} {j off len : ℕ}

/-- A file of cells of `unit` bytes. -/
@[ext]
structure Region (α : Type) [Inhabited α] (unit : ℕ) where
  /-- The size of the file in bytes. -/
  size : ℕ
  cell : ℕ → α
  /-- A cell that does not fit into the file is blank. -/
  blank : ∀ j, size < unit * (j + 1) → cell j = default

namespace Region

variable {α : Type} [Inhabited α] {unit : ℕ}

/-- A file of size `0`. -/
def empty (α : Type) [Inhabited α] (unit : ℕ) : Region α unit :=
  ⟨0, fun _ => default, fun _ _ => rfl⟩

variable (r : Region α unit)

/-- Make the file at least as large as `size`. -/
def grow (size : ℕ) : Region α unit where
  size := max r.size size
  cell := r.cell
  blank := fun j h => r.blank j (Nat.lt_of_le_of_lt (Nat.le_max_left _ _) h)

/-- Write cells from `off` on. What does not fit into the file is lost. -/
def write (off : ℕ) (xs : List α) : Region α unit where
  size := r.size
  cell := fun j =>
    if off ≤ j ∧ unit * (j + 1) ≤ r.size then (xs[j - off]?).getD (r.cell j) else r.cell j
  blank := by
    intro j h
    rw [if_neg fun hin => Nat.not_le.mpr h hin.2]
    exact r.blank j h

/-- Make `len` cells blank from `off` on. -/
def clear (off len : ℕ) : Region α unit := r.write off (List.replicate len default)

/-- Read `len` cells from `off` on. -/
def read (off len : ℕ) : List α := (List.range len).map fun j => r.cell (off + j)

/-- Some cells of one file and the others of another. -/
def mix (r' : Region α unit) (p : ℕ → Bool) : Region α unit where
  size := max r.size r'.size
  cell := fun j => if p j then r'.cell j else r.cell j
  blank := by
    intro j h
    split
    · exact r'.blank j (Nat.lt_of_le_of_lt (Nat.le_max_right _ _) h)
    · exact r.blank j (Nat.lt_of_le_of_lt (Nat.le_max_left _ _) h)

@[simp] theorem grow_cell (size : ℕ) : (r.grow size).cell = r.cell := rfl

@[simp] theorem write_size (off : ℕ) (xs : List α) : (r.write off xs).size = r.size := rfl

@[simp] theorem clear_size (off len : ℕ) : (r.clear off len).size = r.size := rfl

@[simp] theorem length_read (off len : ℕ) : (r.read off len).length = len := by simp [read]

@[simp] theorem grow_of_le {size : ℕ} (h : size ≤ r.size) : r.grow size = r := by
  obtain ⟨s, c, b⟩ := r
  simp only [grow, Nat.max_eq_left h]

variable {r}

theorem cell_mix_of_pos {r' : Region α unit} (h : p j = true) :
    (r.mix r' p).cell j = r'.cell j := if_pos h

theorem cell_mix_of_neg {r' : Region α unit} (h : ¬ p j = true) :
    (r.mix r' p).cell j = r.cell j := if_neg h

/-- Where both agree it does not matter. -/
theorem cell_mix_of_eq {r' : Region α unit} (p : ℕ → Bool) (h : r'.cell j = r.cell j) :
    (r.mix r' p).cell j = r.cell j := by
  show (if _ then _ else _) = _
  rw [h, ite_self]

theorem cell_write_of_lt {xs : List α} (h : j < off) : (r.write off xs).cell j = r.cell j :=
  if_neg fun hin => Nat.not_le.mpr h hin.1

theorem cell_write_of_le {xs : List α} (h : off + xs.length ≤ j) :
    (r.write off xs).cell j = r.cell j := by
  show (if _ then _ else _) = _
  split
  · rw [List.getElem?_eq_none (by omega), Option.getD_none]
  · rfl

/-- A cell that is written and fits. -/
theorem cell_write {i : ℕ} {xs : List α} {x : α} (hx : xs[i]? = some x)
    (hfit : unit * (off + i + 1) ≤ r.size) : (r.write off xs).cell (off + i) = x := by
  show (if _ then _ else _) = _
  rw [if_pos ⟨Nat.le_add_right _ _, hfit⟩, Nat.add_sub_cancel_left, hx, Option.getD_some]

theorem cell_clear_of_lt (h : j < off) : (r.clear off len).cell j = r.cell j :=
  cell_write_of_lt h

/-- What is cleared is blank, also where it does not fit. -/
theorem cell_clear (h : off ≤ j) (h' : j < off + len) : (r.clear off len).cell j = default := by
  show (if _ then _ else _) = _
  split
  · rw [List.getElem?_replicate_of_lt (by omega), Option.getD_some]
  · next hin =>
    refine r.blank j ?_
    by_contra hfit
    exact hin ⟨h, Nat.not_lt.mp hfit⟩

theorem cell_clear_of_le (h : off + len ≤ j) : (r.clear off len).cell j = r.cell j :=
  cell_write_of_le (by rwa [List.length_replicate])

/-- **What is written is read back**, if it fits. -/
theorem read_write {xs : List α} (hfit : unit * (off + xs.length) ≤ r.size) :
    (r.write off xs).read off xs.length = xs := by
  refine List.ext_getElem (by simp) fun j hj hj' => ?_
  simp only [read, List.getElem_map, List.getElem_range]
  refine cell_write (List.getElem?_eq_getElem hj') ?_
  exact Nat.le_trans (Nat.mul_le_mul_left unit (by omega)) hfit

/-- What is read is written back without a change. -/
theorem write_read (off len : ℕ) : r.write off (r.read off len) = r := by
  refine Region.ext rfl (funext fun j => ?_)
  show (if _ then _ else _) = _
  split
  · next hin =>
    rw [read, List.getElem?_map]
    cases hget : (List.range len)[j - off]? with
    | none => rfl
    | some i =>
      obtain ⟨hlt, hi⟩ := List.getElem?_eq_some_iff.mp hget
      rw [List.getElem_range] at hi
      exact congrArg r.cell (by omega)
  · rfl

/-- What lies below a write is read as before. -/
theorem read_write_of_le {off' : ℕ} {xs : List α} (h : off + len ≤ off') :
    (r.write off' xs).read off len = r.read off len := by
  refine List.map_congr_left fun j hj => ?_
  exact cell_write_of_lt (by have := List.mem_range.mp hj; omega)

end Region

end Gringofts
