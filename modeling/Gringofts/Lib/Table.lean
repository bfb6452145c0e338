import Mathlib.Data.List.Basic
import Mathlib.Data.List.Pairwise
import Mathlib.Data.List.Nodup

/-!
# Ordered sets and tables of numbers

Membership is kept in ordered containers: a set of numbers that is walked in increasing order,
and a table with numbers as keys that is walked in the order of its keys. Both carry the order as
a field, so that a value with a repeated key cannot be built and no lemma has to ask for
distinctness.

## Main definitions

* `IdSet` — a strictly increasing list
* `Table` — rows with strictly increasing keys
* `Table.find?`, `Table.map`, `Table.modify`, `Table.erase`, `Table.keys`, `Table.insertAll`
-/

namespace Gringofts

variable {k j : ℕ} {xs : List ℕ}

/-! ## Sets -/

/-- A finite set of numbers, in increasing order. -/
structure IdSet where
  /-- The elements, in increasing order. -/
  elems : List ℕ
  /-- The order is strict, so nothing is repeated. -/
  sorted : elems.Pairwise (· < ·)
  deriving DecidableEq

namespace IdSet

instance : Membership ℕ IdSet := ⟨fun s k => k ∈ s.elems⟩

theorem mem_def {s : IdSet} : k ∈ s ↔ k ∈ s.elems := Iff.rfl

instance (s : IdSet) (k : ℕ) : Decidable (k ∈ s) := inferInstanceAs (Decidable (k ∈ s.elems))

theorem nodup (s : IdSet) : s.elems.Nodup := s.sorted.imp Nat.ne_of_lt

/-- Sets with the same elements are equal. -/
theorem ext {s t : IdSet} (h : ∀ k, k ∈ s ↔ k ∈ t) : s = t := by
  have hperm : s.elems.Perm t.elems := (List.perm_ext_iff_of_nodup s.nodup t.nodup).mpr h
  have helems : s.elems = t.elems := hperm.eq_of_pairwise
    (fun a b _ _ hab hba => absurd (Nat.lt_trans hab hba) (Nat.lt_irrefl a)) s.sorted t.sorted
  obtain ⟨xs, hxs⟩ := s
  obtain ⟨ys, hys⟩ := t
  subst helems
  rfl

/-- The empty set. -/
def empty : IdSet := ⟨[], List.Pairwise.nil⟩

/-- Is the set empty? -/
def isEmpty (s : IdSet) : Bool := s.elems.isEmpty

/-- Put a number where the order wants it, unless it is there. -/
def insertElem (k : ℕ) : List ℕ → List ℕ
  | [] => [k]
  | x :: xs => if k < x then k :: x :: xs else if k = x then x :: xs else x :: insertElem k xs

theorem mem_insertElem : j ∈ insertElem k xs ↔ j = k ∨ j ∈ xs := by
  induction xs with
  | nil => simp [insertElem]
  | cons x xs ih =>
    rw [insertElem]
    split
    · simp
    · split
      · next heq =>
        subst heq
        simp
      · rw [List.mem_cons, ih, List.mem_cons]
        tauto

theorem pairwise_insertElem (k : ℕ) (h : xs.Pairwise (· < ·)) :
    (insertElem k xs).Pairwise (· < ·) := by
  induction xs with
  | nil => simp [insertElem]
  | cons x xs ih =>
    obtain ⟨hx, hxs⟩ := List.pairwise_cons.mp h
    rw [insertElem]
    split
    · next hlt =>
      refine List.pairwise_cons.mpr ⟨fun y hy => ?_, h⟩
      rcases List.mem_cons.mp hy with rfl | hy
      · exact hlt
      · exact Nat.lt_trans hlt (hx y hy)
    · split
      · exact h
      · refine List.pairwise_cons.mpr ⟨fun y hy => ?_, ih hxs⟩
        rcases mem_insertElem.mp hy with rfl | hy
        · omega
        · exact hx y hy

/-- Insertion. -/
def insert (s : IdSet) (k : ℕ) : IdSet := ⟨insertElem k s.elems, pairwise_insertElem k s.sorted⟩

@[simp] theorem mem_insert {s : IdSet} : j ∈ s.insert k ↔ j = k ∨ j ∈ s :=
  mem_insertElem

end IdSet

/-! ## Tables -/

/-- A finite table with numbers as keys, in the order of the keys. -/
structure Table (α : Type) where
  /-- The rows, in the order of their keys. -/
  rows : List (ℕ × α)
  /-- The order is strict, so no key is repeated. -/
  sorted : rows.Pairwise fun r r' => r.1 < r'.1

namespace Table

variable {α β : Type}

/-- The value at a key. -/
def find? (t : Table α) (k : ℕ) : Option α := (t.rows.find? fun r => r.1 = k).map Prod.snd

/-- The keys, in order. -/
def keys (t : Table α) : IdSet := ⟨t.rows.map Prod.fst, List.pairwise_map.mpr t.sorted⟩

/-- Change every value. -/
def map (t : Table α) (f : ℕ → α → β) : Table β :=
  ⟨t.rows.map fun r => (r.1, f r.1 r.2), List.pairwise_map.mpr t.sorted⟩

/-- Change the value at one key, if the key is there. -/
def modify (t : Table α) (k : ℕ) (f : α → α) : Table α :=
  t.map fun j v => if j = k then f v else v

/-- Remove a key. -/
def erase (t : Table α) (k : ℕ) : Table α :=
  ⟨t.rows.filter fun r => r.1 ≠ k, t.sorted.filter _⟩

/-- Put a row where the order wants it, in the place of the one with its key. -/
def insertRow (k : ℕ) (v : α) : List (ℕ × α) → List (ℕ × α)
  | [] => [(k, v)]
  | r :: rs =>
    if k < r.1 then (k, v) :: r :: rs else if k = r.1 then (k, v) :: rs else r :: insertRow k v rs

theorem eq_or_mem_of_mem_insertRow {v : α} {r : ℕ × α} {rs : List (ℕ × α)}
    (h : r ∈ insertRow k v rs) : r = (k, v) ∨ r ∈ rs := by
  induction rs with
  | nil => exact Or.inl (List.mem_singleton.mp h)
  | cons s rs ih =>
    rw [insertRow] at h
    split at h
    · exact List.mem_cons.mp h
    · split at h
      · exact (List.mem_cons.mp h).imp_right (List.mem_cons_of_mem s)
      · rcases List.mem_cons.mp h with rfl | h
        · exact Or.inr List.mem_cons_self
        · exact (ih h).imp_right (List.mem_cons_of_mem s)

theorem pairwise_insertRow (k : ℕ) (v : α) {rs : List (ℕ × α)}
    (h : rs.Pairwise fun r r' => r.1 < r'.1) :
    (insertRow k v rs).Pairwise fun r r' => r.1 < r'.1 := by
  induction rs with
  | nil => simp [insertRow]
  | cons s rs ih =>
    obtain ⟨hs, hrs⟩ := List.pairwise_cons.mp h
    rw [insertRow]
    split
    · next hlt =>
      refine List.pairwise_cons.mpr ⟨fun r hr => ?_, h⟩
      rcases List.mem_cons.mp hr with rfl | hr
      · exact hlt
      · exact Nat.lt_trans hlt (hs r hr)
    · split
      · next heq => exact List.pairwise_cons.mpr ⟨fun r hr => heq ▸ hs r hr, hrs⟩
      · refine List.pairwise_cons.mpr ⟨fun r hr => ?_, ih hrs⟩
        rcases eq_or_mem_of_mem_insertRow hr with rfl | hr
        · change s.1 < k
          omega
        · exact hs r hr

/-- The table without rows. -/
def empty : Table α := ⟨[], List.Pairwise.nil⟩

/-- Set the value at a key. -/
def insert (t : Table α) (k : ℕ) (v : α) : Table α :=
  ⟨insertRow k v t.rows, pairwise_insertRow k v t.sorted⟩

theorem find?_insertRow (k : ℕ) (v : α) {rs : List (ℕ × α)}
    (h : rs.Pairwise fun r r' => r.1 < r'.1) (j : ℕ) :
    ((insertRow k v rs).find? fun r => r.1 = j).map Prod.snd =
      if k = j then some v else (rs.find? fun r => r.1 = j).map Prod.snd := by
  induction rs with
  | nil => by_cases hj : k = j <;> simp [insertRow, hj]
  | cons s rs ih =>
    obtain ⟨hs, hrs⟩ := List.pairwise_cons.mp h
    rw [insertRow]
    split
    · by_cases hj : k = j <;> simp [List.find?_cons, hj]
    · split
      · next heq =>
        by_cases hj : k = j
        · simp [hj]
        · have hj' : ¬ s.1 = j := heq ▸ hj
          simp [hj, hj']
      · next hlt hne =>
        by_cases hsj : s.1 = j
        · have hj : ¬ k = j := fun hj => hne (hj.trans hsj.symm)
          simp [hsj, hj]
        · simpa [List.find?_cons, hsj] using ih hrs

/-- What is read after a value is set. -/
theorem find?_insert (t : Table α) (k : ℕ) (v : α) (j : ℕ) :
    (t.insert k v).find? j = if k = j then some v else t.find? j :=
  find?_insertRow k v t.sorted j

@[simp] theorem find?_map (t : Table α) (f : ℕ → α → β) (k : ℕ) :
    (t.map f).find? k = (t.find? k).map (f k) := by
  rw [find?, map, find?, List.find?_map, Option.map_map, Option.map_map]
  cases hr : t.rows.find? fun r => decide (r.1 = k) with
  | none => simp [Function.comp_def, hr]
  | some r =>
    have hk : r.1 = k := by simpa using List.find?_some hr
    simp [Function.comp_def, hr, hk]

@[simp] theorem find?_modify_self (t : Table α) (k : ℕ) (f : α → α) :
    (t.modify k f).find? k = (t.find? k).map f := by
  simp [modify]

theorem find?_modify_of_ne (t : Table α) (f : α → α) (h : j ≠ k) :
    (t.modify k f).find? j = t.find? j := by
  simp [modify, h]

@[simp] theorem keys_map (t : Table α) (f : ℕ → α → β) : (t.map f).keys = t.keys := by
  simp [keys, map, Function.comp_def]

@[simp] theorem keys_modify (t : Table α) (k : ℕ) (f : α → α) : (t.modify k f).keys = t.keys :=
  keys_map t _

theorem mem_keys {t : Table α} : k ∈ t.keys ↔ ∃ v, t.find? k = some v := by
  rw [IdSet.mem_def, keys, List.mem_map]
  constructor
  · rintro ⟨r, hr, rfl⟩
    have hsome : (t.rows.find? fun r' => decide (r'.1 = r.1)).isSome := by
      rw [List.find?_isSome]
      exact ⟨r, hr, by simp⟩
    obtain ⟨r', hr'⟩ := Option.isSome_iff_exists.mp hsome
    exact ⟨r'.2, by rw [find?, hr', Option.map_some]⟩
  · rintro ⟨v, hv⟩
    obtain ⟨r, hr, -⟩ := Option.map_eq_some_iff.mp hv
    exact ⟨r, List.mem_of_find?_eq_some hr, by simpa using List.find?_some hr⟩

/-- A table has the row that it answers with, and no other with that key. -/
theorem mem_rows {t : Table α} {v : α} : (k, v) ∈ t.rows ↔ t.find? k = some v := by
  constructor
  · intro hmem
    obtain ⟨w, hw⟩ := mem_keys.mp (List.mem_map_of_mem hmem : k ∈ t.keys.elems)
    obtain ⟨r, hr, rfl⟩ := Option.map_eq_some_iff.mp hw
    have hk : r.1 = k := by simpa using List.find?_some hr
    have heq : r = (k, v) := List.inj_on_of_nodup_map t.keys.nodup
      (List.mem_of_find?_eq_some hr) hmem hk
    rw [hw, heq]
  · intro hv
    obtain ⟨r, hr, rfl⟩ := Option.map_eq_some_iff.mp hv
    have hk : r.1 = k := by simpa using List.find?_some hr
    rw [← hk]
    exact List.mem_of_find?_eq_some hr

theorem find?_eq_none {t : Table α} : t.find? k = none ↔ k ∉ t.keys := by
  rw [mem_keys, Option.eq_none_iff_forall_ne_some, not_exists]

@[simp] theorem find?_erase_self (t : Table α) (k : ℕ) : (t.erase k).find? k = none := by
  simp [find?, erase, List.find?_filter]

theorem find?_erase_of_ne (t : Table α) (h : j ≠ k) : (t.erase k).find? j = t.find? j := by
  rw [find?, erase, List.find?_filter, find?]
  congr 2
  funext r
  by_cases hr : r.1 = j
  · simp [hr, h]
  · simp [hr]

/-- Tables that answer alike are equal. -/
theorem ext {t u : Table α} (h : ∀ k, t.find? k = u.find? k) : t = u := by
  have hnodup : ∀ w : Table α, w.rows.Nodup := fun w => List.Nodup.of_map Prod.fst w.keys.nodup
  have hperm : t.rows.Perm u.rows := by
    refine (List.perm_ext_iff_of_nodup (hnodup t) (hnodup u)).mpr fun r => ?_
    rw [mem_rows, mem_rows, h]
  have hrows : t.rows = u.rows := hperm.eq_of_pairwise
    (fun r r' _ _ hlt hgt => absurd (Nat.lt_trans hlt hgt) (Nat.lt_irrefl r.1)) t.sorted u.sorted
  obtain ⟨xs, hxs⟩ := t
  obtain ⟨ys, hys⟩ := u
  subst hrows
  rfl

/-- Set the values of rows, one after the other. -/
def insertAll (t : Table α) (rows : List (ℕ × α)) : Table α :=
  rows.foldl (fun t r => t.insert r.1 r.2) t

/-- What is read after the rows of a table are set: those first. -/
theorem find?_insertAll (t : Table α) {rows : List (ℕ × α)}
    (h : rows.Pairwise fun r r' => r.1 < r'.1) (k : ℕ) :
    (t.insertAll rows).find? k =
      ((rows.find? fun r => r.1 = k).map Prod.snd).or (t.find? k) := by
  induction rows generalizing t with
  | nil => rfl
  | cons r rows ih =>
    obtain ⟨hr, hrows⟩ := List.pairwise_cons.mp h
    refine (ih (t.insert r.1 r.2) hrows).trans ?_
    rw [find?_insert]
    by_cases hk : r.1 = k
    · -- the other rows have larger keys
      have hnone : (rows.find? fun r' => r'.1 = k) = none := by
        refine List.find?_eq_none.mpr fun r' hr' => ?_
        have hlt : k < r'.1 := hk ▸ hr r' hr'
        simpa using Nat.ne_of_gt hlt
      simp [hk, hnone]
    · simp [hk]

theorem find?_insertAll_rows (t u : Table α) (k : ℕ) :
    (t.insertAll u.rows).find? k = (u.find? k).or (t.find? k) :=
  t.find?_insertAll u.sorted k

/-- A table is what its rows make. -/
@[simp] theorem insertAll_empty (u : Table α) : Table.empty.insertAll u.rows = u :=
  ext fun k => (find?_insertAll_rows empty u k).trans Option.or_none

end Table

end Gringofts
