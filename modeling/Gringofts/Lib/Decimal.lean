import Mathlib.Data.List.Basic
import Mathlib.Tactic.IntervalCases

/-!
# Decimal numbers in front of bytes

A number is written in decimal digits, one byte for each, and other bytes follow without anything in
between. What was written cannot always be read back: where the digits end is only known if the
number has one digit and the next byte is not a digit.

## Main definitions

* `decimal`, `ofDecimal` — the digits of a number, most significant first, and their value
* `IsDigit` — the byte is a digit

## Main results

* `decimal_mul_add` — one more digit
* `decimal_append_unique_iff` — when a number and the bytes after it can be told apart
-/

namespace Gringofts

variable {d n : ℕ}

/-- The byte of a decimal digit. -/
def digitByte (d : ℕ) : UInt8 := UInt8.ofNat (Nat.digitChar d).toNat

/-- The decimal digits of a number as bytes, most significant first. -/
def decimal (n : ℕ) : List UInt8 := (Nat.toDigits 10 n).map fun c => UInt8.ofNat c.toNat

/-- The byte is a decimal digit. -/
def IsDigit (b : UInt8) : Prop := ∃ d < 10, digitByte d = b

instance (b : UInt8) : Decidable (IsDigit b) := inferInstanceAs (Decidable (∃ d < 10, _))

theorem digitByte_injOn {e : ℕ} (hd : d < 10) (he : e < 10) (h : digitByte d = digitByte e) :
    d = e := by
  revert h
  interval_cases d <;> interval_cases e <;> decide

theorem decimal_of_lt (h : n < 10) : decimal n = [digitByte n] := by
  rw [decimal, Nat.toDigits_of_lt_base h]
  rfl

/-- One more digit. -/
theorem decimal_mul_add (hn : 0 < n) (hd : d < 10) :
    decimal (10 * n + d) = decimal n ++ [digitByte d] := by
  rw [decimal, ← Nat.toDigits_append_toDigits (by decide) hn hd, List.map_append,
    Nat.toDigits_of_lt_base hd]
  rfl

theorem decimal_of_ge (h : 10 ≤ n) : decimal n = decimal (n / 10) ++ [digitByte (n % 10)] := by
  rw [← decimal_mul_add (Nat.div_pos h (by decide)) (Nat.mod_lt n (by decide)), Nat.div_add_mod]

/-- The number that digits stand for. -/
def ofDecimal (ds : List UInt8) : ℕ := ds.foldl (fun n b => 10 * n + (b.toNat - 48)) 0

theorem toNat_digitByte (h : d < 10) : (digitByte d).toNat - 48 = d := by
  interval_cases d <;> rfl

/-- A number is read back from its digits. -/
@[simp] theorem ofDecimal_decimal (n : ℕ) : ofDecimal (decimal n) = n := by
  induction n using Nat.strongRecOn with
  | ind n ih =>
    by_cases hn : n < 10
    · rw [decimal_of_lt hn]
      exact (Nat.zero_add _).trans (toNat_digitByte hn)
    · have hlast := toNat_digitByte (Nat.mod_lt n (show 0 < 10 by decide))
      rw [decimal_of_ge (Nat.le_of_not_lt hn), ofDecimal, List.foldl_append, ← ofDecimal,
        ih (n / 10) (by omega), List.foldl_cons, List.foldl_nil, hlast]
      exact Nat.div_add_mod n 10

theorem decimal_ne_nil (n : ℕ) : decimal n ≠ [] := by
  intro h
  exact Nat.toDigits_ne_nil (List.map_eq_nil_iff.mp h)

/-- Every byte of a number is a digit. -/
theorem isDigit_of_mem_decimal {b : UInt8} (h : b ∈ decimal n) : IsDigit b := by
  induction n using Nat.strongRecOn with
  | ind n ih =>
    by_cases hn : n < 10
    · rw [decimal_of_lt hn, List.mem_singleton] at h
      exact ⟨n, hn, h.symm⟩
    · rw [decimal_of_ge (Nat.le_of_not_lt hn), List.mem_append, List.mem_singleton] at h
      rcases h with h | rfl
      · exact ih (n / 10) (by omega) h
      · exact ⟨n % 10, Nat.mod_lt n (by decide), rfl⟩

/-- A number has one digit, or its first digit is followed by another one. -/
theorem decimal_cases (n : ℕ) : (n < 10 ∧ decimal n = [digitByte n]) ∨
    ∃ b c ds, decimal n = b :: c :: ds ∧ IsDigit c := by
  by_cases hn : n < 10
  · exact Or.inl ⟨hn, decimal_of_lt hn⟩
  · right
    have hlast := decimal_of_ge (Nat.le_of_not_lt hn)
    match hds : decimal n with
    | [] => exact (decimal_ne_nil n hds).elim
    | [b] =>
      -- the digits of `n / 10` take at least one place
      have hlen := congrArg List.length (hlast.symm.trans hds)
      have hpos := List.length_pos_iff.mpr (decimal_ne_nil (n / 10))
      rw [List.length_append, List.length_singleton, List.length_singleton] at hlen
      omega
    | b :: c :: ds =>
      refine ⟨b, c, ds, rfl, isDigit_of_mem_decimal (n := n) ?_⟩
      rw [hds]
      exact List.mem_cons_of_mem b List.mem_cons_self

/-- **When a number and the bytes after it can be told apart**: no other positive number and bytes
give the same bytes exactly when the number has one digit and no digit follows it. -/
theorem decimal_append_unique_iff {i : ℕ} (hi : 1 ≤ i) (b : List UInt8) :
    (∀ j c, 1 ≤ j → decimal j ++ c = decimal i ++ b → j = i ∧ c = b) ↔
      i < 10 ∧ ∀ x ∈ b.head?, ¬ IsDigit x := by
  constructor
  · intro hunique
    refine ⟨?_, ?_⟩
    · -- otherwise the last digit may be counted among the bytes
      by_contra hlt
      have hge := Nat.le_of_not_lt hlt
      have hsame : decimal (i / 10) ++ (digitByte (i % 10) :: b) = decimal i ++ b := by
        rw [decimal_of_ge hge, List.append_assoc, List.singleton_append]
      have heq := (hunique (i / 10) _ (Nat.div_pos hge (by decide)) hsame).1
      omega
    · -- otherwise the first byte may be counted among the digits
      intro x hx hdigit
      obtain ⟨d, hd, rfl⟩ := hdigit
      obtain ⟨c, rfl⟩ := List.head?_eq_some_iff.mp hx
      have hsame : decimal (10 * i + d) ++ c = decimal i ++ digitByte d :: c := by
        rw [decimal_mul_add hi hd, List.append_assoc, List.singleton_append]
      have heq := (hunique (10 * i + d) c (by omega) hsame).1
      omega
  · rintro ⟨hlt, hhead⟩ j c - hsame
    rw [decimal_of_lt hlt, List.singleton_append] at hsame
    rcases decimal_cases j with ⟨hj, hdec⟩ | ⟨x, y, ds, hdec, hy⟩
    · rw [hdec, List.singleton_append] at hsame
      injection hsame with hdigit hbytes
      exact ⟨digitByte_injOn hj hlt hdigit, hbytes⟩
    · rw [hdec, List.cons_append, List.cons_append] at hsame
      injection hsame with _ hbytes
      refine (hhead y ?_ hy).elim
      rw [← hbytes]
      rfl

end Gringofts
