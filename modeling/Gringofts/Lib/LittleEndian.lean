import Mathlib.Data.List.Basic
import Mathlib.Algebra.Group.Nat.Defs

/-!
# Numbers as bytes

A number is written in a fixed number of bytes, the least significant one first. What does not fit
is lost.

## Main definitions

* `toBytes` — write
* `ofBytes` — read

## Main results

* `ofBytes_toBytes` — the number modulo what fits
-/

namespace Gringofts

/-- A number in `width` bytes, least significant first. -/
def toBytes : ℕ → ℕ → List UInt8
  | 0, _ => []
  | width + 1, n => UInt8.ofNat n :: toBytes width (n / 256)

/-- The number that bytes make. -/
def ofBytes : List UInt8 → ℕ
  | [] => 0
  | b :: bytes => b.toNat + 256 * ofBytes bytes

@[simp] theorem length_toBytes (width n : ℕ) : (toBytes width n).length = width := by
  induction width generalizing n with
  | zero => rfl
  | succ width ih => simp [toBytes, ih]

/-- **What is read back** is what fits. -/
@[simp] theorem ofBytes_toBytes (width n : ℕ) : ofBytes (toBytes width n) = n % 256 ^ width := by
  induction width generalizing n with
  | zero => simp [toBytes, ofBytes, Nat.mod_one]
  | succ width ih =>
    have hlow : (UInt8.ofNat n).toNat = n % 256 := UInt8.toNat_ofNat'
    rw [toBytes, ofBytes, ih, hlow, Nat.pow_succ, Nat.mul_comm (256 ^ width) 256, Nat.mod_mul]

end Gringofts
