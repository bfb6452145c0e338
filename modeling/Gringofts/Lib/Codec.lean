import Mathlib.Data.List.Basic

/-!
# Codecs

What is written down can be read back. This is all that is assumed of a serialization.

Self-delimiting formats are built from smaller ones: what is read is taken off the front of the
input and the rest is left. Such a format gives a codec.

## Main definitions

* `Codec` — a way to write values down
* `Framing` — a self-delimiting format, with `Framing.nat`, `Framing.byte`, `Framing.pair`,
  `Framing.list`, `Framing.option` and `Framing.map` to build it
* `Framing.toCodec`
-/

namespace Gringofts

/-- A way to write values down that can be read back. -/
structure Codec (α π : Type) where
  serialize : α → π
  parse : π → Option α
  parse_serialize : ∀ a, parse (serialize a) = some a

attribute [simp] Codec.parse_serialize

/-- A self-delimiting format. -/
structure Framing (α : Type) where
  put : α → List UInt8
  get : List UInt8 → Option (α × List UInt8)
  get_put : ∀ a rest, get (put a ++ rest) = some (a, rest)

namespace Framing

variable {α β : Type}

attribute [simp] get_put

/-- Count up to the first zero. -/
def getNat : List UInt8 → Option (ℕ × List UInt8)
  | [] => none
  | b :: rest => if b = 0 then some (0, rest) else (getNat rest).map fun (n, r) => (n + 1, r)

/-- A number in unary. -/
def nat : Framing ℕ where
  put n := List.replicate n 1 ++ [0]
  get := getNat
  get_put n rest := by
    induction n with
    | zero => simp [getNat]
    | succ n ih => simp_all [getNat, List.replicate_succ]

/-- A byte. -/
def byte : Framing UInt8 where
  put b := [b]
  get
    | [] => none
    | b :: rest => some (b, rest)
  get_put _ _ := rfl

/-- One after the other. -/
def pair (u : Framing α) (v : Framing β) : Framing (α × β) where
  put x := u.put x.1 ++ v.put x.2
  get bytes := do
    let (a, bytes) ← u.get bytes
    let (b, bytes) ← v.get bytes
    pure ((a, b), bytes)
  get_put x rest := by simp

/-- A type whose values are values of another. -/
def map (v : Framing β) (f : α → β) (g : β → α) (h : ∀ a, g (f a) = a) : Framing α where
  put a := v.put (f a)
  get bytes := (v.get bytes).map fun (b, rest) => (g b, rest)
  get_put a rest := by simp [h]

/-- A value that may be missing. -/
def option (v : Framing α) : Framing (Option α) where
  put
    | none => [0]
    | some a => 1 :: v.put a
  get
    | [] => none
    | b :: rest => if b = 0 then some (none, rest) else (v.get rest).map fun (a, r) => (some a, r)
  get_put x rest := by cases x <;> simp

/-- Read a number of values. -/
def getList (v : Framing α) : ℕ → List UInt8 → Option (List α × List UInt8)
  | 0, bytes => some ([], bytes)
  | n + 1, bytes => do
    let (a, bytes) ← v.get bytes
    let (as, bytes) ← getList v n bytes
    pure (a :: as, bytes)

theorem getList_flatMap (v : Framing α) (as : List α) (rest : List UInt8) :
    v.getList as.length (as.flatMap v.put ++ rest) = some (as, rest) := by
  induction as with
  | nil => rfl
  | cons a as ih => simp [getList, ih]

/-- Values one after the other, with their number in front. -/
def list (v : Framing α) : Framing (List α) where
  put as := nat.put as.length ++ as.flatMap v.put
  get bytes := do
    let (n, bytes) ← nat.get bytes
    v.getList n bytes
  get_put as rest := by simp [getList_flatMap]

/-- The codec of a format: nothing may follow. -/
def toCodec (v : Framing α) : Codec α (List UInt8) where
  serialize := v.put
  parse bytes := (v.get bytes).bind fun (a, rest) => if rest = [] then some a else none
  parse_serialize a := by
    rw [← List.append_nil (v.put a), get_put]
    rfl

end Framing

end Gringofts
