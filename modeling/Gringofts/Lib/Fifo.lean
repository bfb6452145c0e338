import Mathlib.Data.List.Basic

/-!
# First in, first out

What a queue does is a sequence of operations: elements come in at the back and go out at the front,
and other things happen in between. Nothing more is needed to say in which order elements leave: the
elements that have come in are those that have gone out, in order, followed by those that are still
there.

## Main definitions

* `FifoOp`, `FifoOp.Moves` — what an operation does to the contents
* `FifoOp.Run` — operations one after the other
* `FifoOp.pushes`, `FifoOp.pops` — what has come in and what has gone out

## Main results

* `FifoOp.Run.conserves` — nothing is lost, doubled or overtaken
* `FifoOp.Run.oldest` — what goes out next is the oldest that is left
-/

namespace Gringofts

/-- An operation on a queue. -/
inductive FifoOp (α : Type)
  | push (a : α)
  | pop (a : α)
  /-- Something that does not concern the contents. -/
  | other

namespace FifoOp

variable {α : Type}

/-- What an operation does to the contents. -/
def Moves : FifoOp α → List α → List α → Prop
  | push a, q, q' => q' = q ++ [a]
  | pop a, q, q' => q = a :: q'
  | other, q, q' => q' = q

/-- Operations one after the other. -/
inductive Run : List (FifoOp α) → List α → List α → Prop
  | nil (q : List α) : Run [] q q
  | cons {op : FifoOp α} {ops : List (FifoOp α)} {q q' q'' : List α} (h : op.Moves q q')
      (hs : Run ops q' q'') : Run (op :: ops) q q''

/-- The element that comes in. -/
def pushed? : FifoOp α → Option α
  | push a => some a
  | pop _ => none
  | other => none

/-- The element that goes out. -/
def popped? : FifoOp α → Option α
  | push _ => none
  | pop a => some a
  | other => none

/-- The elements that have come in, in order. -/
def pushes (ops : List (FifoOp α)) : List α := ops.filterMap pushed?

/-- The elements that have gone out, in order. -/
def pops (ops : List (FifoOp α)) : List α := ops.filterMap popped?

variable {ops : List (FifoOp α)} {q q' : List α} {a : α}

@[simp] theorem pushes_push : pushes (push a :: ops) = a :: pushes ops := rfl
@[simp] theorem pushes_pop : pushes (pop a :: ops) = pushes ops := rfl
@[simp] theorem pushes_other : pushes (other :: ops) = pushes ops := rfl
@[simp] theorem pops_push : pops (push a :: ops) = pops ops := rfl
@[simp] theorem pops_pop : pops (pop a :: ops) = a :: pops ops := rfl
@[simp] theorem pops_other : pops (other :: ops) = pops ops := rfl

/-- **Nothing is lost, doubled or overtaken.** -/
theorem Run.conserves (h : Run ops q q') : q ++ pushes ops = pops ops ++ q' := by
  induction h with
  | nil q => simp [pushes, pops]
  | @cons op ops q q' q'' hop _ ih =>
    cases op with
    | push a =>
      have hq : q' = q ++ [a] := hop
      rw [hq, List.append_assoc] at ih
      exact ih
    | pop a =>
      have hq : q = a :: q' := hop
      rw [hq, pushes_pop, pops_pop, List.cons_append, ih, List.cons_append]
    | other =>
      have hq : q' = q := hop
      rw [hq] at ih
      exact ih

/-- **What goes out next is the oldest that is left.** -/
theorem Run.oldest (h : Run ops [] q) (ha : (pop a).Moves q q') :
    (pushes ops)[(pops ops).length]? = some a := by
  have hall := h.conserves
  have hq : q = a :: q' := ha
  rw [List.nil_append] at hall
  rw [hall, hq, List.getElem?_append_right (Nat.le_refl _), Nat.sub_self]
  rfl

end FifoOp

end Gringofts
