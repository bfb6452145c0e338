import Mathlib.Order.WellFounded

/-!
# Rounds of a fallible step

A step that may fail, taken again and again, each time with another input. An input has to suit the
state it meets; that consecutive inputs suit the states in between is said once, by a relation
between an input and the next.

## Main definitions

* `rounds` — so many rounds from a state

## Main results

* `foldlM_invariant` — an invariant holds after a list of inputs, if no step fails
* `rounds_ok` — an invariant holds after every round, and none fails
* `rounds_eventually` — what makes progress gets there
-/

namespace Gringofts

variable {ι σ ε : Type}

/-- **An invariant of a run**: what every step of it keeps, holds at its end. -/
theorem foldlM_invariant {f : σ → ι → Option σ} {P : σ → Prop} {inputs : List ι} {x y : σ}
    (hrun : inputs.foldlM f x = some y) (hx : P x)
    (hstep : ∀ i ∈ inputs, ∀ x y, P x → f x i = some y → P y) : P y := by
  induction inputs generalizing x with
  | nil =>
    obtain rfl : x = y := Option.some.inj hrun
    exact hx
  | cons i inputs ih =>
    obtain ⟨z, hz, hrest⟩ := Option.bind_eq_some_iff.mp hrun
    exact ih hrest (hstep i List.mem_cons_self x z hx hz) fun j hj =>
      hstep j (List.mem_cons_of_mem i hj)

/-- The state after `k` rounds with the inputs `inp 0`, `inp 1`, and so on. -/
def rounds (step : ι → σ → Except ε σ) : (ℕ → ι) → ℕ → σ → Except ε σ
  | _, 0, x => .ok x
  | inp, k + 1, x => (step (inp 0) x).bind (rounds step (fun i => inp (i + 1)) k)

variable {step : ι → σ → Except ε σ} {inp : ℕ → ι} {x y : σ} {k : ℕ}

theorem rounds_succ (h : step (inp 0) x = .ok y) :
    rounds step inp (k + 1) x = rounds step (fun i => inp (i + 1)) k y := by
  rw [rounds, h]
  rfl

variable {follows : ι → ι → Prop} {suits : σ → ι → Prop}

/-- **An invariant of the rounds**: if every round keeps it and does not fail, it holds after any
number of rounds. -/
theorem rounds_ok {P : σ → Prop}
    (hstep : ∀ i x, P x → suits x i → ∃ y, step i x = .ok y ∧ P y ∧
      ∀ i', follows i i' → suits y i')
    (hinp : ∀ k, follows (inp k) (inp (k + 1))) (hx : P x) (hs : suits x (inp 0)) (k : ℕ) :
    ∃ y, rounds step inp k x = .ok y ∧ P y := by
  induction k generalizing inp x with
  | zero => exact ⟨x, rfl, hx⟩
  | succ k ih =>
    obtain ⟨y, hy, hinv, hnext⟩ := hstep (inp 0) x hx hs
    rw [rounds_succ hy]
    exact ih (fun i => hinp (i + 1)) hinv (hnext _ (hinp 0))

/-- **Progress**: if every round keeps an invariant, and its measure gets smaller until the goal is
reached, no round fails and the goal is reached. -/
theorem rounds_eventually {α : Type} [LT α] [WellFoundedLT α] {I : α → σ → Prop}
    {G : σ → Prop}
    (hstep : ∀ i m x, I m x → suits x i → ∃ y m', step i x = .ok y ∧ I m' y ∧
      (G x ∨ m' < m) ∧ ∀ i', follows i i' → suits y i')
    (hinp : ∀ k, follows (inp k) (inp (k + 1))) {m : α} (hx : I m x) (hs : suits x (inp 0)) :
    (∀ k, ∃ y, rounds step inp k x = .ok y) ∧
      ∃ k y, rounds step inp k x = .ok y ∧ (∃ m', I m' y) ∧ G y := by
  constructor
  · intro k
    obtain ⟨y, hy, -⟩ := rounds_ok (P := fun x => ∃ m, I m x)
      (fun i x hx hs => by
        obtain ⟨m, hx⟩ := hx
        obtain ⟨y, m', hy, hinv, -, hnext⟩ := hstep i m x hx hs
        exact ⟨y, hy, ⟨m', hinv⟩, hnext⟩) hinp ⟨m, hx⟩ hs k
    exact ⟨y, hy⟩
  · induction m using WellFoundedLT.induction generalizing inp x with
    | ind m ih =>
      obtain ⟨y, m', hy, hinv, hgoal | hlt, hnext⟩ := hstep (inp 0) m x hx hs
      · exact ⟨0, x, rfl, ⟨m, hx⟩, hgoal⟩
      · obtain ⟨k, z, hz, hgoal⟩ := ih m' hlt (fun i => hinp (i + 1)) hinv (hnext _ (hinp 0))
        exact ⟨k + 1, z, by rw [rounds_succ hy]; exact hz, hgoal⟩

end Gringofts
