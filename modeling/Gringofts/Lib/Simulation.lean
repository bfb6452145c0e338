import Gringofts.Lib.Outcome

/-!
# Simulating a computation by an abstract one

A step of a crash-prone process is simulated by an abstract system when the abstract system can
move along with it: at every durable write the abstract state describes what is on disk, so that
a process that stops there is described too, and at the end it describes the result.

`Abstraction` bundles the abstract states, what it means to move from one to another, and what
it means to describe a durable state. `Abstraction.Sim s o Q A` says that from the abstract state
`s` the computation `o` is simulated, with `Q` relating the final abstract state to the value.

## Main results

* `Abstraction.Sim.bind` — sequencing: the second part is simulated from wherever the first one
  has moved to
* `Abstraction.Sim.advance` — the abstract system may move by itself
* `Abstraction.sim_pure`, `sim_persist`, `sim_check`, `sim_ofOption` — the primitives
-/

namespace Gringofts

open Outcome

/-- An abstract system to simulate in. -/
structure Abstraction (σ ω : Type) where
  /-- The abstract system can move from one state to another. -/
  reach : σ → σ → Prop
  refl : ∀ s, reach s s
  trans : ∀ {s s' s''}, reach s s' → reach s' s'' → reach s s''
  /-- The abstract state describes a durable state. -/
  durable : σ → ω → Prop

namespace Abstraction

variable {σ ω ε α β : Type} (M : Abstraction σ ω)

/-- The computation is simulated from `s`. -/
def Sim (s : σ) (o : Outcome ω ε α) (Q : σ → α → Prop) (A : ε → Prop) : Prop :=
  o.Sat (fun w => ∃ s', M.reach s s' ∧ M.durable s' w) (fun a => ∃ s', M.reach s s' ∧ Q s' a) A

variable {M} {s s' : σ} {Q R : σ → α → Prop} {A A' : ε → Prop}

theorem sim_pure {a : α} (h : Q s a) : M.Sim s (pure a : Outcome ω ε α) Q A :=
  sat_pure.mpr ⟨s, M.refl s, h⟩

theorem sim_persist {w : ω} {Q : σ → Unit → Prop} (hd : M.durable s w) (h : Q s ()) :
    M.Sim s (Outcome.persist w : Outcome ω ε Unit) Q A :=
  sat_persist.mpr ⟨⟨s, M.refl s, hd⟩, s, M.refl s, h⟩

theorem sim_check {p : Prop} [Decidable p] {e : ε} {Q : σ → Unit → Prop} (h : p → Q s ())
    (hA : ¬ p → A e) : M.Sim s (Outcome.check p e : Outcome ω ε Unit) Q A :=
  sat_check.mpr ⟨fun hp => ⟨s, M.refl s, h hp⟩, hA⟩

theorem sim_ofOption {e : ε} {x : Option α} (h : ∀ a, x = some a → Q s a)
    (hA : x = none → A e) : M.Sim s (Outcome.ofOption e x : Outcome ω ε α) Q A :=
  sat_ofOption.mpr ⟨fun a ha => ⟨s, M.refl s, h a ha⟩, hA⟩

/-- A computation that writes nothing is simulated without moving. -/
theorem sim_of_sat {o : Outcome ω ε α} (h : o.Sat (fun _ => False) (Q s) A) : M.Sim s o Q A :=
  Sat.mono h (fun _ => False.elim) (fun _ hq => ⟨s, M.refl s, hq⟩) (fun _ => id)

namespace Sim

/-- The abstract system may move first. -/
theorem advance {o : Outcome ω ε α} (hs : M.reach s s') (h : M.Sim s' o Q A) : M.Sim s o Q A :=
  Sat.mono h (fun _ ⟨t, ht, hd⟩ => ⟨t, M.trans hs ht, hd⟩)
    (fun _ ⟨t, ht, hq⟩ => ⟨t, M.trans hs ht, hq⟩) (fun _ => id)

theorem imp {o : Outcome ω ε α} (h : M.Sim s o Q A) (hQ : ∀ t a, M.reach s t → Q t a → R t a) :
    M.Sim s o R A :=
  Sat.imp h fun a ⟨t, ht, hq⟩ => ⟨t, ht, hQ t a ht hq⟩

theorem weaken {o : Outcome ω ε α} (h : M.Sim s o Q A) (hA : ∀ e, A e → A' e) :
    M.Sim s o Q A' :=
  Sat.mono h (fun _ => id) (fun _ => id) hA

/-- **Sequencing.** -/
theorem bind {o : Outcome ω ε α} {f : α → Outcome ω ε β} {Q : σ → β → Prop}
    (ho : M.Sim s o R A) (hf : ∀ t a, M.reach s t → R t a → M.Sim t (f a) Q A) :
    M.Sim s (o >>= f) Q A :=
  Sat.bind ho fun a ⟨t, ht, hr⟩ => (hf t a ht hr).advance ht

theorem ite {c : Prop} [Decidable c] {o o' : Outcome ω ε α} (h : c → M.Sim s o Q A)
    (h' : ¬ c → M.Sim s o' Q A) : M.Sim s (if c then o else o') Q A := by
  split
  · next hc => exact h hc
  · next hc => exact h' hc

end Sim

end Abstraction

end Gringofts
