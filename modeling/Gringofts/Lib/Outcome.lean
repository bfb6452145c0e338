import Mathlib.Data.List.Basic

/-!
# Computations that write durably and may abort

A step of a crash-prone process does two things a pure function does not: it leaves a trail of
durable writes, one after the other, and it may stop in the middle on a failed assertion. What
survives such a stop is decided by the writes that were already made, so the trail has to be
kept also when the computation fails.

`Outcome ω ε α` is that trail together with a result: the durable states `ω` written, oldest
first, and either a value or the assertion `ε` that failed.

## Reasoning

`Outcome.Sat o W Q A` says that every write satisfies `W`, a normal result satisfies `Q` and a
failed assertion satisfies `A`. The predicate `W` is fixed along a computation: it is what has to
hold of the durable state wherever the process may stop. `Outcome.Sat.bind` is the rule of
composition, and one lemma for each primitive is all that is needed besides it.

## Main results

* `Outcome.Sat.bind`, `Outcome.Sat.mono` — sequencing and consequence
* `Outcome.sat_pure`, `sat_persist`, `sat_check`, `sat_fail` — the primitives
-/

namespace Gringofts

/-- The trail of durable writes of a computation, oldest first, and how it ended. -/
structure Outcome (ω ε α : Type) where
  /-- The durable states written, oldest first. -/
  writes : List ω
  /-- The value computed, or the assertion that stopped the process. -/
  result : Except ε α

namespace Outcome

variable {ω ε α β : Type}

/-- The computation that writes nothing and returns `a`. -/
protected def pure (a : α) : Outcome ω ε α := ⟨[], .ok a⟩

/-- Sequencing. A failed first part keeps its writes and the rest does not run. -/
protected def bind (o : Outcome ω ε α) (f : α → Outcome ω ε β) : Outcome ω ε β :=
  match o.result with
  | .ok a => ⟨o.writes ++ (f a).writes, (f a).result⟩
  | .error e => ⟨o.writes, .error e⟩

instance : Monad (Outcome ω ε) where
  pure := Outcome.pure
  bind := Outcome.bind

instance : LawfulMonad (Outcome ω ε) := LawfulMonad.mk' _
  (fun o => by
    obtain ⟨ws, r⟩ := o
    cases r <;> simp [Functor.map, Outcome.bind, Outcome.pure])
  (fun _ _ => rfl)
  (fun o f g => by
    change (o.bind f).bind g = o.bind fun x => (f x).bind g
    obtain ⟨ws, r⟩ := o
    cases r with
    | error e => rfl
    | ok a =>
      simp only [Outcome.bind]
      cases (f a).result <;> simp)

/-- Stop on the assertion `e`. -/
def fail (e : ε) : Outcome ω ε α := ⟨[], .error e⟩

/-- Go on only when `p` holds; otherwise stop on the assertion `e`. -/
def check (p : Prop) [Decidable p] (e : ε) : Outcome ω ε Unit :=
  if p then pure () else fail e

/-- One durable write. -/
def persist (w : ω) : Outcome ω ε Unit := ⟨[w], .ok ()⟩

/-- The value of an option, or the assertion `e` when there is none. -/
def ofOption (e : ε) : Option α → Outcome ω ε α
  | some a => pure a
  | none => fail e

/-- The value computed, if no assertion failed. -/
def value? (o : Outcome ω ε α) : Option α :=
  match o.result with
  | .ok a => some a
  | .error _ => none

theorem value?_eq_some {o : Outcome ω ε α} {a : α} : o.value? = some a ↔ o.result = .ok a := by
  rw [value?]
  split <;> simp_all

/-- The assertion that failed, if one did. -/
def error? (o : Outcome ω ε α) : Option ε :=
  match o.result with
  | .ok _ => none
  | .error e => some e

theorem error?_eq_some {o : Outcome ω ε α} {e : ε} : o.error? = some e ↔ o.result = .error e := by
  rw [error?]
  split <;> simp_all

/-! ## Pre- and postconditions -/

/-- Every write satisfies `W`, a value satisfies `Q`, a failed assertion satisfies `A`. -/
def Sat (o : Outcome ω ε α) (W : ω → Prop) (Q : α → Prop) (A : ε → Prop) : Prop :=
  (∀ w ∈ o.writes, W w) ∧
    match o.result with
    | .ok a => Q a
    | .error e => A e

variable {o : Outcome ω ε α} {f : α → Outcome ω ε β} {W W' : ω → Prop} {Q Q' : α → Prop}
  {A A' : ε → Prop} {w : ω} {ws vs : List ω} {a : α} {b : β} {e : ε}

theorem sat_pure : (pure a : Outcome ω ε α).Sat W Q A ↔ Q a := by
  simp [Sat, Pure.pure, Outcome.pure]

theorem sat_trivial (o : Outcome ω ε α) :
    o.Sat (fun _ => True) (fun _ => True) fun _ => True := by
  refine ⟨fun _ _ => trivial, ?_⟩
  split <;> trivial

theorem sat_fail : (fail e : Outcome ω ε α).Sat W Q A ↔ A e := by
  simp [Sat, fail]

theorem sat_persist {Q : Unit → Prop} : (persist w : Outcome ω ε Unit).Sat W Q A ↔ W w ∧ Q () := by
  simp [Sat, persist]

theorem sat_check {p : Prop} [Decidable p] {Q : Unit → Prop} :
    (check p e : Outcome ω ε Unit).Sat W Q A ↔ (p → Q ()) ∧ (¬ p → A e) := by
  by_cases hp : p
  · simp [check, hp, sat_pure]
  · simp [check, hp, sat_fail]

theorem sat_ofOption {x : Option α} :
    (ofOption e x : Outcome ω ε α).Sat W Q A ↔ (∀ a, x = some a → Q a) ∧ (x = none → A e) := by
  cases x with
  | none => simp [ofOption, sat_fail]
  | some a => simp [ofOption, sat_pure]

/-- **Sequencing.** -/
theorem sat_bind {Q : β → Prop} : (o >>= f).Sat W Q A ↔ o.Sat W (fun a => (f a).Sat W Q A) A := by
  change (o.bind f).Sat W Q A ↔ _
  obtain ⟨ws, r⟩ := o
  cases r with
  | error e => simp [Sat, Outcome.bind]
  | ok a =>
    simp only [Sat, Outcome.bind, List.mem_append]
    constructor
    · rintro ⟨hw, hq⟩
      exact ⟨fun w h => hw w (Or.inl h), fun w h => hw w (Or.inr h), hq⟩
    · rintro ⟨hw, hw', hq⟩
      exact ⟨fun w h => h.elim (hw w) (hw' w), hq⟩

theorem Sat.bind {Q : β → Prop} {R : α → Prop} (ho : o.Sat W R A)
    (hf : ∀ a, R a → (f a).Sat W Q A) : (o >>= f).Sat W Q A := by
  refine sat_bind.mpr ⟨ho.1, ?_⟩
  have h := ho.2
  split at h
  · exact hf _ h
  · exact h

/-- A write, and then the rest. -/
theorem sat_persist_bind {f : Unit → Outcome ω ε β} {Q : β → Prop} (hw : W w)
    (hf : ∀ u, (f u).Sat W Q A) : (persist w >>= f).Sat W Q A :=
  Sat.bind (R := fun _ => True) (sat_persist.mpr ⟨hw, trivial⟩) fun u _ => hf u

/-- An assertion, and then the rest. -/
theorem sat_check_bind {p : Prop} [Decidable p] {f : Unit → Outcome ω ε β} {Q : β → Prop}
    (he : ¬ p → A e) (hf : p → (f ()).Sat W Q A) : (check p e >>= f).Sat W Q A :=
  Sat.bind (R := fun _ => p) (sat_check.mpr ⟨id, he⟩) fun _ hp => hf hp

theorem Sat.ite {p : Prop} [Decidable p] {o' : Outcome ω ε α} (h : p → o.Sat W Q A)
    (h' : ¬ p → o'.Sat W Q A) : (if p then o else o').Sat W Q A := by
  split
  · next hp => exact h hp
  · next hp => exact h' hp

/-- **Consequence.** -/
theorem Sat.mono (h : o.Sat W Q A) (hW : ∀ w, W w → W' w) (hQ : ∀ a, Q a → Q' a)
    (hA : ∀ e, A e → A' e) : o.Sat W' Q' A' := by
  refine ⟨fun w hw => hW w (h.1 w hw), ?_⟩
  have h2 := h.2
  split at h2
  · exact hQ _ h2
  · exact hA _ h2

theorem Sat.imp (h : o.Sat W Q A) (hQ : ∀ a, Q a → Q' a) : o.Sat W Q' A :=
  h.mono (fun _ => id) hQ (fun _ => id)

/-- Two postconditions of one computation hold together. -/
theorem Sat.and (h : o.Sat W Q A) (h' : o.Sat W' Q' A') :
    o.Sat (fun w => W w ∧ W' w) (fun a => Q a ∧ Q' a) (fun e => A e ∧ A' e) := by
  refine ⟨fun w hw => ⟨h.1 w hw, h'.1 w hw⟩, ?_⟩
  have h2 := h.2
  have h2' := h'.2
  cases hr : o.result with
  | ok a => rw [hr] at h2 h2'; exact ⟨h2, h2'⟩
  | error e => rw [hr] at h2 h2'; exact ⟨h2, h2'⟩

/-- What a value that was really returned satisfies. -/
theorem Sat.of_result (h : o.Sat W Q A) (hr : o.result = .ok a) : Q a := by
  have h2 := h.2
  rwa [hr] at h2

theorem Sat.of_error (h : o.Sat W Q A) (hr : o.result = .error e) : A e := by
  have h2 := h.2
  rwa [hr] at h2

/-- A computation that cannot fail an assertion returns a value. -/
theorem Sat.exists_result (h : o.Sat W Q fun _ => False) : ∃ a, o.result = .ok a ∧ Q a := by
  cases hr : o.result with
  | ok a => exact ⟨a, rfl, h.of_result hr⟩
  | error e => exact (h.of_error hr).elim

/-- A computation that neither writes nor fails and can only return `a`. -/
theorem Sat.eq_pure (h : o.Sat (fun _ => False) (fun b => b = a) fun _ => False) : o = pure a := by
  obtain ⟨b, hb, rfl⟩ := h.exists_result
  obtain ⟨ws, r⟩ := o
  obtain rfl : r = .ok b := hb
  obtain rfl : ws = [] := List.eq_nil_iff_forall_not_mem.mpr h.1
  rfl

/-! ## Runs without a failure -/

/-- The computation writes `ws`, one after the other, and returns `a`. -/
def Yields (o : Outcome ω ε α) (ws : List ω) (a : α) : Prop := o = ⟨ws, .ok a⟩

theorem yields_pure (a : α) : (pure a : Outcome ω ε α).Yields [] a := rfl

theorem yields_persist (w : ω) : (persist w : Outcome ω ε Unit).Yields [w] () := rfl

theorem yields_check {p : Prop} [Decidable p] (h : p) :
    (check p e : Outcome ω ε Unit).Yields [] () := by
  rw [check, if_pos h]
  exact yields_pure ()

theorem yields_ofOption {x : Option α} (h : x = some a) :
    (ofOption e x : Outcome ω ε α).Yields [] a := by
  rw [h]
  exact yields_pure a

theorem Yields.bind (h : o.Yields ws a) (hf : (f a).Yields vs b) :
    (o >>= f).Yields (ws ++ vs) b := by
  obtain rfl : o = _ := h
  show Outcome.mk (ws ++ (f a).writes) (f a).result = _
  rw [show f a = _ from hf]

/-- Sequencing after a computation that writes once. -/
theorem Yields.bind_cons (h : o.Yields [w] a) (hf : (f a).Yields vs b) :
    (o >>= f).Yields (w :: vs) b :=
  h.bind hf

/-- Sequencing after a computation that writes nothing. -/
theorem Yields.bind_nil (h : o.Yields [] a) (hf : (f a).Yields vs b) : (o >>= f).Yields vs b :=
  h.bind hf

/-- Sequencing, where only the value matters. -/
theorem Yields.exists_bind {Q : β → Prop} (h : o.Yields ws a)
    (hf : ∃ vs b, (f a).Yields vs b ∧ Q b) : ∃ vs b, (o >>= f).Yields vs b ∧ Q b := by
  obtain ⟨vs, b, hrun, hb⟩ := hf
  exact ⟨ws ++ vs, b, h.bind hrun, hb⟩

/-- The same run, with its writes and its value put in other words. -/
theorem Yields.congr {b : α} (h : o.Yields ws a) (hws : ws = vs) (hab : a = b) :
    o.Yields vs b := hws ▸ hab ▸ h

/-- A computation has one trail and one value. -/
theorem Yields.unique {b : α} (h : o.Yields ws a) (h' : o.Yields vs b) : ws = vs ∧ a = b := by
  obtain rfl : o = ⟨ws, .ok a⟩ := h
  injection h' with h1 h2
  injection h2 with h3
  exact ⟨h1, h3⟩

theorem Yields.result (h : o.Yields ws a) : o.result = .ok a := by
  rw [h]

theorem Yields.writes (h : o.Yields ws a) : o.writes = ws := by
  rw [h]

theorem Yields.sat (h : o.Yields ws a) (hw : ∀ w ∈ ws, W w) (ha : Q a) : o.Sat W Q A := by
  obtain rfl : o = ⟨ws, .ok a⟩ := h
  exact ⟨hw, ha⟩

theorem Yields.bind_result (h : o.Yields ws a) : (o >>= f).result = (f a).result := by
  obtain rfl : o = ⟨ws, .ok a⟩ := h
  rfl

/-- What fails first fails the whole. -/
theorem bind_result_of_error (h : o.result = .error e) : (o >>= f).result = .error e := by
  change (o.bind f).result = _
  rw [Outcome.bind, h]

/-- What returns has returned from its first part. -/
theorem exists_of_bind_result (h : (o >>= f).result = .ok b) :
    ∃ a, o.result = .ok a ∧ (f a).result = .ok b := by
  cases hr : o.result with
  | error e =>
    rw [bind_result_of_error hr] at h
    cases h
  | ok a =>
    change (o.bind f).result = _ at h
    rw [Outcome.bind, hr] at h
    exact ⟨a, rfl, h⟩

/-! ## Reading -/

/-- Nothing is written. -/
def Reads (o : Outcome ω ε α) : Prop := o.writes = []

theorem reads_pure (a : α) : (pure a : Outcome ω ε α).Reads := rfl

theorem reads_check (p : Prop) [Decidable p] (e : ε) : (check p e : Outcome ω ε Unit).Reads := by
  rw [Reads, check]
  split <;> rfl

theorem reads_ofOption (e : ε) (x : Option α) : (ofOption e x : Outcome ω ε α).Reads := by
  cases x <;> rfl

/-- What only reads satisfies every condition on writes. -/
theorem Reads.sat (h : o.Reads) : o.Sat W (fun _ => True) fun _ => True := by
  refine ⟨fun w hw => ?_, ?_⟩
  · rw [h] at hw
    cases hw
  · split <;> trivial

/-- What only reads returns its value, or has none. -/
theorem Reads.sat_value (h : o.Reads) :
    o.Sat W (fun a => o.value? = some a) fun _ => o.value? = none := by
  refine ⟨fun w hw => ?_, ?_⟩
  · rw [h] at hw
    cases hw
  · rw [value?]
    split <;> rfl

/-- What only reads and succeeds is a value. -/
theorem Reads.eq_pure (h : o.Reads) (hr : o.result = .ok a) : o = pure a := by
  obtain ⟨ws, r⟩ := o
  obtain rfl : ws = [] := h
  obtain rfl : r = .ok a := hr
  rfl

theorem Reads.bind (h : o.Reads) (hf : ∀ a, (f a).Reads) : (o >>= f).Reads := by
  have hsat : (o >>= f).Sat (fun _ => False) (fun _ => True) fun _ => True :=
    h.sat.bind fun a _ => (hf a).sat
  exact List.eq_nil_iff_forall_not_mem.mpr hsat.1

theorem Reads.ite {p : Prop} [Decidable p] {o' : Outcome ω ε α} (h : o.Reads) (h' : o'.Reads) :
    (if p then o else o').Reads := by
  split
  · exact h
  · exact h'

end Outcome

end Gringofts
