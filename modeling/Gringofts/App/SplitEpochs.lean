import Gringofts.App.SplitPlan

/-!
# Epochs of splits

A split carries an epoch and a plan id. `process` compares them with those of the control state: a
lower epoch is refused, the same epoch with the same plan is a retry, and only a higher epoch makes
an event. So a retry is harmless as long as the event of the first attempt has recorded its epoch.

The event records it only on a cluster that the plan names. On any other cluster the state after
the event is the state before it without its routes, and the same request makes an event again and
again, as does any other request above the old epoch.

## Main definitions

* `SplitStep`, `Splits` — accepted splits, processed and applied one after the other

## Main results

* `SplitRequest.process_of_le` — what the epoch of the state rules out
* `Splits.epoch_le` — the epoch never decreases
* `split_retry_harmless_iff`, `unnamed_split_is_repeated`
-/

namespace Gringofts

open Scenario

namespace SplitRequest

variable {r : SplitRequest} {s s' : CtrlState} {groupId commandId : ℕ}

/-! ## Processing -/

/-- **An epoch that is recorded rules out** every request that is not above it. -/
theorem process_of_le (hsplit : s.hasSplitState) (h : r.epoch ≤ s.epoch) :
    (r.process s).2 = false := by
  rcases h.lt_or_eq with hlt | heq
  · rw [process, if_pos ⟨hsplit, hlt⟩]
  · rw [process, if_neg fun hcon => hcon.2.ne heq, if_pos ⟨hsplit, heq⟩]
    split <;> rfl

/-- The request of the recorded epoch and plan is a retry. -/
theorem process_retry (hsplit : s.hasSplitState) (hepoch : s.epoch = r.epoch)
    (hplan : s.planId = r.planId) : r.process s = (⟨201, "deduped"⟩, false) := by
  rw [process, if_neg fun hcon => hcon.2.ne hepoch.symm, if_pos ⟨hsplit, hepoch.symm⟩,
    if_pos hplan.symm]

/-- An event is made for a first split, and for one above the recorded epoch. -/
theorem epoch_lt_of_process (h : (r.process s).2 = true) : s.epoch = 0 ∨ s.epoch < r.epoch := by
  by_contra hcon
  rw [not_or] at hcon
  have hsplit : s.hasSplitState := Nat.pos_of_ne_zero hcon.1
  rw [process_of_le hsplit (Nat.le_of_not_lt hcon.2)] at h
  cases h

/-- `process` reads the epoch and the plan of the state only. -/
theorem process_clearRoutes : r.process s.clearRoutes = r.process s := rfl

theorem epoch_pos_of_verifyCommand (h : r.verifyCommand = ReconfigureRequest.verifiedSuccess) :
    0 < r.epoch := by
  refine Nat.pos_of_ne_zero fun hzero => ?_
  rw [verifyCommand, if_pos hzero] at h
  split at h
  · exact absurd h (by decide)
  · exact absurd h (by decide)

/-- Applying the event of a request does not lower the epoch. -/
theorem epoch_le_apply (hemits : (r.process s).2 = true)
    (h : r.apply groupId commandId s = some s') : s.epoch ≤ s'.epoch := by
  by_cases hnamed : r.Names groupId
  · rw [(apply_of_named h hnamed).2.1]
    rcases epoch_lt_of_process hemits with hzero | hlt
    · exact hzero ▸ Nat.zero_le _
    · exact hlt.le
  · rw [apply_of_unnamed h fun i hi hid => hnamed ⟨i, hi, hid⟩]
    exact le_rfl

end SplitRequest

/-! ## Commands -/

section

variable {app : AppInfo} {memory : EventMetaData} {time : ℕ} {c : CtrlCommand} {r : SplitRequest}
  {s s' : CtrlState} {hint : ProcessHint} {events : List CtrlEvent}

theorem CtrlCommand.process_split (hr : c.request = .split r) :
    c.process app memory time s = ((r.process s).1,
      if (r.process s).2 then [⟨memory.fresh 101 time, .split r⟩] else []) := by
  rw [process, hr]
  rfl

/-- **What processing a split does**: it makes no event and leaves the state, or it makes one and
applies it. -/
theorem AppInfo.processCommandAndApply_split (hr : c.request = .split r)
    (h : app.processCommandAndApply memory time c s = some (hint, events, s')) :
    ((r.process s).2 = false ∧ events = [] ∧ s' = s) ∨
      ((r.process s).2 = true ∧ events ≠ [] ∧
        r.apply app.groupId memory.commandId s = some s') := by
  rw [processCommandAndApply, CtrlCommand.process_split hr] at h
  obtain ⟨t, ht, h⟩ := Option.bind_eq_some_iff.mp h
  cases h
  cases hemits : (r.process s).2 with
  | false =>
    rw [hemits] at ht
    cases ht
    exact Or.inl ⟨rfl, rfl, rfl⟩
  | true =>
    rw [hemits] at ht
    obtain ⟨u, hu, ht⟩ := Option.bind_eq_some_iff.mp ht
    cases ht
    exact Or.inr ⟨rfl, by simp, hu⟩

/-- A split command that is accepted is processed, and its events are applied. -/
inductive SplitStep (app : AppInfo) : CtrlState → CtrlState → Prop
  | split {memory : EventMetaData} {time : ℕ} {c : CtrlCommand} {r : SplitRequest}
      {s s' : CtrlState} {hint : ProcessHint} {events : List CtrlEvent}
      (hr : c.request = .split r)
      (haccepted : c.verifyCommand app = ReconfigureRequest.verifiedSuccess)
      (h : app.processCommandAndApply memory time c s = some (hint, events, s')) :
      SplitStep app s s'

/-- A sequence of split commands. -/
def Splits (app : AppInfo) : CtrlState → CtrlState → Prop := Relation.ReflTransGen (SplitStep app)

theorem SplitStep.epoch_le (h : SplitStep app s s') : s.epoch ≤ s'.epoch := by
  obtain ⟨hr, -, h⟩ := h
  rcases AppInfo.processCommandAndApply_split hr h with ⟨-, -, rfl⟩ | ⟨hemits, -, happly⟩
  · exact le_rfl
  · exact SplitRequest.epoch_le_apply hemits happly

/-- **The epoch never decreases.** -/
theorem Splits.epoch_le (h : Splits app s s') : s.epoch ≤ s'.epoch := by
  induction h with
  | refl => exact le_rfl
  | tail _ hstep ih => exact ih.trans hstep.epoch_le

end

open SplitRequest in
/-- **Retrying a split is harmless, and epochs only move forward, exactly on the clusters that the
plan names.** After a split has made its event and the event has been applied, the same request is
answered with `201` and makes no event, no later request with a smaller epoch or with the same epoch
and another plan makes an event, and the epoch never decreases: all this holds if the plan names
the cluster, and otherwise it fails. -/
theorem split_retry_harmless_iff {app : AppInfo} {memory : EventMetaData} {time : ℕ}
    {c : CtrlCommand} {r : SplitRequest} {s s' : CtrlState} {hint : ProcessHint}
    {events : List CtrlEvent} (hr : c.request = .split r)
    (haccepted : c.verifyCommand app = ReconfigureRequest.verifiedSuccess)
    (h : app.processCommandAndApply memory time c s = some (hint, events, s'))
    (hemits : events ≠ []) :
    ((∀ memory time, c.process app memory time s' = (⟨201, "deduped"⟩, [])) ∧
      (∀ t, Splits app s' t → ∀ (c' : CtrlCommand) (r' : SplitRequest), c'.request = .split r' →
        (r'.epoch < r.epoch ∨ r'.epoch = r.epoch ∧ r'.planId ≠ r.planId) →
        ∀ memory time, (c'.process app memory time t).2 = []) ∧
      (∀ t, Splits app s t → s.epoch ≤ t.epoch)) ↔
    r.Names app.groupId := by
  obtain ⟨-, hnone, -⟩ | ⟨hprocess, -, happly⟩ := AppInfo.processCommandAndApply_split hr h
  · exact absurd hnone hemits
  constructor
  · rintro ⟨hretry, -, -⟩
    by_contra hunnamed
    -- the state has lost its routes, and `process` does not look at them
    have hcleared := apply_of_unnamed happly fun i hi hid => hunnamed ⟨i, hi, hid⟩
    have hagain := hretry memory time
    rw [CtrlCommand.process_split hr, hcleared, process_clearRoutes, hprocess] at hagain
    cases (Prod.mk.inj hagain).2
  · intro hnamed
    obtain ⟨-, hepoch, hplan⟩ := apply_of_named happly hnamed
    have hpos : 0 < r.epoch := by
      rw [CtrlCommand.verifyCommand, hr] at haccepted
      exact epoch_pos_of_verifyCommand haccepted
    have hsplit : s'.hasSplitState := by
      rw [CtrlState.hasSplitState, hepoch]
      exact hpos
    refine ⟨fun memory time => ?_, fun t ht c' r' hr' hlow memory time => ?_,
      fun t ht => ht.epoch_le⟩
    · rw [CtrlCommand.process_split hr, process_retry hsplit hepoch hplan]
      rfl
    · have hle : r.epoch ≤ t.epoch := hepoch ▸ ht.epoch_le
      have hlow' : r'.epoch ≤ r.epoch := hlow.elim le_of_lt fun heq => heq.1.le
      rw [CtrlCommand.process_split hr', process_of_le (hpos.trans_le hle) (hlow'.trans hle)]
      rfl

/-- **A split that does not name the cluster is repeated.** The plan gives the groups `1` and `2`
to the cluster `1`. On the cluster `0` it makes an event, which is applied, and the same request
then makes the event again. -/
theorem unnamed_split_is_repeated :
    (command (.split twoImpacts)).verifyCommand appOfThree =
        ReconfigureRequest.verifiedSuccess ∧
      ¬ twoImpacts.Names 0 ∧
      ∃ s', appOfThree.processCommandAndApply zeroed 5
          (command (.split twoImpacts)) servesThree =
          some (⟨200, "ok"⟩, [⟨zeroed.fresh 101 5, .split twoImpacts⟩], s') ∧
        (command (.split twoImpacts)).process appOfThree
          zeroed 6 s' =
          (⟨200, "ok"⟩, [⟨zeroed.fresh 101 6, .split twoImpacts⟩]) :=
  ⟨by decide +kernel, by decide +kernel, _, rfl, rfl⟩

/-- A plan that gives the cluster `0` the groups `1` and `2` of type `7`. -/
def Scenario.onZero : SplitRequest := ⟨5, "plan", [⟨⟨7, [1, 2], 2⟩, 0, false⟩]⟩

theorem split_retry_harmless_iff_onZero :
    ∃ s', (∀ memory time, (command (.split onZero)).process
          appOfThree memory time s' = (⟨201, "deduped"⟩, [])) ∧
      (∀ t, Splits appOfThree s' t → ∀ (c' : CtrlCommand) (r' : SplitRequest),
        c'.request = .split r' →
        (r'.epoch < onZero.epoch ∨
          r'.epoch = onZero.epoch ∧ r'.planId ≠ onZero.planId) →
        ∀ memory time, (c'.process appOfThree memory time t).2 = []) ∧
      ∀ t, Splits appOfThree servesThree t →
        servesThree.epoch ≤ t.epoch := by
  have hstep : ∃ s', appOfThree.processCommandAndApply zeroed 5
      (command (.split onZero)) servesThree =
      some (⟨200, "ok"⟩, [⟨zeroed.fresh 101 5, .split onZero⟩], s') :=
    ⟨_, rfl⟩
  obtain ⟨s', hs'⟩ := hstep
  have hnames : onZero.Names appOfThree.groupId := by decide +kernel
  exact ⟨s', (split_retry_harmless_iff rfl (by decide +kernel) hs' (by simp)).mpr hnames⟩

end Gringofts
