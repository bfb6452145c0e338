import Gringofts.App.SplitPlan

/-!
# Splits in another order

That the check of a split does not depend on the order of the impacts is true of the groups. It is
not true of the totals: the loop takes a remembered `0` for a type that it has not met, so an impact
with the total `0` may be followed by one with another total, but not the other way round.

## Main definitions

* `SplitRequest.TotalsAgree` — what the totals ought to satisfy
* `SplitRequest.MixesZero` — where the order matters

## Main results

* `SplitRequest.accepted_iff` — what is accepted
* `split_order_irrelevant_iff`, `split_order_matters`
-/

namespace Gringofts

open Scenario ReconfigureRequest

namespace SplitRequest

variable {r : SplitRequest} {is js : List Impact}

/-- Impacts of one type have the same group total. -/
def TotalsAgree (is : List Impact) : Prop :=
  ∀ i ∈ is, ∀ j ∈ is, i.route.type = j.route.type → i.route.groupTotal = j.route.groupTotal

/-- The totals other than `0` agree, type by type. -/
def PositiveTotalsAgree (is : List Impact) : Prop :=
  ∀ i ∈ is, ∀ j ∈ is, i.route.type = j.route.type → 0 < i.route.groupTotal →
    0 < j.route.groupTotal → i.route.groupTotal = j.route.groupTotal

/-- Some type has an impact with the total `0` and one with another total. -/
def MixesZero (is : List Impact) : Prop :=
  ∃ i ∈ is, ∃ j ∈ is, i.route.type = j.route.type ∧ i.route.groupTotal = 0 ∧
    0 < j.route.groupTotal

instance : Decidable (TotalsAgree is) := inferInstanceAs (Decidable (∀ i ∈ is, _))
instance : Decidable (PositiveTotalsAgree is) := inferInstanceAs (Decidable (∀ i ∈ is, _))
instance : Decidable (MixesZero is) := inferInstanceAs (Decidable (∃ i ∈ is, _))

/-! ## What is accepted -/

/-- **What is accepted**: no group is listed twice under its type, and after a total other than
`0` the same total follows. -/
theorem accepted_iff (hplan : r.planId.isEmpty = false) (hepoch : 0 < r.epoch) :
    r.verifyCommand = verifiedSuccess ↔
      (listed r.impacts).Nodup ∧ TotalsFollow r.impacts := by
  have hloop : verifyImpacts r.impacts Table.empty Table.empty = .ok () ↔
      (listed r.impacts).Nodup ∧ TotalsFollow r.impacts := by
    rw [verifyImpacts_eq_ok_iff]
    refine and_congr (and_iff_left fun i _ g _ => ?_) (and_iff_left fun i _ => Or.inl rfl)
    exact List.not_mem_nil
  rw [← hloop, verifyCommand, hplan, if_neg Bool.false_ne_true, if_neg hepoch.ne']
  cases hverify : verifyImpacts r.impacts Table.empty Table.empty with
  | error message =>
    exact iff_of_false (verifyImpacts_ne_verifiedSuccess hverify)
      fun h => by cases h
  | ok _ => exact iff_of_true rfl rfl

/-! ## The order of the impacts -/

theorem nodup_listed_perm (h : is.Perm js) : (listed is).Nodup ↔ (listed js).Nodup :=
  (h.flatMap_right _).nodup_iff

theorem TotalsAgree.totalsFollow (h : TotalsAgree is) : TotalsFollow is :=
  List.pairwise_of_forall_mem_list fun i hi j hj htype => Or.inr (h i hi j hj htype)

/-- Totals that follow each other agree, except for those that are `0`. -/
theorem TotalsFollow.positive (h : TotalsFollow is) : PositiveTotalsAgree is := by
  have hpair : is.Pairwise fun i j => i.route.type = j.route.type → 0 < i.route.groupTotal →
      0 < j.route.groupTotal → i.route.groupTotal = j.route.groupTotal :=
    h.imp fun hij htype hpos _ => (hij htype).resolve_left hpos.ne'
  have hsymm : Std.Symm fun i j : Impact => i.route.type = j.route.type →
      0 < i.route.groupTotal → 0 < j.route.groupTotal →
      i.route.groupTotal = j.route.groupTotal :=
    ⟨fun i j hij htype hjpos hipos => (hij htype.symm hipos hjpos).symm⟩
  exact fun i hi j hj => hpair.forall_of_forall (fun _ _ _ _ _ => rfl) hi hj

/-- Without a type that has both, totals agree if those other than `0` do. -/
theorem PositiveTotalsAgree.agree (h : PositiveTotalsAgree is) (hmix : ¬ MixesZero is) :
    TotalsAgree is := by
  intro i hi j hj htype
  rcases Nat.eq_zero_or_pos i.route.groupTotal with hizero | hipos
  · rcases Nat.eq_zero_or_pos j.route.groupTotal with hjzero | hjpos
    · rw [hizero, hjzero]
    · exact absurd ⟨i, hi, j, hj, htype, hizero, hjpos⟩ hmix
  · rcases Nat.eq_zero_or_pos j.route.groupTotal with hjzero | hjpos
    · exact absurd ⟨j, hj, i, hi, htype.symm, hjzero, hipos⟩ hmix
    · exact h i hi j hj htype hipos hjpos

theorem TotalsAgree.not_mixesZero (h : TotalsAgree is) : ¬ MixesZero is := by
  rintro ⟨i, hi, j, hj, htype, hzero, hpos⟩
  rw [← h i hi j hj htype, hzero] at hpos
  exact hpos.false

/-- The impacts with the total `0` come first. -/
def zerosFirst (is : List Impact) : List Impact :=
  (is.filter fun i => i.route.groupTotal = 0) ++ is.filter fun i => ¬ i.route.groupTotal = 0

theorem zerosFirst_perm (is : List Impact) : (zerosFirst is).Perm is := by
  have hperm := List.filter_append_perm (fun i : Impact => i.route.groupTotal = 0) is
  simpa only [zerosFirst, decide_not] using hperm

/-- **In some order the totals follow each other**, if those other than `0` agree. -/
theorem PositiveTotalsAgree.follow_zerosFirst (h : PositiveTotalsAgree is) :
    TotalsFollow (zerosFirst is) := by
  refine List.pairwise_append.mpr ⟨?_, ?_, ?_⟩
  · refine List.pairwise_of_forall_mem_list fun i hi j _ _ => Or.inl ?_
    simpa using (List.mem_filter.mp hi).2
  · refine List.pairwise_of_forall_mem_list fun i hi j hj htype => Or.inr ?_
    obtain ⟨hi, hipos⟩ := List.mem_filter.mp hi
    obtain ⟨hj, hjpos⟩ := List.mem_filter.mp hj
    exact h i hi j hj htype (Nat.pos_of_ne_zero (by simpa using hipos))
      (Nat.pos_of_ne_zero (by simpa using hjpos))
  · intro i hi j _ _
    left
    simpa using (List.mem_filter.mp hi).2

end SplitRequest

open SplitRequest in
/-- **Split validation depends on what the plan says, and not on the order of its impacts**, exactly
for the plans that do not mix the total `0` with another one under one type, while everything else
about them is right: a plan is accepted if and only if its totals agree and no group is listed
twice, and it stays accepted or refused in any order. -/
theorem split_order_irrelevant_iff {r : SplitRequest} (hplan : r.planId.isEmpty = false)
    (hepoch : 0 < r.epoch) :
    ((r.verifyCommand = verifiedSuccess ↔
        TotalsAgree r.impacts ∧ (listed r.impacts).Nodup) ∧
      ∀ is, is.Perm r.impacts →
        ({ r with impacts := is }.verifyCommand = verifiedSuccess ↔
          r.verifyCommand = verifiedSuccess)) ↔
    ¬ ((listed r.impacts).Nodup ∧ PositiveTotalsAgree r.impacts ∧ MixesZero r.impacts) := by
  have haccepted := accepted_iff hplan hepoch
  have haccepted' : ∀ is, { r with impacts := is }.verifyCommand =
      verifiedSuccess ↔ (listed is).Nodup ∧ TotalsFollow is := fun is => by
    have hepoch' : 0 < { r with impacts := is }.epoch := hepoch
    exact accepted_iff hplan hepoch'
  constructor
  · rintro ⟨hspec, hperm⟩ ⟨hnodup, hpositive, hmix⟩
    -- with the zeros first the plan is accepted, so it is as it stands, and its totals agree
    have hzeros := (haccepted' (zerosFirst r.impacts)).mpr
      ⟨(nodup_listed_perm (zerosFirst_perm _)).mpr hnodup, hpositive.follow_zerosFirst⟩
    have hagree := (hspec.mp ((hperm _ (zerosFirst_perm _)).mp hzeros)).1
    exact hagree.not_mixesZero hmix
  · intro hcond
    -- what the loop accepts has agreeing totals, in this order and in any other
    have hspec : ∀ is, is.Perm r.impacts →
        ((listed is).Nodup ∧ TotalsFollow is ↔
          TotalsAgree r.impacts ∧ (listed r.impacts).Nodup) := by
      intro is hperm
      rw [nodup_listed_perm hperm]
      constructor
      · rintro ⟨hnodup, hfollow⟩
        have hpositive : PositiveTotalsAgree r.impacts := fun i hi j hj =>
          hfollow.positive i (hperm.mem_iff.mpr hi) j (hperm.mem_iff.mpr hj)
        exact ⟨hpositive.agree fun hmix => hcond ⟨hnodup, hpositive, hmix⟩, hnodup⟩
      · rintro ⟨hagree, hnodup⟩
        have hagree' : TotalsAgree is := fun i hi j hj =>
          hagree i (hperm.mem_iff.mp hi) j (hperm.mem_iff.mp hj)
        exact ⟨hnodup, hagree'.totalsFollow⟩
    refine ⟨haccepted.trans (hspec _ (List.Perm.refl _)), fun is hperm => ?_⟩
    rw [haccepted', haccepted, hspec is hperm, hspec _ (List.Perm.refl _)]

/-- A plan with two impacts of type `7`, whose totals are `0` and `2`. -/
def Scenario.zeroTotal : SplitRequest :=
  ⟨5, "plan", [⟨⟨7, [1], 0⟩, 0, false⟩, ⟨⟨7, [2], 2⟩, 1, false⟩]⟩

/-- **The order of the impacts matters.** The totals of the plan differ and it is accepted, and with
its impacts in the other order it is refused. -/
theorem split_order_matters :
    ¬ SplitRequest.TotalsAgree zeroTotal.impacts ∧
      zeroTotal.verifyCommand = verifiedSuccess ∧
      { zeroTotal with impacts := zeroTotal.impacts.reverse }.verifyCommand =
        "group total should be same with 2" := by
  refine ⟨by decide +kernel, by decide +kernel, by decide +kernel⟩

theorem split_order_irrelevant_iff_twoImpacts :
    (twoImpacts.verifyCommand = verifiedSuccess ↔
        SplitRequest.TotalsAgree twoImpacts.impacts ∧
          (SplitRequest.listed twoImpacts.impacts).Nodup) ∧
      ∀ is, is.Perm twoImpacts.impacts →
        ({ twoImpacts with impacts := is }.verifyCommand =
            verifiedSuccess ↔
          twoImpacts.verifyCommand = verifiedSuccess) := by
  refine (split_order_irrelevant_iff (by decide +kernel) (by decide +kernel)).mpr ?_
  rintro ⟨-, -, hmix⟩
  exact absurd hmix (by decide +kernel)

end Gringofts
