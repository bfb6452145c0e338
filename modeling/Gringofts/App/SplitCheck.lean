import Gringofts.App.ControlSafety

/-!
# What the check of a split looks at

`SplitCommand::verifyCommand` goes through the impacts once. For each type of route it remembers
the groups it has seen, and the group total of the last impact. A group that it has seen is refused,
and so is a total other than the remembered one, unless that is `0`.

## Main definitions

* `SplitRequest.listed` — the groups of a plan, with their types
* `SplitRequest.TotalsFollow` — what the loop checks of the totals

## Main results

* `SplitRequest.verifyImpacts_eq_ok_iff` — what the loop accepts
* `SplitRequest.verifyImpacts_ne_verifiedSuccess` — no message of the loop is the one of success
-/

namespace Gringofts

variable {type : ℕ} {seen : IdSet} {i : Impact} {totals : Table ℕ} {groups : Table IdSet}
  {message : String}

namespace SplitRequest

variable {is : List Impact}

/-- The groups that impacts list, each with its type. -/
def listed (is : List Impact) : List (ℕ × ℕ) :=
  is.flatMap fun i => i.route.groups.map fun g => (i.route.type, g)

/-- After a total other than `0` the same total follows, type by type. -/
def TotalsFollow (is : List Impact) : Prop :=
  is.Pairwise fun i j => i.route.type = j.route.type →
    i.route.groupTotal = 0 ∨ i.route.groupTotal = j.route.groupTotal

instance : Decidable (TotalsFollow is) := inferInstanceAs (Decidable (List.Pairwise _ _))

/-! ## The groups of one impact -/

/-- The groups that have been seen afterwards. -/
theorem mem_of_verifyGroups {groups : List ℕ} {seen' : IdSet}
    (h : verifyGroups type groups seen = .ok seen') (g : ℕ) :
    g ∈ seen' ↔ g ∈ groups ∨ g ∈ seen := by
  induction groups generalizing seen with
  | nil =>
    cases h
    simp
  | cons group groups ih =>
    rw [verifyGroups] at h
    split at h
    · cases h
    · rw [ih h, IdSet.mem_insert, List.mem_cons]
      tauto

theorem exists_verifyGroups_eq_ok_iff {groups : List ℕ} :
    (∃ seen', verifyGroups type groups seen = .ok seen') ↔
      groups.Nodup ∧ ∀ g ∈ groups, g ∉ seen := by
  induction groups generalizing seen with
  | nil => exact iff_of_true ⟨seen, rfl⟩ ⟨List.nodup_nil, by simp⟩
  | cons group groups ih =>
    rw [List.nodup_cons, List.forall_mem_cons]
    by_cases hseen : group ∈ seen
    · rw [verifyGroups, if_pos hseen]
      refine iff_of_false ?_ fun hcon => hcon.2.1 hseen
      rintro ⟨seen', h⟩
      cases h
    · rw [verifyGroups, if_neg hseen, ih]
      simp only [IdSet.mem_insert, not_or]
      constructor
      · rintro ⟨hnodup, hnew⟩
        exact ⟨⟨fun hmem => (hnew group hmem).1 rfl, hnodup⟩, hseen,
          fun g hg => (hnew g hg).2⟩
      · rintro ⟨⟨hnot, hnodup⟩, -, hnew⟩
        exact ⟨hnodup, fun g hg => ⟨fun heq => hnot (heq ▸ hg), hnew g hg⟩⟩

/-! ## The impacts -/

/-- One round of the outer loop. -/
theorem verifyImpacts_cons_eq_ok_iff :
    verifyImpacts (i :: is) totals groups = .ok () ↔
      ((totals.find? i.route.type).getD 0 = 0 ∨
        (totals.find? i.route.type).getD 0 = i.route.groupTotal) ∧
      ∃ seen, verifyGroups i.route.type i.route.groups
          ((groups.find? i.route.type).getD IdSet.empty) = .ok seen ∧
        verifyImpacts is (totals.insert i.route.type i.route.groupTotal)
          (groups.insert i.route.type seen) = .ok () := by
  by_cases htotal : 0 < (totals.find? i.route.type).getD 0 ∧
      (totals.find? i.route.type).getD 0 ≠ i.route.groupTotal
  · refine iff_of_false (fun h => ?_) fun h => ?_
    · simp only [verifyImpacts, if_pos htotal] at h
      cases h
    · rcases h.1 with hzero | heq
      · exact htotal.1.ne' hzero
      · exact htotal.2 heq
  · have hok : (totals.find? i.route.type).getD 0 = 0 ∨
        (totals.find? i.route.type).getD 0 = i.route.groupTotal := by
      omega
    simp only [verifyImpacts, if_neg htotal, hok, true_and]
    cases verifyGroups i.route.type i.route.groups
        ((groups.find? i.route.type).getD IdSet.empty) with
    | error message =>
      refine iff_of_false (fun h => by cases h) ?_
      rintro ⟨seen, hseen, -⟩
      cases hseen
    | ok seen =>
      constructor
      · intro h
        exact ⟨seen, rfl, h⟩
      · rintro ⟨_, hseen, h⟩
        cases hseen
        exact h

/-- The groups of an impact, and those of later impacts, are new. -/
theorem nodup_listed_cons : (listed (i :: is)).Nodup ↔
    i.route.groups.Nodup ∧ (listed is).Nodup ∧
      ∀ j ∈ is, j.route.type = i.route.type → ∀ g ∈ j.route.groups, g ∉ i.route.groups := by
  rw [listed, List.flatMap_cons, List.nodup_append',
    List.nodup_map_iff fun a b hab => (Prod.mk.inj hab).2]
  refine and_congr_right fun _ => and_congr_right fun _ => ?_
  simp only [List.disjoint_left, List.mem_map, List.mem_flatMap, not_exists, not_and]
  constructor
  · intro h j hj htype g hg hg'
    exact h ⟨g, hg', rfl⟩ j hj g hg (by rw [htype])
  · rintro h _ ⟨g, hg, rfl⟩ j hj g' hg' heq
    obtain ⟨htype, rfl⟩ := Prod.mk.inj heq
    exact h j hj htype g' hg' hg

/-- Once the loop remembers the groups of an impact, later ones have to be new to it too. -/
theorem forall_new_insert_iff (hmem : ∀ g, g ∈ seen ↔
      g ∈ i.route.groups ∨ g ∈ (groups.find? i.route.type).getD IdSet.empty) :
    (∀ j ∈ is, ∀ g ∈ j.route.groups,
        g ∉ ((groups.insert i.route.type seen).find? j.route.type).getD IdSet.empty) ↔
      (∀ j ∈ is, j.route.type = i.route.type → ∀ g ∈ j.route.groups, g ∉ i.route.groups) ∧
        ∀ j ∈ is, ∀ g ∈ j.route.groups,
          g ∉ (groups.find? j.route.type).getD IdSet.empty := by
  rw [← forall₂_and]
  refine forall₂_congr fun j _ => ?_
  rw [Table.find?_insert]
  by_cases htype : i.route.type = j.route.type
  · simp only [htype, if_pos, Option.getD_some, hmem, not_or, forall_const, ← forall₂_and]
  · simp [htype, Ne.symm htype]

/-- Once the loop remembers the total of an impact, later ones have to follow that one. -/
theorem forall_total_insert_iff (htotal : (totals.find? i.route.type).getD 0 = 0 ∨
      (totals.find? i.route.type).getD 0 = i.route.groupTotal) :
    (∀ j ∈ is,
        ((totals.insert i.route.type i.route.groupTotal).find? j.route.type).getD 0 = 0 ∨
          ((totals.insert i.route.type i.route.groupTotal).find? j.route.type).getD 0 =
            j.route.groupTotal) ↔
      (∀ j ∈ is, i.route.type = j.route.type →
          i.route.groupTotal = 0 ∨ i.route.groupTotal = j.route.groupTotal) ∧
        ∀ j ∈ is, (totals.find? j.route.type).getD 0 = 0 ∨
          (totals.find? j.route.type).getD 0 = j.route.groupTotal := by
  rw [← forall₂_and]
  refine forall₂_congr fun j _ => ?_
  rw [Table.find?_insert]
  by_cases htype : i.route.type = j.route.type
  · rw [htype] at htotal
    simp only [htype, if_pos, Option.getD_some, forall_const]
    omega
  · simp [htype]

/-- **What the loop accepts**, from any totals and groups that it remembers. -/
theorem verifyImpacts_eq_ok_iff :
    verifyImpacts is totals groups = .ok () ↔
      ((listed is).Nodup ∧
        ∀ i ∈ is, ∀ g ∈ i.route.groups, g ∉ (groups.find? i.route.type).getD IdSet.empty) ∧
      TotalsFollow is ∧
        ∀ i ∈ is, (totals.find? i.route.type).getD 0 = 0 ∨
          (totals.find? i.route.type).getD 0 = i.route.groupTotal := by
  induction is generalizing totals groups with
  | nil =>
    refine iff_of_true rfl ⟨⟨List.nodup_nil, ?_⟩, List.Pairwise.nil, ?_⟩
    · simp
    · simp
  | cons i is ih =>
    rw [verifyImpacts_cons_eq_ok_iff, nodup_listed_cons, TotalsFollow, List.pairwise_cons,
      List.forall_mem_cons, List.forall_mem_cons]
    constructor
    · rintro ⟨htotal, seen, hseen, h⟩
      obtain ⟨⟨hnodup, hgroups⟩, hfollow, htotals⟩ := ih.mp h
      obtain ⟨hthis, hnew⟩ := exists_verifyGroups_eq_ok_iff.mp ⟨seen, hseen⟩
      obtain ⟨hlater, hgroups⟩ := (forall_new_insert_iff (mem_of_verifyGroups hseen)).mp hgroups
      obtain ⟨hlast, htotals⟩ := (forall_total_insert_iff htotal).mp htotals
      exact ⟨⟨⟨hthis, hnodup, hlater⟩, hnew, hgroups⟩, ⟨hlast, hfollow⟩, htotal, htotals⟩
    · rintro ⟨⟨⟨hthis, hnodup, hlater⟩, hnew, hgroups⟩, ⟨hlast, hfollow⟩, htotal, htotals⟩
      obtain ⟨seen, hseen⟩ := exists_verifyGroups_eq_ok_iff.mpr ⟨hthis, hnew⟩
      have hgroups' := (forall_new_insert_iff (mem_of_verifyGroups hseen)).mpr ⟨hlater, hgroups⟩
      have htotals' := (forall_total_insert_iff htotal).mpr ⟨hlast, htotals⟩
      exact ⟨htotal, seen, hseen, ih.mpr ⟨⟨hnodup, hgroups'⟩, hfollow, htotals'⟩⟩

/-- Impacts of one type list different groups. -/
theorem pairwise_of_nodup_listed (h : (listed is).Nodup) :
    is.Pairwise fun i j => i.route.type = j.route.type →
      ∀ g ∈ i.route.groups, g ∉ j.route.groups := by
  induction is with
  | nil => exact List.Pairwise.nil
  | cons i is ih =>
    obtain ⟨-, hrest, hlater⟩ := nodup_listed_cons.mp h
    refine List.Pairwise.cons (fun j hj htype g hg hg' => ?_) (ih hrest)
    exact hlater j hj htype.symm g hg' hg

/-! ## The messages -/

theorem verifyGroups_ne_verifiedSuccess {groups : List ℕ}
    (h : verifyGroups type groups seen = .error message) :
    message ≠ ReconfigureRequest.verifiedSuccess := by
  induction groups generalizing seen with
  | nil => cases h
  | cons group groups ih =>
    rw [verifyGroups] at h
    split at h
    · cases h
      rw [String.append_assoc, String.append_assoc]
      exact ReconfigureRequest.append_ne_verifiedSuccess (by decide) (by decide)
    · exact ih h

theorem verifyImpacts_ne_verifiedSuccess {is : List Impact}
    (h : verifyImpacts is totals groups = .error message) :
    message ≠ ReconfigureRequest.verifiedSuccess := by
  induction is generalizing totals groups with
  | nil => cases h
  | cons i is ih =>
    simp only [verifyImpacts] at h
    split at h
    · cases h
      exact ReconfigureRequest.append_ne_verifiedSuccess (by decide) (by decide)
    · cases hgroups : verifyGroups i.route.type i.route.groups
        ((groups.find? i.route.type).getD IdSet.empty) with
      | error message' =>
        rw [hgroups] at h
        cases h
        exact verifyGroups_ne_verifiedSuccess hgroups
      | ok seen =>
        rw [hgroups] at h
        exact ih h

end SplitRequest

end Gringofts
