import Gringofts.App.SplitCheck

/-!
# Which groups a split leaves to a cluster

A split plan is a list of impacts, and an impact gives groups of one type to one cluster. Applying
the plan on a cluster clears the routes and goes through the list: an impact on the cluster sets the
route of its type, or removes it if it lists no groups.

So two things can go wrong with a plan that `verifyCommand` accepts. A later impact of the same type
takes the place of an earlier one, where their groups should be put together. And a cluster that the
plan does not name loses its routes, since they are cleared before the list is looked at.

## Main definitions

* `SplitRequest.impactsOn` — the impacts on a cluster
* `SplitRequest.KeepsRoutes` — no impact on a cluster takes the place of another

## Main results

* `SplitRequest.hasGroup_apply` — the groups after a split are those of the last impacts
* `SplitRequest.disjoint_of_verifyCommand` — no group occurs twice in a plan that is accepted
* `split_assigns_groups`, `unnamed_cluster_loses_routes`
-/

namespace Gringofts

open Scenario

variable {i : Impact} {s' : CtrlState} {is : List Impact}

namespace RouteMap

variable {m : RouteMap} {p : RouteProto} {type group : ℕ}

@[simp] theorem not_hasGroup_empty : ¬ RouteMap.hasGroup Table.empty type group := id

theorem isEmpty_toRoute_groups : p.toRoute.groups.isEmpty = true ↔ p.groups = [] := by
  have hmem : ∀ g, g ∈ p.toRoute.groups.elems ↔ g ∈ p.groups := fun g => mem_idsOf
  rw [IdSet.isEmpty, List.isEmpty_iff, List.eq_nil_iff_forall_not_mem,
    List.eq_nil_iff_forall_not_mem]
  simp only [hmem]

/-- A route of the type takes the place of the old one. -/
theorem hasGroup_applyRoute_self :
    (m.applyRoute p.type p.toRoute).hasGroup p.type group ↔ group ∈ p.groups := by
  by_cases hempty : p.toRoute.groups.isEmpty = true
  · rw [applyRoute, if_pos hempty, hasGroup, Table.find?_erase_self,
      isEmpty_toRoute_groups.mp hempty]
    simp
  · rw [applyRoute, if_neg hempty, hasGroup, Table.find?_insert, if_pos rfl]
    exact mem_idsOf

/-- Routes of other types stay. -/
theorem hasGroup_applyRoute_of_ne (h : type ≠ p.type) :
    (m.applyRoute p.type p.toRoute).hasGroup type group ↔ m.hasGroup type group := by
  have hfind : (m.applyRoute p.type p.toRoute).find? type = m.find? type := by
    rw [applyRoute]
    split
    · exact Table.find?_erase_of_ne m h
    · rw [Table.find?_insert, if_neg (Ne.symm h)]
  rw [hasGroup, hasGroup, hfind]

/-- Routes that are applied one after the other. -/
def applyRoutes (m : RouteMap) (impacts : List Impact) : RouteMap :=
  impacts.foldl (fun m i => m.applyRoute i.route.type i.route.toRoute) m

/-- **The last route of a type is the one that counts.** -/
theorem hasGroup_applyRoutes (impacts : List Impact) :
    (applyRoutes Table.empty impacts).hasGroup type group ↔
      ∃ i ∈ (impacts.filter fun i => i.route.type = type).getLast?, group ∈ i.route.groups := by
  induction impacts using List.reverseRecOn with
  | nil => simp [applyRoutes]
  | append_singleton impacts i ih =>
    rw [applyRoutes, List.foldl_append, List.foldl_cons, List.foldl_nil, List.filter_append]
    change (applyRoute (applyRoutes _ _) _ _).hasGroup type group ↔ _
    by_cases htype : i.route.type = type
    · subst htype
      rw [hasGroup_applyRoute_self]
      simp
    · rw [hasGroup_applyRoute_of_ne (Ne.symm htype), ih]
      simp [htype]

end RouteMap

namespace SplitRequest

variable {r : SplitRequest} {groupId commandId : ℕ} {s : CtrlState}

/-! ## What applying a split does -/

/-- The impacts on a cluster. -/
def impactsOn (r : SplitRequest) (groupId : ℕ) : List Impact :=
  r.impacts.filter fun i => i.clusterId = groupId

theorem applyImpact_eq (h : applyImpact commandId i s = some s') :
    s'.routeMap = s.routeMap.applyRoute i.route.type i.route.toRoute ∧
      s'.clusterConfiguration = s.clusterConfiguration := by
  rw [applyImpact] at h
  split at h
  · split at h
    · cases h
    · cases h
      exact ⟨rfl, rfl⟩
  · cases h
    exact ⟨rfl, rfl⟩

/-- The loop applies the routes of the impacts on the cluster. Without one it does nothing. -/
theorem applyImpacts_eq {b b' : Bool} (h : applyImpacts groupId commandId is s b = some (s', b')) :
    s'.routeMap = s.routeMap.applyRoutes (is.filter fun i => i.clusterId = groupId) ∧
      (b' = true ↔ b = true ∨ ∃ i ∈ is, i.clusterId = groupId) ∧
      ((∀ i ∈ is, i.clusterId ≠ groupId) → s' = s) := by
  induction is generalizing s b with
  | nil =>
    cases h
    exact ⟨rfl, by simp, fun _ => rfl⟩
  | cons i is ih =>
    rw [applyImpacts] at h
    split at h
    · next hid =>
      obtain ⟨t, ht, h⟩ := Option.bind_eq_some_iff.mp h
      obtain ⟨hroutes, hb, -⟩ := ih h
      refine ⟨?_, ?_, fun hnone => absurd hid (hnone i List.mem_cons_self)⟩
      · rw [hroutes, (applyImpact_eq ht).1, List.filter_cons_of_pos (by simpa using hid)]
        rfl
      · rw [hb]
        simp [hid]
    · next hid =>
      obtain ⟨hroutes, hb, hsame⟩ := ih h
      refine ⟨?_, ?_, fun hnone => hsame fun j hj => hnone j (List.mem_cons_of_mem i hj)⟩
      · rw [hroutes, List.filter_cons_of_neg (by simpa using hid)]
      · rw [hb, List.exists_mem_cons_iff]
        simp [hid]

/-- **A cluster that is named** has the routes of the impacts on it, and the epoch and the plan of
the request. -/
theorem apply_of_named (h : r.apply groupId commandId s = some s')
    (hnamed : ∃ i ∈ r.impacts, i.clusterId = groupId) :
    s'.routeMap = RouteMap.applyRoutes Table.empty (r.impactsOn groupId) ∧ s'.epoch = r.epoch ∧
      s'.planId = r.planId := by
  rw [apply] at h
  obtain ⟨⟨t, b⟩, ht, h⟩ := Option.bind_eq_some_iff.mp h
  obtain ⟨hroutes, hb, -⟩ := applyImpacts_eq ht
  rw [hb.mpr (Or.inr hnamed)] at h
  cases h
  exact ⟨hroutes, rfl, rfl⟩

/-- **A cluster that is not named** loses its routes. -/
theorem apply_of_unnamed (h : r.apply groupId commandId s = some s')
    (hnone : ∀ i ∈ r.impacts, i.clusterId ≠ groupId) : s' = s.clearRoutes := by
  rw [apply] at h
  obtain ⟨⟨t, b⟩, ht, h⟩ := Option.bind_eq_some_iff.mp h
  obtain ⟨-, hb, hsame⟩ := applyImpacts_eq ht
  have hb' : b = false := by
    refine Bool.eq_false_iff.mpr fun htrue => ?_
    obtain ⟨i, hi, hid⟩ := (hb.mp htrue).resolve_left Bool.false_ne_true
    exact hnone i hi hid
  rw [hb'] at h
  cases h
  exact hsame hnone

/-- The groups of a cluster that is named are those of the last impact on it, type by type. -/
theorem hasGroup_apply (h : r.apply groupId commandId s = some s')
    (hnamed : ∃ i ∈ r.impacts, i.clusterId = groupId) (type group : ℕ) :
    s'.hasGroup type group ↔
      ∃ i ∈ ((r.impactsOn groupId).filter fun i => i.route.type = type).getLast?,
        group ∈ i.route.groups := by
  rw [CtrlState.hasGroup, (apply_of_named h hnamed).1]
  exact RouteMap.hasGroup_applyRoutes _

/-! ## What an accepted split is -/

/-- **A plan that is accepted** lists no group twice under one type. -/
theorem disjoint_of_verifyCommand (h : r.verifyCommand = ReconfigureRequest.verifiedSuccess) :
    r.impacts.Pairwise fun i j => i.route.type = j.route.type →
      ∀ g ∈ i.route.groups, g ∉ j.route.groups := by
  rw [verifyCommand] at h
  split at h
  · exact absurd h (by decide)
  split at h
  · exact absurd h (by decide)
  split at h
  · next message hverify => exact absurd h (verifyImpacts_ne_verifiedSuccess hverify)
  · next hverify => exact pairwise_of_nodup_listed (verifyImpacts_eq_ok_iff.mp hverify).1.1

/-! ## When the plan is followed -/

/-- The plan names the cluster. -/
def Names (r : SplitRequest) (groupId : ℕ) : Prop := ∃ i ∈ r.impacts, i.clusterId = groupId

instance (groupId : ℕ) : Decidable (r.Names groupId) :=
  inferInstanceAs (Decidable (∃ i ∈ r.impacts, _))

/-- An impact on the cluster that lists groups is the last one of its type. -/
def KeepsRoutes (r : SplitRequest) (groupId : ℕ) : Prop :=
  (r.impactsOn groupId).Pairwise fun i j => i.route.type = j.route.type → i.route.groups = []

instance (groupId : ℕ) : Decidable (r.KeepsRoutes groupId) :=
  inferInstanceAs (Decidable (List.Pairwise _ _))

/-- Before an element of a list comes another, then it also comes before the last. -/
theorem sublist_last {f : List Impact} {j x : Impact} (hx : f.getLast? = some x)
    (h : [i, j].Sublist f) : [i, x].Sublist f := by
  obtain ⟨front, rfl⟩ := List.getLast?_eq_some_iff.mp hx
  obtain ⟨l₁, l₂, heq, h₁, h₂⟩ := List.sublist_append_iff.mp h
  cases l₁ with
  | nil =>
    have hlen := h₂.length_le
    rw [← List.nil_append l₂, ← heq] at hlen
    exact absurd hlen (by simp)
  | cons k l₁ =>
    obtain ⟨rfl, -⟩ := List.cons.inj heq
    have hmem : i ∈ front := h₁.subset List.mem_cons_self
    exact (List.singleton_sublist.mpr hmem).append (List.Sublist.refl [x])

/-- **The last impacts list all groups** of a list without repeated groups exactly when no impact
takes the place of another that lists groups. -/
theorem last_lists_all_iff (hdisjoint : is.Pairwise fun i j => i.route.type = j.route.type →
      ∀ g ∈ i.route.groups, g ∉ j.route.groups) :
    (∀ type group,
      (∃ i ∈ (is.filter fun i => i.route.type = type).getLast?, group ∈ i.route.groups) ↔
        ∃ i ∈ is, i.route.type = type ∧ group ∈ i.route.groups) ↔
      is.Pairwise fun i j => i.route.type = j.route.type → i.route.groups = [] := by
  rw [List.pairwise_iff_forall_sublist] at hdisjoint ⊢
  constructor
  · intro h i j hij htype
    refine List.eq_nil_iff_forall_not_mem.mpr fun g hg => ?_
    have hi : i ∈ is := hij.subset (by simp)
    obtain ⟨x, hx, hgx⟩ := (h i.route.type g).mpr ⟨i, hi, rfl, hg⟩
    -- the last impact of the type comes after this one, and lists the same group
    have hpair : [i, j].Sublist (is.filter fun k => k.route.type = i.route.type) := by
      simpa [htype] using hij.filter fun k => k.route.type = i.route.type
    have hlast := sublist_last hx hpair
    have hxtype : x.route.type = i.route.type := by
      simpa using (List.mem_filter.mp (List.mem_of_getLast? hx)).2
    exact hdisjoint (hlast.trans List.filter_sublist) hxtype.symm g hg hgx
  · intro h type group
    constructor
    · rintro ⟨x, hx, hgroup⟩
      obtain ⟨hmem, htype⟩ := List.mem_filter.mp (List.mem_of_getLast? hx)
      exact ⟨x, hmem, by simpa using htype, hgroup⟩
    · rintro ⟨i, hi, htype, hgroup⟩
      have hmem : i ∈ is.filter fun k => k.route.type = type :=
        List.mem_filter.mpr ⟨hi, by simpa using htype⟩
      obtain ⟨x, hx⟩ := Option.isSome_iff_exists.mp
        (List.getLast?_isSome.mpr (List.ne_nil_of_mem hmem))
      refine ⟨x, hx, ?_⟩
      have hxtype : x.route.type = type := by
        simpa using (List.mem_filter.mp (List.mem_of_getLast? hx)).2
      obtain ⟨front, hfront⟩ := List.getLast?_eq_some_iff.mp hx
      rw [hfront] at hmem
      rcases List.mem_append.mp hmem with hbefore | hlast
      · -- it comes before the last one, and lists nothing
        have hsub : [i, x].Sublist (is.filter fun k => k.route.type = type) := by
          rw [hfront]
          exact (List.singleton_sublist.mpr hbefore).append (List.Sublist.refl [x])
        rw [h (hsub.trans List.filter_sublist) (htype.trans hxtype.symm)] at hgroup
        exact absurd hgroup List.not_mem_nil
      · rwa [← List.mem_singleton.mp hlast]

end SplitRequest

open SplitRequest in
/-- **A split assigns the groups as written**, on any cluster in any state, exactly when the plan
does not call the cluster `0` a new one there, and either the plan names the cluster and no impact
on it takes the place of another that lists groups, or the plan does not name the cluster and the
cluster has no routes. -/
theorem split_assigns_groups {r : SplitRequest}
    (haccepted : r.verifyCommand = ReconfigureRequest.verifiedSuccess) (groupId commandId : ℕ)
    (s : CtrlState) :
    (∃ s', r.apply groupId commandId s = some s' ∧
      (r.Names groupId →
        (∀ type group, s'.hasGroup type group ↔ ∃ i ∈ r.impacts, i.clusterId = groupId ∧
          i.route.type = type ∧ group ∈ i.route.groups) ∧
        s'.epoch = r.epoch ∧ s'.planId = r.planId) ∧
      (¬ r.Names groupId → s'.routeMap = s.routeMap ∧ s'.epoch = s.epoch ∧ s'.planId = s.planId ∧
        s'.startIndex = s.startIndex)) ↔
    ¬ (groupId = 0 ∧ r.Founds 0) ∧ (r.Names groupId → r.KeepsRoutes groupId) ∧
      (¬ r.Names groupId → s.routeMap = Table.empty) := by
  have hwritten : ∀ type group, (∃ i ∈ r.impacts, i.clusterId = groupId ∧ i.route.type = type ∧
      group ∈ i.route.groups) ↔ ∃ i ∈ r.impactsOn groupId, i.route.type = type ∧
        group ∈ i.route.groups := by
    intro type group
    simp only [impactsOn, List.mem_filter, decide_eq_true_eq, and_assoc]
  have hdisjoint : (r.impactsOn groupId).Pairwise _ :=
    (disjoint_of_verifyCommand haccepted).filter _
  have hiff := last_lists_all_iff hdisjoint
  constructor
  · rintro ⟨s', hs', hnamed, hunnamed⟩
    refine ⟨?_, fun hn => ?_, fun hn => ?_⟩
    · intro hzero
      rw [apply_eq_none_iff.mpr hzero] at hs'
      cases hs'
    · refine hiff.mp fun type group => ?_
      rw [← hasGroup_apply hs' hn, (hnamed hn).1]
      exact hwritten type group
    · have hcleared := apply_of_unnamed hs' fun i hi hid => hn ⟨i, hi, hid⟩
      rw [← (hunnamed hn).1, hcleared]
      rfl
  · rintro ⟨hzero, hkeeps, hempty⟩
    obtain ⟨s', hs'⟩ : ∃ s', r.apply groupId commandId s = some s' :=
      Option.ne_none_iff_exists'.mp fun hnone => hzero (apply_eq_none_iff.mp hnone)
    refine ⟨s', hs', fun hn => ?_, fun hn => ?_⟩
    · obtain ⟨-, hepoch, hplan⟩ := apply_of_named hs' hn
      refine ⟨fun type group => ?_, hepoch, hplan⟩
      rw [hasGroup_apply hs' hn, hwritten]
      exact hiff.mpr (hkeeps hn) type group
    · rw [apply_of_unnamed hs' fun i hi hid => hn ⟨i, hi, hid⟩]
      exact ⟨(hempty hn).symm, rfl, rfl, rfl⟩

/-- A plan that moves the group `1` and leaves the group `2`, both of type `7`, to the cluster
`1`. -/
def Scenario.twoImpacts : SplitRequest :=
  ⟨5, "plan", [⟨⟨7, [1], 2⟩, 1, false⟩, ⟨⟨7, [2], 2⟩, 1, false⟩]⟩

/-- The state of a cluster that serves the group `3` of type `7`. -/
def Scenario.servesThree : CtrlState :=
  { initialState with routeMap := Table.empty.insert 7 ⟨idsOf [3], 4, 7⟩, epoch := 1 }

/-- **An accepted split does not assign the groups as written.** On the cluster `1`, which the plan
gives the groups `1` and `2`, only the group `2` arrives. The cluster `0`, which the plan does not
name, has had the group `3` and loses it. -/
theorem unnamed_cluster_loses_routes :
    twoImpacts.verifyCommand = ReconfigureRequest.verifiedSuccess ∧
      (∃ s, twoImpacts.apply 1 9 servesThree = some s ∧ ¬ s.hasGroup 7 1 ∧
        s.hasGroup 7 2) ∧
      ¬ twoImpacts.Names 0 ∧ servesThree.hasGroup 7 3 ∧
      ∃ s, twoImpacts.apply 0 9 servesThree = some s ∧ ¬ s.hasGroup 7 3 := by
  refine ⟨by decide +kernel, ⟨_, rfl, by decide +kernel, by decide +kernel⟩, by decide +kernel,
    by decide +kernel, _, rfl, by decide +kernel⟩

/-- A plan that gives the cluster `1` the groups `1` and `2` of type `7` in one impact. -/
def Scenario.oneImpact : SplitRequest := ⟨5, "plan", [⟨⟨7, [1, 2], 2⟩, 1, false⟩]⟩

theorem split_assigns_groups_oneImpact :
    oneImpact.verifyCommand = ReconfigureRequest.verifiedSuccess ∧
      oneImpact.KeepsRoutes 1 ∧
      ∃ s', oneImpact.apply 1 9 servesThree = some s' ∧
        (oneImpact.Names 1 →
          (∀ type group, s'.hasGroup type group ↔ ∃ i ∈ oneImpact.impacts,
            i.clusterId = 1 ∧ i.route.type = type ∧ group ∈ i.route.groups) ∧
          s'.epoch = oneImpact.epoch ∧ s'.planId = oneImpact.planId) ∧
        (¬ oneImpact.Names 1 → s'.routeMap = servesThree.routeMap ∧
          s'.epoch = servesThree.epoch ∧ s'.planId = servesThree.planId ∧
          s'.startIndex = servesThree.startIndex) := by
  have haccepted : oneImpact.verifyCommand = ReconfigureRequest.verifiedSuccess := by
    decide +kernel
  have hkeeps : oneImpact.KeepsRoutes 1 := by decide +kernel
  refine ⟨haccepted, hkeeps, (split_assigns_groups haccepted 1 9 servesThree).mpr
    ⟨by decide +kernel, fun _ => hkeeps, fun hn => absurd ?_ hn⟩⟩
  decide +kernel

end Gringofts
