import PulseFit.Prior.Sampling
import PulseFit.Proofs.Prior.Steps
import PulseFit.Proofs.Scalar.Lawful

/-!
# Proofs.Prior.Sorting — sorting chains one after the other

Sorting a chain puts the values of its members in ascending order and leaves all other places alone
(`map_valueAt_sort`, `getElem?_sort_of_notMem`).  Two chains with the same members, or with none in
common, do not disturb each other; after sorting one chain after the other each of them holds the
values that it had, in ascending order (`perm_sortChains`, `ascends_sortChains`).
-/

namespace PulseFit

/-! ## Writing at places -/

section

variable {α : Type}

theorem length_foldl_set (changes : List (Nat × α)) (values : List α) :
    (changes.foldl (fun values (i, x) => values.set i x) values).length = values.length := by
  induction changes generalizing values with
  | nil => rfl
  | cons change changes ih =>
    rw [List.foldl_cons, ih, List.length_set]

theorem getElem?_foldl_set_of_notMem {changes : List (Nat × α)} {values : List α} {i : Nat}
    (h : i ∉ changes.map (·.1)) :
    (changes.foldl (fun values (i, x) => values.set i x) values)[i]? = values[i]? := by
  induction changes generalizing values with
  | nil => rfl
  | cons change changes ih =>
    rw [List.map_cons, List.mem_cons, not_or] at h
    rw [List.foldl_cons, ih h.2, List.getElem?_set_ne (Ne.symm h.1)]

theorem getElem?_foldl_set {changes : List (Nat × α)} {values : List α}
    (hnodup : (changes.map (·.1)).Nodup) {i : Nat} {x : α} (h : (i, x) ∈ changes)
    (hi : i < values.length) :
    (changes.foldl (fun values (i, x) => values.set i x) values)[i]? = some x := by
  induction changes generalizing values with
  | nil => cases h
  | cons change changes ih =>
    rw [List.map_cons, List.nodup_cons] at hnodup
    rw [List.foldl_cons]
    rcases List.mem_cons.mp h with rfl | h
    · rw [getElem?_foldl_set_of_notMem hnodup.1, List.getElem?_set_self hi]
    · exact ih hnodup.2 h (by rwa [List.length_set])

/-! ## Chains side by side -/

/-- Chains that do not disturb each other. -/
def Chain.Apart (c c' : Chain α) : Prop := c.members = c'.members ∨ c.members.Disjoint c'.members

/-- Chains over places of a list of a length, each place once in a chain, that do not disturb each
other. -/
structure Prior.Sortable (length : Nat) (chains : List (Chain α)) : Prop where
  nodup : ∀ c ∈ chains, c.members.Nodup
  bound : ∀ c ∈ chains, ∀ i ∈ c.members, i < length
  apart : ∀ c ∈ chains, ∀ c' ∈ chains, c.Apart c'

theorem Prior.Sortable.mono {length : Nat} {chains chains' : List (Chain α)}
    (h : Sortable length chains) (hsub : chains' ⊆ chains) : Sortable length chains' where
  nodup d hd := h.nodup d (hsub hd)
  bound d hd := h.bound d (hsub hd)
  apart d hd d' hd' := h.apart d (hsub hd) d' (hsub hd')

theorem Prior.Sortable.tail {length : Nat} {c : Chain α} {chains : List (Chain α)}
    (h : Sortable length (c :: chains)) : Sortable length chains :=
  h.mono (List.subset_cons_self c chains)

end

open Scalar (totalLe LawfulTotal)

variable {α : Type} [Scalar α]

namespace Chain

/-! ## One chain -/

variable {c c' : Chain α} {values : List α}

theorem length_sort (c : Chain α) (values : List α) : (c.sort values).length = values.length :=
  length_foldl_set ..

theorem length_mergeSort_members (c : Chain α) (values : List α) :
    ((c.members.map (valueAt values)).mergeSort totalLe).length = c.members.length := by
  rw [List.length_mergeSort, List.length_map]

theorem getElem?_sort_of_notMem {i : Nat} (hi : i ∉ c.members) :
    (c.sort values)[i]? = values[i]? := by
  refine getElem?_foldl_set_of_notMem ?_
  rwa [List.map_fst_zip (c.length_mergeSort_members values).ge]

theorem valueAt_sort_of_notMem {i : Nat} (hi : i ∉ c.members) :
    valueAt (c.sort values) i = valueAt values i := by
  unfold valueAt
  rw [List.getD_eq_getElem?_getD, List.getD_eq_getElem?_getD, getElem?_sort_of_notMem hi]

/-- The values of the members are those that they had, in ascending order. -/
theorem map_valueAt_sort (hnodup : c.members.Nodup) (hbound : ∀ i ∈ c.members, i < values.length) :
    c.members.map (valueAt (c.sort values)) =
      (c.members.map (valueAt values)).mergeSort totalLe := by
  have hlength := c.length_mergeSort_members values
  refine List.ext_getElem (by rw [List.length_map, hlength]) fun k hk hk' => ?_
  rw [List.length_map] at hk
  have hchange : (c.members[k], ((c.members.map (valueAt values)).mergeSort totalLe)[k]) ∈
      c.members.zip ((c.members.map (valueAt values)).mergeSort totalLe) :=
    List.mem_iff_getElem.mpr ⟨k, by simp [hk], by simp⟩
  have hfst : ((c.members.zip ((c.members.map (valueAt values)).mergeSort totalLe)).map
      (·.1)).Nodup := by
    rwa [List.map_fst_zip hlength.ge]
  have hset : (c.sort values)[c.members[k]]? = _ :=
    getElem?_foldl_set hfst hchange (hbound _ (List.getElem_mem hk))
  rw [List.getElem_map, valueAt, List.getD_eq_getElem?_getD, hset]
  rfl

/-- The values of the members are in ascending order. -/
def Ascends (c : Chain α) (values : List α) : Prop :=
  (c.members.map (valueAt values)).Pairwise fun x y => totalLe x y = true

theorem ascends_sort [LawfulTotal α] (hnodup : c.members.Nodup)
    (hbound : ∀ i ∈ c.members, i < values.length) : c.Ascends (c.sort values) := by
  unfold Ascends
  rw [map_valueAt_sort hnodup hbound]
  refine List.pairwise_mergeSort (fun x y z hxy hyz => ?_) (fun x y => ?_) _
  · exact LawfulTotal.totalLe_trans hxy hyz
  · exact Bool.or_eq_true _ _ ▸ LawfulTotal.totalLe_total x y

/-- Sorting a chain gives a chain apart from it the values that it had, in some order. -/
theorem perm_sort (hapart : c.Apart c') (hnodup : c'.members.Nodup)
    (hbound : ∀ i ∈ c'.members, i < values.length) :
    (c.members.map (valueAt (c'.sort values))).Perm (c.members.map (valueAt values)) := by
  rcases hapart with hsame | hdisjoint
  · rw [hsame, map_valueAt_sort hnodup hbound]
    exact List.mergeSort_perm _ _
  · have hvalues : c.members.map (valueAt (c'.sort values)) = c.members.map (valueAt values) :=
      List.map_congr_left fun i hi => valueAt_sort_of_notMem fun hi' => hdisjoint hi hi'
    rw [hvalues]

/-- Sorting a chain keeps the order of a chain apart from it. -/
theorem Ascends.sort [LawfulTotal α] (h : c.Ascends values) (hapart : c.Apart c')
    (hnodup : c'.members.Nodup) (hbound : ∀ i ∈ c'.members, i < values.length) :
    c.Ascends (c'.sort values) := by
  rcases hapart with hsame | hdisjoint
  · have hsorted := ascends_sort hnodup hbound
    unfold Ascends at hsorted ⊢
    rwa [hsame]
  · have hvalues : c.members.map (valueAt (c'.sort values)) = c.members.map (valueAt values) :=
      List.map_congr_left fun i hi => valueAt_sort_of_notMem fun hi' => hdisjoint hi hi'
    unfold Ascends
    rwa [hvalues]

/-- What holds of the values at all places still holds after sorting, if it is one thing for all
members. -/
theorem forall_sort {P : Nat → α → Prop} (hnodup : c.members.Nodup)
    (hbound : ∀ i ∈ c.members, i < values.length)
    (hsame : ∀ i ∈ c.members, ∀ j ∈ c.members, ∀ x, P i x → P j x)
    (h : ∀ i, P i (valueAt values i)) (i : Nat) : P i (valueAt (c.sort values) i) := by
  by_cases hmem : i ∈ c.members
  · have hvalue : valueAt (c.sort values) i ∈ c.members.map (valueAt (c.sort values)) :=
      List.mem_map_of_mem hmem
    rw [map_valueAt_sort hnodup hbound, List.mem_mergeSort] at hvalue
    obtain ⟨j, hj, hvalue⟩ := List.mem_map.mp hvalue
    rw [← hvalue]
    exact hsame j hj i hmem _ (h j)
  · rw [valueAt_sort_of_notMem hmem]
    exact h i

end Chain

/-! ## All chains -/

namespace Prior

open Chain (valueAt)

variable {chains : List (Chain α)} {values : List α}

theorem length_sortChains (chains : List (Chain α)) (values : List α) :
    (sortChains chains values).length = values.length := by
  induction chains generalizing values with
  | nil => rfl
  | cons c chains ih =>
    rw [sortChains, List.foldl_cons]
    exact (ih _).trans (c.length_sort values)

/-- What sorting each of some chains preserves holds after sorting one after the other. -/
theorem sortChains_invariant {P : List α → Prop}
    (hstep : ∀ c ∈ chains, ∀ values', values'.length = values.length → P values' →
      P (c.sort values')) (h : P values) : P (sortChains chains values) := by
  induction chains generalizing values with
  | nil => exact h
  | cons c chains ih =>
    refine ih (fun d hd values' hlength => ?_) (hstep c List.mem_cons_self values rfl h)
    exact hstep d (List.mem_cons_of_mem c hd) values' (hlength.trans (c.length_sort values))

variable {c : Chain α}

/-- A chain that ascends still does after others are sorted. -/
theorem ascends_sortChains_of_ascends [LawfulTotal α] (h : Sortable values.length chains)
    (hapart : ∀ c' ∈ chains, c.Apart c') (hc : c.Ascends values) :
    c.Ascends (sortChains chains values) := by
  refine sortChains_invariant (fun c' hc' values' hlength hascends => ?_) hc
  refine hascends.sort (hapart c' hc') (h.nodup c' hc') ?_
  rw [hlength]
  exact h.bound c' hc'

/-- After sorting one chain after the other all ascend. -/
theorem ascends_sortChains [LawfulTotal α] (h : Sortable values.length chains) (hc : c ∈ chains) :
    c.Ascends (sortChains chains values) := by
  induction chains generalizing values with
  | nil => cases hc
  | cons d chains ih =>
    have hlength : (d.sort values).length = values.length := d.length_sort values
    have htail : Sortable (d.sort values).length chains := hlength.symm ▸ h.tail
    rcases List.mem_cons.mp hc with rfl | hc
    · show c.Ascends (sortChains chains (c.sort values))
      refine ascends_sortChains_of_ascends htail
        (fun d hd => h.apart c List.mem_cons_self d (List.mem_cons_of_mem _ hd)) ?_
      exact Chain.ascends_sort (h.nodup c List.mem_cons_self) (h.bound c List.mem_cons_self)
    · exact ih htail hc

/-- After sorting one chain after the other each has the values that it had, in some order. -/
theorem perm_sortChains (h : Sortable values.length chains) (hc : c ∈ chains) :
    (c.members.map (valueAt (sortChains chains values))).Perm (c.members.map (valueAt values)) := by
  refine sortChains_invariant
    (P := fun values' => (c.members.map (valueAt values')).Perm (c.members.map (valueAt values)))
    (fun c' hc' values' hlength hperm => ?_) (.refl _)
  refine (Chain.perm_sort (h.apart c hc c' hc') (h.nodup c' hc') ?_).trans hperm
  rw [hlength]
  exact h.bound c' hc'

/-- A place in no chain keeps its value. -/
theorem getElem?_sortChains_of_notMem {i : Nat} (h : ∀ c ∈ chains, i ∉ c.members) :
    (sortChains chains values)[i]? = values[i]? :=
  sortChains_invariant (P := fun values' => values'[i]? = values[i]?)
    (fun c hc _ _ hvalue => (Chain.getElem?_sort_of_notMem (h c hc)).trans hvalue) rfl

/-- What holds of the values at all places still holds after sorting one chain after the other, if
it is one thing for all members of a chain. -/
theorem forall_sortChains {P : Nat → α → Prop} (h : Sortable values.length chains)
    (hsame : ∀ c ∈ chains, ∀ i ∈ c.members, ∀ j ∈ c.members, ∀ x, P i x → P j x)
    (hvalues : ∀ i, P i (valueAt values i)) (i : Nat) :
    P i (valueAt (sortChains chains values) i) := by
  refine sortChains_invariant (P := fun values' => ∀ i, P i (valueAt values' i))
    (fun c hc values' hlength hall => ?_) hvalues i
  refine Chain.forall_sort (h.nodup c hc) ?_ (hsame c hc) hall
  rw [hlength]
  exact h.bound c hc

end Prior

end PulseFit
