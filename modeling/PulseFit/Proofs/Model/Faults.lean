import Mathlib.Data.List.Perm.Basic
import PulseFit.Proofs.Model.Lists

/-!
# Proofs.Model.Faults — what is wrong with index lists

Lists that describe no model can do so in four ways, and in several at once.  `Verdict` says for
each what has to be in order before it is reported and which number it is reported with: the least
one that is at fault.  `ofLists` gives the verdict on the lists, which the order within them does
not change (`ofLists_judges`).

The search for a fault runs over a sorted list, so what it finds first is least
(`firstRepeat?_mergeSort_iff`, `find?_mergeSort_iff`).
-/

namespace PulseFit

/-! ## The least of what a list has wrong -/

/-- A search for the one number with a property finds it, if what it finds has the property and it
finds something where there is one. -/
theorem eq_some_iff_of_unique {found : Option Nat} {P : Nat → Prop}
    (hfound : ∀ j, found = some j → P j) (hnone : found = none → ∀ j, ¬ P j)
    (hunique : ∀ i j, P i → P j → i = j) {i : Nat} : found = some i ↔ P i := by
  constructor
  · exact hfound i
  · intro hi
    cases hj : found with
    | none => exact absurd hi (hnone hj i)
    | some j => rw [hunique j i (hfound j hj) hi]

/-- The least number that stands in the list more than once. -/
def LeastRepeated (xs : List Nat) (i : Nat) : Prop := 2 ≤ xs.count i ∧ ∀ j < i, xs.count j ≤ 1

theorem LeastRepeated.unique {xs : List Nat} {i j : Nat} (hi : LeastRepeated xs i)
    (hj : LeastRepeated xs j) : i = j := by
  obtain hlt | rfl | hlt := Nat.lt_trichotomy i j
  · exact absurd hi.1 (Nat.not_le_of_lt (Nat.lt_succ_of_le (hj.2 i hlt)))
  · rfl
  · exact absurd hj.1 (Nat.not_le_of_lt (Nat.lt_succ_of_le (hi.2 j hlt)))

theorem LeastRepeated.not_nodup {xs : List Nat} {i : Nat} (h : LeastRepeated xs i) : ¬ xs.Nodup :=
  fun hn => absurd (List.nodup_iff_count_le_one.mp hn i) (Nat.not_le_of_lt h.1)

theorem leastRepeated_perm {xs ys : List Nat} (h : xs.Perm ys) {i : Nat} :
    LeastRepeated xs i ↔ LeastRepeated ys i := by
  simp only [LeastRepeated, h.count_eq]

theorem leastRepeated_of_firstRepeat? {xs : List Nat} (h : xs.Pairwise (· ≤ ·)) {i : Nat}
    (hi : firstRepeat? xs = some i) : LeastRepeated xs i := by
  induction xs with
  | nil => cases hi
  | cons a xs ih =>
    cases xs with
    | nil => cases hi
    | cons b rest =>
      obtain ⟨ha, hrest⟩ := List.pairwise_cons.mp h
      rw [firstRepeat?] at hi
      split at hi
      · next hab =>
        obtain rfl : a = i := Option.some.inj hi
        subst hab
        refine ⟨by simp, fun j hj => ?_⟩
        -- nothing is below the first entry
        have hmem : j ∉ a :: a :: rest := by
          intro hmem
          obtain rfl | hmem := List.mem_cons.mp hmem
          · exact Nat.lt_irrefl _ hj
          · exact Nat.not_le_of_lt hj (ha j hmem)
        rw [List.count_eq_zero.mpr hmem]
        exact Nat.zero_le 1
      · next hab =>
        obtain ⟨htwice, hleast⟩ := ih hrest hi
        refine ⟨Nat.le_trans htwice List.count_le_count_cons, fun j hj => ?_⟩
        by_cases hja : a = j
        · subst hja
          rw [List.count_cons_self, List.count_eq_zero.mpr (notMem_of_ne_next h hab)]
        · rw [List.count_cons_of_ne hja]
          exact hleast j hj

theorem firstRepeat?_mergeSort_eq_none_iff {xs : List Nat} :
    firstRepeat? xs.mergeSort = none ↔ xs.Nodup := by
  rw [← (List.mergeSort_perm xs _).nodup_iff]
  exact ⟨nodup_of_firstRepeat? (pairwise_mergeSort_nat xs), Model.firstRepeat?_of_nodup⟩

/-- The first repetition in the sorted list is the least number that is repeated. -/
theorem firstRepeat?_mergeSort_iff {xs : List Nat} {i : Nat} :
    firstRepeat? xs.mergeSort = some i ↔ LeastRepeated xs i := by
  refine eq_some_iff_of_unique (fun j hj => ?_) (fun hnone j hj => ?_)
    fun _ _ => LeastRepeated.unique
  · exact (leastRepeated_perm (List.mergeSort_perm xs _)).mp
      (leastRepeated_of_firstRepeat? (pairwise_mergeSort_nat xs) hj)
  · exact hj.not_nodup (firstRepeat?_mergeSort_eq_none_iff.mp hnone)

/-- The least number of the list with a property. -/
def LeastWith (p : Nat → Prop) (xs : List Nat) (i : Nat) : Prop :=
  i ∈ xs ∧ p i ∧ ∀ j ∈ xs, p j → i ≤ j

theorem LeastWith.unique {p : Nat → Prop} {xs : List Nat} {i j : Nat} (hi : LeastWith p xs i)
    (hj : LeastWith p xs j) : i = j :=
  Nat.le_antisymm (hi.2.2 j hj.1 hj.2.1) (hj.2.2 i hi.1 hi.2.1)

theorem leastWith_of_find? {xs : List Nat} (h : xs.Pairwise (· ≤ ·)) {p : Nat → Bool} {i : Nat}
    (hi : xs.find? p = some i) : LeastWith (p · = true) xs i := by
  obtain ⟨hp, front, back, rfl, hfront⟩ := List.find?_eq_some_iff_append.mp hi
  refine ⟨by simp, hp, fun j hj hpj => ?_⟩
  obtain hj | hj := List.mem_append.mp hj
  · exact absurd hpj (by simpa using hfront j hj)
  · obtain rfl | hj := List.mem_cons.mp hj
    · exact Nat.le_refl _
    · exact (List.pairwise_cons.mp (List.pairwise_append.mp h).2.1).1 j hj

/-- What a search in the sorted list finds first is the least that it can find. -/
theorem find?_mergeSort_iff {xs : List Nat} {p : Nat → Bool} {i : Nat} :
    xs.mergeSort.find? p = some i ↔ LeastWith (p · = true) xs i := by
  refine eq_some_iff_of_unique (fun j hj => ?_) (fun hnone j hj => ?_) fun _ _ => LeastWith.unique
  · simpa [LeastWith] using leastWith_of_find? (pairwise_mergeSort_nat xs) hj
  · exact List.find?_eq_none.mp hnone j (List.mem_mergeSort.mpr hj.1) hj.2.1

/-! ## The verdict on index lists -/

namespace IndexLists

/-- The entries of all pulse lists, as they stand. -/
def pulseEntries (l : IndexLists) : List Nat := PulseShape.all.flatMap fun s => l.get (.pulse s)

/-- The entries of both residual lists, as they stand. -/
def ownerEntries (l : IndexLists) : List Nat :=
  ResidualShape.all.flatMap fun r => l.get (.residual r)

/-- The pulse lists share out the numbers from one to how many entries they have. -/
def Numbering (l : IndexLists) : Prop :=
  l.pulseEntries.Perm (List.range' 1 l.pulseEntries.length)

/-- No pulse has the number. -/
def Outside (l : IndexLists) (i : Nat) : Prop := i = 0 ∨ l.pulseEntries.length < i

/-- The lists are a partition of the pulses, and of some of them once more. -/
structure Partition (l : IndexLists) : Prop where
  numbering : l.Numbering
  owners_nodup : l.ownerEntries.Nodup
  owners_inside : ∀ i ∈ l.ownerEntries, 1 ≤ i ∧ i ≤ l.pulseEntries.length

/-- What is to be said of lists: the model that has them, sorted, or their first fault. -/
inductive Verdict (lensed : Bool) (l : IndexLists) : Except ModelError Model → Prop
  | model (m : Model) (h : l.Partition) (hlensed : m.lensed = lensed) (hname : m.name = none)
      (hlists : ∀ c, m.indices c = (l.get c).mergeSort) : Verdict lensed l (.ok m)
  | duplicatePulse (i : Nat) (h : LeastRepeated l.pulseEntries i) :
      Verdict lensed l (.error (.duplicatePulse i))
  | nonContiguousPulses (hnodup : l.pulseEntries.Nodup) (h : ¬ l.Numbering) :
      Verdict lensed l
        (.error (.nonContiguousPulses l.pulseEntries.length l.pulseEntries.mergeSort))
  | residualWithoutPulse (i : Nat) (hnumbering : l.Numbering)
      (h : LeastWith l.Outside l.ownerEntries i) :
      Verdict lensed l (.error (.residualWithoutPulse i l.pulseEntries.length))
  | duplicateResidual (i : Nat) (hnumbering : l.Numbering)
      (hinside : ∀ j ∈ l.ownerEntries, ¬ l.Outside j) (h : LeastRepeated l.ownerEntries i) :
      Verdict lensed l (.error (.duplicateResidual i))

variable {l : IndexLists}

theorem length_pulseNumbers : l.pulseNumbers.length = l.pulseEntries.length :=
  List.length_mergeSort _

theorem numbering_iff :
    l.pulseNumbers = List.range' 1 l.pulseEntries.length ↔ l.Numbering :=
  pulseNumbers_eq_range'_iff

theorem firstRepeat?_of_numbering (h : l.Numbering) : firstRepeat? l.pulseNumbers = none :=
  firstRepeat?_mergeSort_eq_none_iff.mpr (h.nodup_iff.mpr List.nodup_range')

theorem not_outside_iff {i : Nat} : ¬ l.Outside i ↔ 1 ≤ i ∧ i ≤ l.pulseEntries.length := by
  rw [Outside]
  omega

theorem partition_iff : l.Partition ↔ l.Describes l.pulseEntries.length := by
  have hrange : ∀ i, i ∈ List.range' 1 l.pulseEntries.length ↔
      1 ≤ i ∧ i ≤ l.pulseEntries.length := by
    intro i
    rw [List.mem_range'_1]
    omega
  rw [describes_iff]
  constructor
  · rintro ⟨hnumbering, hnodup, hinside⟩
    exact ⟨hnumbering, hnodup, fun i hi => (hrange i).mpr (hinside i hi)⟩
  · rintro ⟨hnumbering, hnodup, hinside⟩
    exact ⟨hnumbering, hnodup, fun i hi => (hrange i).mp (hinside i hi)⟩

/-- The test that an owner has to pass. -/
theorem outside_test {i : Nat} :
    (i == 0 || decide (l.pulseEntries.length < i)) = true ↔ l.Outside i := by
  rw [Bool.or_eq_true, beq_iff_eq, decide_eq_true_eq, Outside]

theorem find?_owners_iff {i : Nat} :
    l.owners.find? (fun i => i == 0 || l.pulseEntries.length < i) = some i ↔
      LeastWith l.Outside l.ownerEntries i := by
  rw [owners, find?_mergeSort_iff]
  simp only [outside_test]
  rfl

theorem find?_owners_eq_none_iff :
    l.owners.find? (fun i => i == 0 || l.pulseEntries.length < i) = none ↔
      ∀ i ∈ l.ownerEntries, ¬ l.Outside i := by
  simp only [List.find?_eq_none, outside_test, owners, List.mem_mergeSort, ownerEntries]

end IndexLists

namespace Model

open IndexLists (Verdict)

variable {lensed : Bool} {l : IndexLists}

/-- Lists of a partition are the lists of a model. -/
theorem exists_ofLists (h : l.Partition) (lensed : Bool) :
    ∃ m, ofLists lensed l = .ok m ∧ m.lensed = lensed ∧ m.name = none ∧
      ∀ c, m.indices c = (l.get c).mergeSort := by
  have hread := ofLists_of_describes (IndexLists.partition_iff.mp h) lensed
  exact ⟨_, hread, rfl, rfl, indices_of_ofLists hread⟩

/-- Lists are read as their verdict says. -/
theorem ofLists_of_verdict {r : Except ModelError Model} (h : Verdict lensed l r) :
    ofLists lensed l = r := by
  cases h with
  | model m h hlensed hname hlists =>
    obtain ⟨m', hread, hlensed', hname', hlists'⟩ := exists_ofLists h lensed
    rw [hread]
    exact congrArg Except.ok (ext_indices (hlensed'.trans hlensed.symm) (hname'.trans hname.symm)
      fun c => (hlists' c).trans (hlists c).symm)
  | duplicatePulse i h =>
    have hrepeat : firstRepeat? l.pulseNumbers = some i := firstRepeat?_mergeSort_iff.mpr h
    simp only [ofLists, hrepeat]
  | nonContiguousPulses hnodup h =>
    have hrepeat : firstRepeat? l.pulseNumbers = none :=
      firstRepeat?_mergeSort_eq_none_iff.mpr hnodup
    simp only [ofLists, hrepeat, IndexLists.length_pulseNumbers, ne_eq, IndexLists.numbering_iff, h,
      not_false_eq_true, if_true]
    rfl
  | residualWithoutPulse i hnumbering h =>
    have hrepeat := IndexLists.firstRepeat?_of_numbering hnumbering
    simp only [ofLists, hrepeat, IndexLists.length_pulseNumbers, ne_eq, IndexLists.numbering_iff,
      hnumbering, not_true_eq_false, if_false, IndexLists.find?_owners_iff.mpr h]
  | duplicateResidual i hnumbering hinside h =>
    have hrepeat := IndexLists.firstRepeat?_of_numbering hnumbering
    have howner : firstRepeat? l.owners = some i := firstRepeat?_mergeSort_iff.mpr h
    simp only [ofLists, hrepeat, IndexLists.length_pulseNumbers, ne_eq, IndexLists.numbering_iff,
      hnumbering, not_true_eq_false, if_false, IndexLists.find?_owners_eq_none_iff.mpr hinside,
      howner]

/-- There is a verdict on any lists. -/
theorem exists_verdict (lensed : Bool) (l : IndexLists) : ∃ r, Verdict lensed l r := by
  cases hrepeat : firstRepeat? l.pulseNumbers with
  | some i => exact ⟨_, .duplicatePulse i (firstRepeat?_mergeSort_iff.mp hrepeat)⟩
  | none =>
  by_cases hnumbering : l.Numbering
  case neg =>
    exact ⟨_, .nonContiguousPulses (firstRepeat?_mergeSort_eq_none_iff.mp hrepeat) hnumbering⟩
  cases houtside : l.owners.find? fun i => i == 0 || l.pulseEntries.length < i with
  | some i =>
    exact ⟨_, .residualWithoutPulse i hnumbering (IndexLists.find?_owners_iff.mp houtside)⟩
  | none =>
  have hinside := IndexLists.find?_owners_eq_none_iff.mp houtside
  cases howner : firstRepeat? l.owners with
  | some i =>
    exact ⟨_, .duplicateResidual i hnumbering hinside (firstRepeat?_mergeSort_iff.mp howner)⟩
  | none =>
  have hpartition : l.Partition :=
    ⟨hnumbering, firstRepeat?_mergeSort_eq_none_iff.mp howner,
      fun i hi => IndexLists.not_outside_iff.mp (hinside i hi)⟩
  obtain ⟨m, -, hlensed, hname, hlists⟩ := exists_ofLists hpartition lensed
  exact ⟨_, .model m hpartition hlensed hname hlists⟩

theorem ofLists_eq_iff {r : Except ModelError Model} :
    ofLists lensed l = r ↔ Verdict lensed l r := by
  constructor
  · rintro rfl
    obtain ⟨r, hr⟩ := exists_verdict lensed l
    rwa [ofLists_of_verdict hr]
  · exact ofLists_of_verdict

/-- The order within the lists does not matter. -/
theorem ofLists_perm {l' : IndexLists} (h : ∀ c, (l'.get c).Perm (l.get c)) :
    ofLists lensed l' = ofLists lensed l := by
  have hnumbers : l'.pulseNumbers = l.pulseNumbers :=
    mergeSort_congr (List.Perm.flatMap_left _ fun s _ => h (.pulse s))
  have howners : l'.owners = l.owners :=
    mergeSort_congr (List.Perm.flatMap_left _ fun r _ => h (.residual r))
  have hpulse : l'.pulse? = l.pulse? := by
    funext i
    simp only [IndexLists.pulse?, List.contains_eq_mem, (h _).mem_iff]
  simp only [ofLists, hnumbers, howners, hpulse]

/-- Lists are accepted exactly if the pulse lists are a permutation of the numbers from one and the
residual lists name existing pulses, none twice.  What is made of any lists is the verdict on them:
a model that has them sorted, or the first fault with the least number at fault.  It is the same for
lists with the same entries in another order. -/
theorem ofLists_judges (lensed : Bool) (l : IndexLists) :
    ((∃ m, ofLists lensed l = .ok m) ↔ l.Partition) ∧
      (∀ r, ofLists lensed l = r ↔ Verdict lensed l r) ∧
      ∀ l' : IndexLists, (∀ c, (l'.get c).Perm (l.get c)) →
        ofLists lensed l' = ofLists lensed l := by
  refine ⟨⟨?_, fun h => ?_⟩, fun r => ofLists_eq_iff, fun l' => ofLists_perm⟩
  · rintro ⟨m, hm⟩
    cases ofLists_eq_iff.mp hm with
    | model m h hlensed hname hlists => exact h
  · obtain ⟨m, hm, -⟩ := exists_ofLists h lensed
    exact ⟨m, hm⟩

/-- Lists in another order, and lists with two repeated pulses and an owner that is no pulse. -/
theorem ofLists_judges_unordered :
    (∃ m, ofLists true { fred := [3, 1], gaussian := [2], bessel := [3, 1] } = .ok m) ∧
      ofLists true { fred := [1, 3], gaussian := [2], bessel := [1, 3] } =
        ofLists true { fred := [3, 1], gaussian := [2], bessel := [3, 1] } ∧
      ofLists false { gaussian := [5, 2, 5], fred := [2], bessel := [0] } =
        .error (.duplicatePulse 2) := by
  obtain ⟨haccepted, -, hperm⟩ :=
    ofLists_judges true { fred := [3, 1], gaussian := [2], bessel := [3, 1] }
  obtain ⟨-, hverdict, -⟩ :=
    ofLists_judges false { gaussian := [5, 2, 5], fred := [2], bessel := [0] }
  refine ⟨haccepted.mpr ⟨?_, by decide, by decide⟩, hperm _ ?_,
    (hverdict _).mpr (.duplicatePulse 2 ⟨by decide, by decide⟩)⟩
  · show List.Perm [2, 3, 1] [1, 2, 3]
    decide
  · rintro ((_ | _ | _ | _) | (_ | _)) <;> decide

end Model

end PulseFit
